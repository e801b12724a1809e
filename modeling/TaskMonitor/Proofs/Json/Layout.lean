import Mathlib.Data.List.Forall2
import TaskMonitor.Proofs.Json.Tree

/-! Values that are laid out freely. A reader takes a value from each of its layouts, with blanks
between tokens, and the members of an object in any order among others that it passes over. -/

set_option autoImplicit false

namespace TaskMonitor.Json

variable {σ α β : Type}

/-- A reader does not mind blanks before a value. -/
def Skips (reader : Reader α) : Prop :=
  ∀ (before : Blanks) (text : Bytes), reader (before.bytes ++ text) = reader text

theorem skips_peek : Skips peek := peek_blanks

theorem Skips.bind {reader : Reader α} (skips : Skips reader) (next : α → Reader β) :
    Skips (reader >>= next) := by
  intro before text
  change Except.bind (reader _) _ = Except.bind (reader _) _
  rw [skips]

/-- A reader gives a value for a tree, whatever blanks stand before it and whatever follows. -/
def Accepts (reader : Reader α) (tree : Tree) (value : α) : Prop :=
  ∀ (before : Blanks) {rest : Bytes}, Stops rest →
    reader (before.bytes ++ (tree.bytes ++ rest)) = .ok (value, rest)

def Blanks.none : Blanks := ⟨[], by simp⟩

theorem Accepts.bare {reader : Reader α} {tree : Tree} {value : α}
    (accepts : Accepts reader tree value) {rest : Bytes} (stops : Stops rest) :
    reader (tree.bytes ++ rest) = .ok (value, rest) :=
  accepts Blanks.none stops

theorem Accepts.map {reader : Reader α} {tree : Tree} {value : α}
    (accepts : Accepts reader tree value) (make : α → β) :
    Accepts (reader >>= fun value => pure (make value)) tree (make value) := by
  intro before rest stops
  rw [bind_ok (accepts before stops)]
  rfl

theorem Accepts.present {reader : Reader α} {tree : Tree} {value : α}
    (accepts : Accepts reader tree value) : Accepts (present reader) tree (some value) :=
  accepts.map some

theorem Accepts.read {reader : Reader α} {tree : Tree} {value : α}
    (accepts : Accepts reader tree value) (before after : Blanks) :
    Json.read reader (before.bytes ++ (tree.bytes ++ after.bytes)) = .ok value := by
  have stops := stops_blanks after stops_nil
  have blank := skipBlanks_blanks after []
  rw [List.append_nil] at stops blank
  refine read_eq_ok.mpr ⟨after.bytes, accepts before stops, ?_⟩
  rw [blank]
  rfl

theorem Reads.accepts {reader : Reader α} {document : Document} {value : α} {tree : Tree}
    (reads : Reads reader document value) (skips : Skips reader)
    (shape : tree.bytes = Utf8.encode document.compact) : Accepts reader tree value := by
  intro before rest stops
  rw [skips, shape]
  exact reads rest stops

/-! ## Scalars -/

theorem skips_integer (least most : Int) : Skips (integer least most) := skips_peek.bind _

theorem accepts_bool (value : Bool) : Accepts bool (.bool value) value := by
  refine (reads_bool value).accepts (skips_peek.bind _) ?_
  cases value <;> rfl

theorem text_pieces (pieces : List Piece) (before : Blanks) (rest : Bytes) :
    text (before.bytes ++ Token.quote :: (pieceBytes pieces ++ Token.quote :: rest)) =
      meant (fun chars => (String.ofList chars, rest)) (meaning pieces) := by
  rw [text, skips_peek.bind _, bind_ok (peek_cons (by decide) _), if_pos rfl]
  exact quoted_pieces pieces rest

theorem accepts_text {pieces : List Piece} {chars : List Char}
    (means : meaning pieces = some chars) :
    Accepts text (.text pieces) (String.ofList chars) := by
  intro before rest _
  rw [text_append, text_pieces, means]
  rfl

theorem accepts_null (reader : Reader α) : Accepts (nullable reader) .null none :=
  (reads_null reader).accepts (skips_peek.bind _) rfl

theorem Accepts.nullable {reader : Reader α} {tree : Tree} {value : α}
    (accepts : Accepts reader tree value) (given : tree ≠ .null) :
    Accepts (nullable reader) tree (some value) := by
  intro before rest stops
  obtain ⟨byte, more, bytes, solid, _, null⟩ := tree_head tree
  have found := accepts.bare stops
  rw [bytes, List.cons_append] at found ⊢
  rw [Json.nullable, skips_peek.bind _, bind_ok (peek_cons solid _),
    if_neg fun same => given (null same), bind_ok found]
  rfl

/-! ## Lists -/

theorem peek_solid (before : Blanks) {byte : Byte} (solid : ¬ isBlank byte) (rest : Bytes) :
    peek (before.bytes ++ byte :: rest) = .ok (byte, byte :: rest) := by
  rw [peek_blanks, peek_cons solid]

theorem goesOn_close (close : Byte) (solid : ¬ isBlank close) (first : Bool) (before : Blanks)
    (rest : Bytes) : goesOn close first (before.bytes ++ close :: rest) = .ok (false, rest) := by
  rw [goesOn, bind_ok (peek_solid before solid rest), if_pos rfl]
  rfl

theorem goesOn_next {byte close : Byte} (solid : ¬ isBlank byte) (other : byte ≠ close)
    (noComma : Token.comma ≠ close) (first : Bool) (before inner : Blanks) (more : Bytes) :
    goesOn close first (before.bytes ++ (commaBytes first ++ (inner.bytes ++ byte :: more))) =
      .ok (true, byte :: more) := by
  cases first with
  | true =>
    change goesOn close true (before.bytes ++ (inner.bytes ++ byte :: more)) = _
    rw [goesOn, skips_peek.bind _, bind_ok (peek_solid inner solid more), if_neg other]
    rfl
  | false =>
    have comma : ¬ isBlank Token.comma := by decide
    change goesOn close false (before.bytes ++ Token.comma :: (inner.bytes ++ byte :: more)) = _
    rw [goesOn, bind_ok (peek_solid before comma _), if_neg noComma, separator,
      if_neg Bool.false_ne_true, bind_assoc, bind_ok (expect_cons comma _), bind_assoc,
      bind_ok (peek_solid inner solid more), if_neg other]
    rfl

theorem length_elementBytes (first : Bool) (elements : List (Padded Tree)) :
    elements.length ≤ (elementBytes first elements).length := by
  induction elements generalizing first with
  | nil => exact Nat.zero_le _
  | cons element elements ih =>
    obtain ⟨before, tree, after⟩ := element
    obtain ⟨byte, more, bytes, _⟩ := tree_head tree
    have others := ih false
    simp only [elementBytes, bytes, List.length_append, List.length_cons]
    omega

theorem goesOn_element (first : Bool) (before inner : Blanks) (tree : Tree) (after : Blanks)
    (elements : List (Padded Tree)) (rest : Bytes) :
    goesOn Token.closeList first
      (before.bytes ++ (elementBytes first (⟨inner, tree, after⟩ :: elements) ++ rest)) =
        .ok (true, tree.bytes ++ (after.bytes ++ (elementBytes false elements ++ rest))) := by
  obtain ⟨byte, more, bytes, solid, other, _⟩ := tree_head tree
  rw [elementBytes]
  simp only [bytes, List.append_assoc, List.cons_append]
  exact goesOn_next solid other (by decide) first before inner _

theorem elementsOnto_accepts {element : Reader α} {values : List α} {elements : List (Padded Tree)}
    (each : List.Forall₂ (fun value padded => Accepts element padded.value value) values elements)
    {fuel : Nat} (enough : elements.length < fuel) (seen : List α) (before : Blanks)
    (rest : Bytes) :
    elementsOnto element fuel seen (before.bytes ++ (elementBytes seen.isEmpty elements ++
      Token.closeList :: rest)) = .ok (seen.reverse ++ values, rest) := by
  induction each generalizing fuel seen before with
  | nil =>
    obtain ⟨fuel, rfl⟩ := Nat.exists_eq_succ_of_ne_zero (Nat.ne_of_gt enough)
    rw [elementsOnto_succ, elementBytes, List.nil_append,
      bind_ok (goesOn_close Token.closeList (by decide) _ before rest), List.append_nil]
    rfl
  | @cons value padded values elements accepts _ ih =>
    obtain ⟨fuel, rfl⟩ := Nat.exists_eq_succ_of_ne_zero (Nat.ne_of_gt (Nat.zero_lt_of_lt enough))
    obtain ⟨inner, tree, after⟩ := padded
    have found := accepts.bare (stops_blanks after (stops_elementBytes elements rest))
    rw [elementsOnto_succ, bind_ok (goesOn_element _ before inner tree after elements _),
      if_pos rfl, bind_ok found]
    have later := ih (Nat.lt_of_succ_lt_succ enough) (value :: seen) after
    rw [List.isEmpty_cons] at later
    rw [later, List.reverse_cons, List.append_assoc, List.singleton_append]

theorem accepts_list {element : Reader α} {values : List α} {elements : List (Padded Tree)}
    (each : List.Forall₂ (fun value padded => Accepts element padded.value value) values elements)
    (inner : Blanks) : Accepts (list element) (.list inner elements) values := by
  intro before rest _
  have many := length_elementBytes true elements
  rw [list, skips_peek.bind _, list_append, bind_ok (peek_cons (by decide) _), if_pos rfl,
    bind_ok rfl]
  refine elementsOnto_accepts each ?_ [] inner rest
  simp only [List.tail_cons, List.length_append]
  omega

/-! ## Variants -/

theorem skips_text : Skips text := skips_peek.bind _

theorem accepts_bare {named : String → Option (Variant α)} {pieces : List Piece} {chars : List Char}
    {value : α} {content : Reader α} (means : meaning pieces = some chars)
    (known : named (String.ofList chars) = some ⟨some value, content⟩) :
    Accepts (variant named) (.text pieces) value := by
  intro before rest stops
  have found := (accepts_text means).bare stops
  rw [variant, skips_peek.bind _]
  rw [text_append] at found ⊢
  rw [bind_ok (peek_cons (by decide) _), if_neg (by decide), if_pos rfl, bind_ok found, known]
  rfl

theorem accepts_variant {named : String → Option (Variant α)} {name : String} {entry : Variant α}
    {member : Member Tree} {value : α} (known : named name = some entry)
    (own : member.name = some name) (accepts : Accepts entry.content member.value.value value)
    (inner : Blanks) : Accepts (variant named) (.object inner [member]) value := by
  intro before rest _
  obtain ⟨⟨start, key, after⟩, ⟨front, tree, back⟩⟩ := member
  obtain ⟨chars, means, rfl⟩ := Option.map_eq_some_iff.mp own
  have closing : ¬ isBlank Token.closeObject := by decide
  have colon : ¬ isBlank Token.colon := by decide
  rw [variant, skips_peek.bind _, object_append, memberBytes, memberBytes]
  simp only [commaBytes, ↓reduceIte, List.nil_append, List.cons_append, List.append_assoc]
  have key := text_pieces key start
  simp only [means] at key
  rw [bind_ok (peek_cons (by decide) _), if_pos rfl, bind_ok rfl, List.tail_cons, skips_text.bind _,
    bind_ok (key _), known]
  have stops := stops_blanks back (stops_cons (.inr (.inr rfl)) rest)
  change (expect Token.colon >>= _) _ = _
  rw [bind_ok (expect_blanks after colon _), bind_ok (accepts front stops),
    bind_ok (expect_blanks back closing rest)]
  rfl

/-! ## Records -/

theorem nextKey_close (first : Bool) (before : Blanks) (rest : Bytes) :
    Record.nextKey first (before.bytes ++ Token.closeObject :: rest) = .ok (none, rest) := by
  rw [Record.nextKey, bind_ok (goesOn_close Token.closeObject (by decide) first before rest)]
  rfl

def Member.content (member : Member Tree) (rest : Bytes) : Bytes :=
  member.key.after.bytes ++ Token.colon ::
    (member.value.before.bytes ++ (member.value.value.bytes ++ rest))

theorem nextKey_member (first : Bool) (before : Blanks) (member : Member Tree)
    (members : List (Member Tree)) (rest : Bytes) :
    Record.nextKey first (before.bytes ++ (memberBytes first (member :: members) ++ rest)) =
      meant (fun chars => (some (String.ofList chars),
        member.content (member.value.after.bytes ++ (memberBytes false members ++ rest))))
        (meaning member.key.value) := by
  obtain ⟨⟨inner, key, after⟩, ⟨front, tree, back⟩⟩ := member
  have solid : ¬ isBlank Token.quote := by decide
  have other : Token.quote ≠ Token.closeObject := by decide
  rw [memberBytes]
  simp only [List.append_assoc, List.cons_append]
  rw [Record.nextKey, bind_ok (goesOn_next solid other (by decide) first before inner _),
    if_pos rfl, bind_ok (expect_cons solid _)]
  cases means : meaning key with
  | none => exact bind_error ((quoted_pieces key _).trans (by rw [means]; rfl)) _
  | some chars => exact bind_ok ((quoted_pieces key _).trans (by rw [means]; rfl)) _

theorem length_memberBytes (first : Bool) (members : List (Member Tree)) :
    members.length ≤ (memberBytes first members).length := by
  induction members generalizing first with
  | nil => exact Nat.zero_le _
  | cons member members ih =>
    have others := ih false
    simp only [memberBytes, List.length_append, List.length_cons]
    omega

/-- What a record is read from, member by member. `seen` has the names of the fields that have been
read; members under other names are passed over. -/
inductive Gathers (fields : List (Field σ)) : List String → List (Member Tree) → σ → σ → Prop where
  | nil {seen : List String} {values : σ} : Gathers fields seen [] values values
  | known {seen : List String} {member : Member Tree} {members : List (Member Tree)}
      {name : String} {field : Field σ} {values next final : σ} : member.name = some name →
      fields.find? (·.key = name) = some field → name ∉ seen →
      Accepts (field.read values) member.value.value next →
      Gathers fields (name :: seen) members next final →
      Gathers fields seen (member :: members) values final
  | other {seen : List String} {member : Member Tree} {members : List (Member Tree)}
      {name : String} {values final : σ} : member.name = some name →
      fields.find? (·.key = name) = none → Gathers fields seen members values final →
      Gathers fields seen (member :: members) values final

section

variable {fields : List (Field σ)}

theorem member_known {seen : List String} {member : Member Tree} {name : String} {field : Field σ}
    {values next : σ} (known : fields.find? (·.key = name) = some field) (unseen : name ∉ seen)
    (accepts : Accepts (field.read values) member.value.value next) {rest : Bytes}
    (stops : Stops rest) : Record.member fields seen values name (member.content rest) =
      .ok ((name :: seen, next), rest) :=
  Record.member_eq_ok.mpr (.inl ⟨field, _, known, unseen, expect_blanks _ (by decide) _,
    accepts member.value.before stops, rfl⟩)

theorem member_other {seen : List String} {member : Member Tree} {name : String} {values : σ}
    (unknown : fields.find? (·.key = name) = none) {rest : Bytes} (stops : Stops rest) :
    Record.member fields seen values name (member.content rest) = .ok ((seen, values), rest) :=
  Record.member_eq_ok.mpr (.inr ⟨_, unknown, expect_blanks _ (by decide) _,
    ignored_tree member.value.value member.value.before stops, rfl, rfl⟩)

theorem members_cons {member : Member Tree} {name : String} (own : member.name = some name)
    (members : List (Member Tree)) {seen later : List String} {values next : σ} (fuel : Nat)
    (first : Bool) (before : Blanks) (rest : Bytes)
    (taken : ∀ {rest : Bytes}, Stops rest → Record.member fields seen values name
      (member.content rest) = .ok ((later, next), rest)) :
    Record.members fields (fuel + 1) first seen values
      (before.bytes ++ (memberBytes first (member :: members) ++ Token.closeObject :: rest)) =
      Record.members fields fuel false later next
        (member.value.after.bytes ++ (memberBytes false members ++ Token.closeObject :: rest)) := by
  obtain ⟨chars, means, rfl⟩ := Option.map_eq_some_iff.mp own
  have key := nextKey_member first before member members (Token.closeObject :: rest)
  rw [means] at key
  rw [Record.members_succ, bind_ok key]
  change (Record.member _ _ _ _ >>= _) _ = _
  rw [bind_ok (taken (stops_blanks member.value.after (stops_memberBytes members rest)))]

theorem Gathers.members_eq {seen : List String} {members : List (Member Tree)} {values final : σ}
    (gathers : Gathers fields seen members values final) {fuel : Nat}
    (enough : members.length < fuel) (first : Bool) (before : Blanks) (rest : Bytes) :
    Record.members fields fuel first seen values
      (before.bytes ++ (memberBytes first members ++ Token.closeObject :: rest)) =
        .ok (final, rest) := by
  -- On the members as they are gathered: each takes one unit of fuel, known or not.
  induction gathers generalizing fuel first before with
  | nil =>
    obtain ⟨fuel, rfl⟩ := Nat.exists_eq_succ_of_ne_zero (Nat.ne_of_gt enough)
    rw [Record.members_succ, memberBytes, List.nil_append,
      bind_ok (nextKey_close first before rest)]
    rfl
  | known own known unseen accepts _ ih =>
    obtain ⟨fuel, rfl⟩ := Nat.exists_eq_succ_of_ne_zero (Nat.ne_of_gt (Nat.zero_lt_of_lt enough))
    rw [members_cons own _ fuel first before rest (member_known known unseen accepts)]
    exact ih (Nat.lt_of_succ_lt_succ enough) false _
  | other own unknown _ ih =>
    obtain ⟨fuel, rfl⟩ := Nat.exists_eq_succ_of_ne_zero (Nat.ne_of_gt (Nat.zero_lt_of_lt enough))
    rw [members_cons own _ fuel first before rest (member_other unknown)]
    exact ih (Nat.lt_of_succ_lt_succ enough) false _

/-- What a record is read from, element by element. The last ones may be left out. -/
inductive Lines : List (Field σ) → List (Padded Tree) → σ → σ → Prop where
  | nil {fields : List (Field σ)} {values : σ} : Lines fields [] values values
  | cons {field : Field σ} {fields : List (Field σ)} {padded : Padded Tree}
      {elements : List (Padded Tree)} {values next final : σ} :
      Accepts (field.read values) padded.value next → Lines fields elements next final →
      Lines (field :: fields) (padded :: elements) values final

theorem Lines.elements_eq {elements : List (Padded Tree)} {values final : σ}
    (lines : Lines fields elements values final) (first : Bool) (before : Blanks) (rest : Bytes) :
    Record.elements first fields values
      (before.bytes ++ (elementBytes first elements ++ Token.closeList :: rest)) =
        .ok (final, rest) := by
  have solid : ¬ isBlank Token.closeList := by decide
  -- On the lines. The elements may end before the fields do.
  induction lines generalizing first before with
  | @nil fields values =>
    cases fields with
    | nil =>
      rw [Record.elements, elementBytes, List.nil_append, bind_ok (expect_blanks before solid rest)]
      rfl
    | cons field fields =>
      rw [Record.elements_cons, elementBytes, List.nil_append,
        bind_ok (goesOn_close Token.closeList solid first before rest)]
      rfl
  | @cons field fields padded elements values next final accepts _ ih =>
    obtain ⟨inner, tree, after⟩ := padded
    have found := accepts.bare (stops_blanks after (stops_elementBytes elements rest))
    rw [Record.elements_cons, bind_ok (goesOn_element first before inner tree after elements _),
      if_pos rfl, bind_ok found]
    exact ih false after

end

inductive Record.Holds (record : Record σ α) : Tree → σ → Prop where
  | object {members : List (Member Tree)} {values : σ} (inner : Blanks) :
      Gathers record.fields [] members record.start values →
      Record.Holds record (.object inner members) values
  | list {elements : List (Padded Tree)} {values : σ} (inner : Blanks) :
      Lines record.fields elements record.start values →
      Record.Holds record (.list inner elements) values

theorem Record.Holds.accepts {record : Record σ α} {tree : Tree} {values : σ} {value : α}
    (holds : record.Holds tree values) (finish : record.finish values = some value) :
    Accepts record.read tree value := by
  intro before rest _
  have body : record.body (before.bytes ++ (tree.bytes ++ rest)) = .ok (values, rest) := by
    cases holds with
    | @object members values inner gathers =>
      have many := length_memberBytes true members
      rw [Record.body, skips_peek.bind _, object_append, bind_ok (peek_cons (by decide) _),
        if_pos rfl, bind_ok rfl]
      refine gathers.members_eq ?_ true inner rest
      simp only [List.tail_cons, List.length_append]
      omega
    | list inner lines =>
      rw [Record.body, skips_peek.bind _, list_append, bind_ok (peek_cons (by decide) _),
        if_neg (by decide), if_pos rfl, bind_ok rfl]
      exact lines.elements_eq true inner rest
  exact Record.read_eq_ok.mpr ⟨values, body, finish⟩

/-! ## Layouts of records -/

/-- A field as it may stand in a text: its name, how its value is written, and whether it may be
left out. -/
structure Slot where
  name : String
  form : Tree → Prop
  spare : Prop

/-- The keys of members that are among some names, in the order of the members. -/
def knownNames (names : List String) (members : List (Member Tree)) : List String :=
  (members.filterMap Member.name).filter (· ∈ names)

structure Member.Fits (slots : List Slot) (member : Member Tree) : Prop where
  named : ∃ name, member.name = some name
  form : ∀ slot ∈ slots, member.name = some slot.name → slot.form member.value.value

theorem Member.Fits.of {slots : List Slot} {member : Member Tree} {name : String}
    (own : member.name = some name)
    (form : ∀ slot ∈ slots, slot.name = name → slot.form member.value.value) :
    member.Fits slots := by
  refine ⟨⟨name, own⟩, fun slot among same => form slot among ?_⟩
  exact Option.some.inj (same.symm.trans own)

/-- Members in any order, of which each field is one at most once. There may be others, with any
values, under other names. -/
structure Orderly (slots : List Slot) (members : List (Member Tree)) : Prop where
  fits : ∀ member ∈ members, member.Fits slots
  once : (knownNames (slots.map (·.name)) members).Nodup

/-- Members that leave out no field that has to be there. -/
structure Filled (slots : List Slot) (members : List (Member Tree)) : Prop
    extends Orderly slots members where
  full : ∀ slot ∈ slots, slot.spare ∨ ∃ member ∈ members, member.name = some slot.name

def Tree.Fills (slots : List Slot) (tree : Tree) : Prop :=
  ∃ inner members, tree = .object inner members ∧ Filled slots members

theorem knownNames_cons {names : List String} {member : Member Tree} {name : String}
    (own : member.name = some name) (members : List (Member Tree)) :
    knownNames names (member :: members) =
      if name ∈ names then name :: knownNames names members else knownNames names members := by
  simp only [knownNames, List.filterMap_cons, own, List.filter_cons, decide_eq_true_eq]

/-- `state` is what a record holds once the fields of some names have been read, in any order. -/
structure Layout (record : Record σ α) (slots : List Slot) (value : α) (state : List String → σ) :
    Prop where
  start : state [] = record.start
  field : List.Forall₂ (fun field slot => field.key = slot.name ∧ ∀ seen tree, slot.name ∉ seen →
    slot.form tree → Accepts (field.read (state seen)) tree (state (slot.name :: seen)))
    record.fields slots
  finish : ∀ seen, (∀ slot ∈ slots, slot.spare ∨ slot.name ∈ seen) →
    record.finish (state seen) = some value

theorem find?_slot {fields : List (Field σ)} {slots : List Slot} {good : Field σ → Slot → Prop}
    (pairs : List.Forall₂ (fun field slot => field.key = slot.name ∧ good field slot) fields slots)
    (name : String) :
    fields.find? (·.key = name) = none ∧ name ∉ slots.map (·.name) ∨
      ∃ field slot, fields.find? (·.key = name) = some field ∧ slot ∈ slots ∧ slot.name = name ∧
        good field slot := by
  induction pairs with
  | nil => exact .inl ⟨rfl, List.not_mem_nil⟩
  | @cons field slot fields slots pair _ ih =>
    obtain ⟨key, good⟩ := pair
    by_cases found : slot.name = name
    · exact .inr ⟨field, slot, by simp [key, found], List.mem_cons_self, found, good⟩
    · rcases ih with ⟨unknown, apart⟩ | ⟨other, entry, known, among, same, good⟩
      · refine .inl ⟨by simp [key, found, unknown], ?_⟩
        rw [List.map_cons, List.mem_cons, not_or]
        exact ⟨fun same => found same.symm, apart⟩
      · exact .inr ⟨other, entry, by simp [key, found, known], List.mem_cons_of_mem _ among, same,
          good⟩

theorem Layout.gathers {record : Record σ α} {slots : List Slot} {value : α}
    {state : List String → σ} (layout : Layout record slots value state)
    {members : List (Member Tree)} (fits : ∀ member ∈ members, member.Fits slots)
    {seen : List String} (once : (knownNames (slots.map (·.name)) members ++ seen).Nodup) :
    Gathers record.fields seen members (state seen)
      (state ((knownNames (slots.map (·.name)) members).reverse ++ seen)) := by
  induction members generalizing seen with
  | nil => exact .nil
  | cons member members ih =>
    obtain ⟨own, others⟩ := List.forall_mem_cons.mp fits
    obtain ⟨name, named⟩ := own.named
    rw [knownNames_cons named] at once ⊢
    rcases find?_slot layout.field name with
      ⟨unknown, apart⟩ | ⟨field, slot, known, among, same, good⟩
    · rw [if_neg apart] at once ⊢
      exact .other named unknown (ih others once)
    · have listed : name ∈ slots.map (·.name) := List.mem_map.mpr ⟨slot, among, same⟩
      rw [if_pos listed] at once ⊢
      have unseen : name ∉ seen := fun before =>
        (List.nodup_cons.mp once).1 (List.mem_append_right _ before)
      have accepts := good seen member.value.value (same ▸ unseen)
        (own.form slot among (same ▸ named))
      rw [same] at accepts
      rw [List.reverse_cons, List.append_assoc, List.singleton_append]
      exact .known named known unseen accepts (ih others (List.perm_middle.nodup_iff.mpr once))

/-- A record is read from each object that is filled with its fields. -/
theorem Layout.accepts {record : Record σ α} {slots : List Slot} {value : α}
    {state : List String → σ} (layout : Layout record slots value state) {tree : Tree}
    (fills : tree.Fills slots) : Accepts record.read tree value := by
  obtain ⟨inner, members, rfl, filled⟩ := fills
  let names := knownNames (slots.map (·.name)) members
  have once : (names ++ []).Nodup := by
    rw [List.append_nil]
    exact filled.once
  have full : ∀ slot ∈ slots, slot.spare ∨ slot.name ∈ names.reverse ++ [] := by
    intro slot among
    refine (filled.full slot among).imp_right ?_
    rintro ⟨member, present, own⟩
    rw [List.append_nil, List.mem_reverse]
    refine List.mem_filter.mpr ⟨List.mem_filterMap.mpr ⟨member, present, own⟩, ?_⟩
    exact decide_eq_true (List.mem_map.mpr ⟨slot, among, rfl⟩)
  have gathers := layout.gathers filled.fits once
  rw [layout.start] at gathers
  exact (Record.Holds.object inner gathers).accepts (layout.finish _ full)

/-! ## Forms of values -/

def IntegerForm (value : Int) (tree : Tree) : Prop :=
  ∃ decimal, tree = .number decimal ∧ decimal.bytes = Utf8.encode (Number.signedDigits value)

def TextForm (value : String) (tree : Tree) : Prop :=
  ∃ pieces, tree = .text pieces ∧ meaning pieces = some value.toList

def OptionForm (form : α → Tree → Prop) : Option α → Tree → Prop
  | none, tree => tree = .null
  | some value, tree => form value tree

def ListForm (form : α → Tree → Prop) (values : List α) (tree : Tree) : Prop :=
  ∃ inner elements, tree = .list inner elements ∧
    List.Forall₂ (fun value padded => form value padded.value) values elements

def Tree.Wraps (name : String) (form : Tree → Prop) (tree : Tree) : Prop :=
  ∃ inner member, tree = .object inner [member] ∧ member.name = some name ∧
    form member.value.value

theorem IntegerForm.accepts {value : Int} {tree : Tree} (form : IntegerForm value tree)
    {reader : Reader α} {made : α} (reads : Reads reader (.integer value) made)
    (skips : Skips reader) : Accepts reader tree made := by
  obtain ⟨decimal, rfl, bytes⟩ := form
  exact reads.accepts skips bytes

theorem accepts_uint32 {value : UInt32} {tree : Tree} (form : IntegerForm value.toNat tree) :
    Accepts uint32 tree value :=
  form.accepts (reads_uint32 value) ((skips_integer _ _).bind _)

theorem accepts_uint64 {value : UInt64} {tree : Tree} (form : IntegerForm value.toNat tree) :
    Accepts uint64 tree value :=
  form.accepts (reads_uint64 value) ((skips_integer _ _).bind _)

theorem accepts_int32 {value : Int32} {tree : Tree} (form : IntegerForm value.toInt tree) :
    Accepts int32 tree value :=
  form.accepts (reads_int32 value) ((skips_integer _ _).bind _)

theorem TextForm.accepts {value : String} {tree : Tree} (form : TextForm value tree) :
    Accepts text tree value := by
  obtain ⟨pieces, rfl, means⟩ := form
  have found := accepts_text means
  rwa [String.ofList_toList] at found

theorem OptionForm.accepts {form : α → Tree → Prop} {reader : Reader α}
    (each : ∀ {value tree}, form value tree → tree ≠ .null ∧ Accepts reader tree value)
    {value : Option α} {tree : Tree} (written : OptionForm form value tree) :
    Accepts (Json.nullable reader) tree value := by
  cases value with
  | none =>
    cases written
    exact accepts_null reader
  | some value => exact (each written).2.nullable (each written).1

theorem ListForm.accepts {form : α → Tree → Prop} {element : Reader α}
    (each : ∀ {value tree}, form value tree → Accepts element tree value) {values : List α}
    {tree : Tree} (written : ListForm form values tree) : Accepts (list element) tree values := by
  obtain ⟨inner, elements, rfl, pairs⟩ := written
  exact accepts_list (pairs.imp fun _ _ => each) inner

theorem Tree.Wraps.accepts {named : String → Option (Variant α)} {name : String}
    {entry : Variant α} {form : Tree → Prop} {value : α} {tree : Tree}
    (written : tree.Wraps name form) (known : named name = some entry)
    (each : ∀ {tree}, form tree → Accepts entry.content tree value) :
    Accepts (variant named) tree value := by
  obtain ⟨inner, member, rfl, own, within⟩ := written
  exact accepts_variant known own (each within) inner

theorem IntegerForm.not_null {value : Int} {tree : Tree} (form : IntegerForm value tree) :
    tree ≠ .null := by
  obtain ⟨decimal, rfl, _⟩ := form
  nofun

theorem TextForm.not_null {value : String} {tree : Tree} (form : TextForm value tree) :
    tree ≠ .null := by
  obtain ⟨pieces, rfl, _⟩ := form
  nofun

theorem ListForm.not_null {form : α → Tree → Prop} {values : List α} {tree : Tree}
    (written : ListForm form values tree) : tree ≠ .null := by
  obtain ⟨inner, elements, rfl, _⟩ := written
  nofun

theorem Tree.Wraps.not_null {name : String} {form : Tree → Prop} {tree : Tree}
    (written : tree.Wraps name form) : tree ≠ .null := by
  obtain ⟨inner, member, rfl, _⟩ := written
  nofun

/-- A part of a record that is held from when its field has been read. -/
def held (seen : List String) (name : String) (value absent : α) : α :=
  if name ∈ seen then value else absent

@[simp] theorem held_read (seen : List String) (name : String) (value absent : α) :
    held (name :: seen) name value absent = value :=
  if_pos List.mem_cons_self

@[simp] theorem held_other {field name : String} (other : name ≠ field) (seen : List String)
    (value absent : α) : held (field :: seen) name value absent = held seen name value absent := by
  simp only [held, List.mem_cons, other, false_or]

theorem held_full {seen : List String} {name : String} {value absent : α}
    (full : value = absent ∨ name ∈ seen) : held seen name value absent = value := by
  unfold held
  split
  · rfl
  · next apart => exact (full.resolve_right apart).symm

theorem Accepts.put {reader : Reader α} {tree : Tree} {value : α}
    (accepts : Accepts reader tree value) (make : α → σ) {next : σ} (same : make value = next) :
    Accepts (reader >>= fun value => pure (make value)) tree next :=
  same ▸ accepts.map make

end TaskMonitor.Json
