import Mathlib.Data.List.Nodup
import TaskMonitor.Proofs.Json.Agreement
import TaskMonitor.Proofs.Json.Integer
import TaskMonitor.Proofs.Json.Layout

/-! What a reader that finds a value has seen. It has taken just the tree in which the value stands,
and finds the same value wherever the tree stands. -/

set_option autoImplicit false

namespace TaskMonitor.Json

variable {σ α β : Type}

/-- A reader that finds a value in a tree takes just the tree, and would find it elsewhere. -/
def Takes (reader : Reader α) : Prop :=
  ∀ (before : Blanks) (tree : Tree) {rest left : Bytes} {value : α}, Stops rest →
    reader (before.bytes ++ (tree.bytes ++ rest)) = .ok (value, left) →
      left = rest ∧ Accepts reader tree value

theorem Takes.map {reader : Reader α} (takes : Takes reader) (make : α → β) :
    Takes (reader >>= fun value => pure (make value)) := by
  intro before tree rest left value stops found
  obtain ⟨inner, middle, read, made⟩ := bind_eq_ok.mp found
  obtain ⟨rfl, rfl⟩ := pure_eq_ok.mp made
  exact (takes before tree stops read).imp_right (·.map make)

theorem Takes.bare {reader : Reader α} (takes : Takes reader) {tree : Tree} {rest left : Bytes}
    {value : α} (stops : Stops rest) (found : reader (tree.bytes ++ rest) = .ok (value, left)) :
    left = rest ∧ Accepts reader tree value :=
  takes Blanks.none tree stops found

theorem Takes.read {reader : Reader α} (takes : Takes reader) {before after : Blanks} {tree : Tree}
    {value : α}
    (found : Json.read reader (before.bytes ++ (tree.bytes ++ after.bytes)) = .ok value) :
    Accepts reader tree value := by
  obtain ⟨left, read, _⟩ := read_eq_ok.mp found
  have stops := stops_blanks after stops_nil
  rw [List.append_nil] at stops
  exact (takes before tree stops read).2

theorem Takes.of_map {reader : Reader α} (takes : Takes reader) {make : α → β} {tree : Tree}
    {made : β} (accepts : Accepts (reader >>= fun value => pure (make value)) tree made) :
    ∃ value, Accepts reader tree value ∧ make value = made := by
  obtain ⟨value, _, read, same⟩ := bind_eq_ok.mp (accepts.bare stops_nil)
  exact ⟨value, (takes.bare stops_nil read).2, (pure_eq_ok.mp same).1⟩

/-! ## First bytes -/

/-- The kinds of trees that start with a byte. -/
structure Begins (byte : Byte) (tree : Tree) : Prop where
  null : byte = 0x6E → tree = .null
  yes : byte = 0x74 → tree = .bool true
  no : byte = 0x66 → tree = .bool false
  number : byte = Token.minus ∨ isDigit byte → ∃ decimal, tree = .number decimal
  text : byte = Token.quote → ∃ pieces, tree = .text pieces
  list : byte = Token.openList → ∃ inner elements, tree = .list inner elements
  object : byte = Token.openObject → ∃ inner members, tree = .object inner members

theorem peek_tree (before : Blanks) (tree : Tree) (rest : Bytes) : ∃ byte,
    peek (before.bytes ++ (tree.bytes ++ rest)) = .ok (byte, tree.bytes ++ rest) ∧
      Begins byte tree := by
  cases tree with
  | null =>
    refine ⟨0x6E, peek_solid before (by decide) _, ?_⟩
    constructor <;> intro same <;> first | rfl | exact absurd same (by decide)
  | bool value =>
    cases value with
    | true =>
      refine ⟨0x74, peek_solid before (by decide) _, ?_⟩
      constructor <;> intro same <;> first | rfl | exact absurd same (by decide)
    | false =>
      refine ⟨0x66, peek_solid before (by decide) _, ?_⟩
      constructor <;> intro same <;> first | rfl | exact absurd same (by decide)
  | number decimal =>
    obtain ⟨byte, more, bytes, starts⟩ := decimal_head decimal
    obtain ⟨noNull, noYes, noNo, noText, noList, noObject⟩ := numeral_other starts
    have found := peek_solid before (opening_numeral starts).1 (more ++ rest)
    refine ⟨byte, by rwa [Tree.bytes, bytes, List.cons_append], ?_⟩
    exact ⟨fun same => absurd same noNull, fun same => absurd same noYes,
      fun same => absurd same noNo, fun _ => ⟨decimal, rfl⟩, fun same => absurd same noText,
      fun same => absurd same noList, fun same => absurd same noObject⟩
  | text pieces =>
    refine ⟨Token.quote, peek_solid before (by decide) _, ?_⟩
    constructor <;> intro same <;> first | exact ⟨_, rfl⟩ | exact absurd same (by decide)
  | list inner elements =>
    refine ⟨Token.openList, peek_solid before (by decide) _, ?_⟩
    constructor <;> intro same <;> first | exact ⟨_, _, rfl⟩ | exact absurd same (by decide)
  | object inner members =>
    refine ⟨Token.openObject, peek_solid before (by decide) _, ?_⟩
    constructor <;> intro same <;> first | exact ⟨_, _, rfl⟩ | exact absurd same (by decide)

theorem Takes.look {next : Byte → Reader α}
    (each : ∀ {byte : Byte} {tree : Tree} {rest left : Bytes} {value : α}, Begins byte tree →
      Stops rest → next byte (tree.bytes ++ rest) = .ok (value, left) →
        left = rest ∧ Accepts (peek >>= next) tree value) :
    Takes (peek >>= next) := by
  intro before tree rest left value stops found
  obtain ⟨byte, first, begins⟩ := peek_tree before tree rest
  rw [bind_ok first] at found
  exact each begins stops found

/-! ## Scalars -/

def WholeForm (n : Int) (tree : Tree) : Prop :=
  ∃ decimal, tree = .number decimal ∧ decimal.Whole ∧ decimal.integer = n

theorem integer_number (least most : Int) (before : Blanks) (decimal : Decimal) (rest : Bytes) :
    integer least most (before.bytes ++ ((Tree.number decimal).bytes ++ rest)) =
      (numeral >>= fun found => match found with
        | .integer value => if least ≤ value ∧ value ≤ most then return value else throw .mismatch
        | .other => throw .mismatch) (decimal.bytes ++ rest) := by
  obtain ⟨byte, more, bytes, starts⟩ := decimal_head decimal
  have found := peek_solid before (opening_numeral starts).1 (more ++ rest)
  rw [← List.cons_append, ← bytes] at found
  rw [integer, Tree.bytes, bind_ok found]
  exact congrFun (if_pos starts) _

/-- Of all values, just the integers in the range of the reader are read, each as it is. -/
theorem integer_eq_ok_iff (least most : Int) (before : Blanks) (tree : Tree) {rest left : Bytes}
    (stops : Stops rest) {n : Int} :
    integer least most (before.bytes ++ (tree.bytes ++ rest)) = .ok (n, left) ↔
      left = rest ∧ WholeForm n tree ∧ InRange n ∧ least ≤ n ∧ n ≤ most := by
  constructor
  · intro found
    obtain ⟨byte, first, begins⟩ := peek_tree before tree rest
    rw [integer, bind_ok first] at found
    split at found
    · next starts =>
      obtain ⟨decimal, rfl⟩ := begins.number starts
      obtain ⟨numeral, middle, read, fits⟩ := bind_eq_ok.mp found
      cases numeral with
      | other => exact absurd fits throw_ne_ok
      | integer n =>
        obtain ⟨rfl, whole, same, range⟩ := (numeral_eq_ok_iff decimal stops).mp read
        simp only at fits
        split at fits
        · next within =>
          obtain ⟨rfl, rfl⟩ := pure_eq_ok.mp fits
          exact ⟨rfl, ⟨decimal, rfl, whole, same⟩, range, within⟩
        · exact absurd fits throw_ne_ok
    · exact absurd found (otherKind_ne_ok _ _)
  · rintro ⟨rfl, ⟨decimal, rfl, whole, same⟩, range, within⟩
    have read := (numeral_eq_ok_iff decimal stops).mpr ⟨rfl, whole, same, range⟩
    rw [integer_number, bind_ok read]
    change (if least ≤ n ∧ n ≤ most then return n else throw .mismatch : Reader Int) _ = _
    rw [if_pos within]
    rfl

theorem accepts_integer_iff {least most : Int} {tree : Tree} {n : Int} :
    Accepts (integer least most) tree n ↔ WholeForm n tree ∧ InRange n ∧ least ≤ n ∧ n ≤ most := by
  constructor
  · intro accepts
    exact ((integer_eq_ok_iff least most Blanks.none tree stops_nil).mp
      (accepts Blanks.none stops_nil)).2
  · intro form before rest stops
    exact (integer_eq_ok_iff least most before tree stops).mpr ⟨rfl, form⟩

theorem takes_integer (least most : Int) : Takes (integer least most) := by
  intro before tree rest left value stops found
  obtain ⟨same, form⟩ := (integer_eq_ok_iff least most before tree stops).mp found
  exact ⟨same, accepts_integer_iff.mpr form⟩

theorem takes_uint32 : Takes uint32 := (takes_integer _ _).map _

theorem takes_uint64 : Takes uint64 := (takes_integer _ _).map _

theorem takes_int32 : Takes int32 := (takes_integer _ _).map _

theorem literal_left {word rest left : Bytes} {found : Unit}
    (read : literal word (word ++ rest) = .ok (found, left)) : left = rest := by
  rw [literal_append] at read
  cases read
  rfl

theorem takes_bool : Takes bool := by
  apply Takes.look
  intro byte tree rest left value begins stops found
  split at found
  · next first =>
    cases begins.yes first
    obtain ⟨_, middle, read, made⟩ := bind_eq_ok.mp found
    obtain ⟨rfl, rfl⟩ := pure_eq_ok.mp made
    exact ⟨literal_left read, accepts_bool true⟩
  · split at found
    · next first =>
      cases begins.no first
      obtain ⟨_, middle, read, made⟩ := bind_eq_ok.mp found
      obtain ⟨rfl, rfl⟩ := pure_eq_ok.mp made
      exact ⟨literal_left read, accepts_bool false⟩
    · exact absurd found (otherKind_ne_ok _ _)

theorem takes_nothing : Takes nothing := by
  apply Takes.look
  intro byte tree rest left value begins stops found
  split at found
  · next first =>
    cases begins.null first
    refine ⟨literal_left found, fun before rest _ => ?_⟩
    rw [skips_peek.bind _]
    rfl
  · exact absurd found (otherKind_ne_ok _ _)

theorem meant_eq_ok {make : List Char → α} {means : Option (List Char)} {value : α} :
    meant make means = .ok value ↔ ∃ chars, means = some chars ∧ make chars = value := by
  cases means <;> simp [meant]

theorem takes_text : Takes text := by
  apply Takes.look
  intro byte tree rest left value begins stops found
  split at found
  · next first =>
    obtain ⟨pieces, rfl⟩ := begins.text first
    rw [text_append, bind_ok rfl] at found
    obtain ⟨chars, means, made⟩ := meant_eq_ok.mp ((quoted_pieces pieces rest).symm.trans found)
    cases made
    exact ⟨rfl, accepts_text means⟩
  · exact absurd found (otherKind_ne_ok _ _)

theorem Takes.nullable {reader : Reader α} (takes : Takes reader) : Takes (nullable reader) := by
  intro before tree rest left value stops found
  obtain ⟨byte, first, begins⟩ := peek_tree before tree rest
  rw [Json.nullable, bind_ok first] at found
  split at found
  · next null =>
    obtain ⟨_, middle, read, made⟩ := bind_eq_ok.mp found
    obtain ⟨rfl, rfl⟩ := pure_eq_ok.mp made
    cases begins.null null
    exact ⟨literal_left read, accepts_null reader⟩
  · next some =>
    obtain ⟨inner, middle, read, made⟩ := bind_eq_ok.mp found
    obtain ⟨rfl, rfl⟩ := pure_eq_ok.mp made
    obtain ⟨rfl, accepts⟩ := takes.bare stops read
    refine ⟨rfl, accepts.nullable ?_⟩
    rintro rfl
    cases first.symm.trans (peek_solid before (by decide) _)
    exact some rfl

theorem Takes.of_nullable {reader : Reader α} (takes : Takes reader) {tree : Tree}
    (some : tree ≠ .null) {value : Option α} (accepts : Accepts (Json.nullable reader) tree value) :
    ∃ given, Accepts reader tree given ∧ value = Option.some given := by
  have found := accepts Blanks.none stops_nil
  obtain ⟨byte, first, begins⟩ := peek_tree .none tree []
  rw [Json.nullable, bind_ok first, if_neg fun null => some (begins.null null)] at found
  obtain ⟨given, middle, read, made⟩ := bind_eq_ok.mp found
  exact ⟨given, (takes.bare stops_nil read).2, (pure_eq_ok.mp made).1.symm⟩

theorem Takes.present {reader : Reader α} (takes : Takes reader) : Takes (present reader) :=
  takes.map some

/-! ## Lists -/

theorem elementsOnto_takes {element : Reader α} (takes : Takes element)
    (elements : List (Padded Tree)) {fuel : Nat} {seen values : List α} {before : Blanks}
    {rest left : Bytes}
    (found : elementsOnto element fuel seen (before.bytes ++ (elementBytes seen.isEmpty elements ++
      Token.closeList :: rest)) = .ok (values, left)) :
    left = rest ∧ ∃ later, values = seen.reverse ++ later ∧
      List.Forall₂ (fun value padded => Accepts element padded.value value) later elements := by
  -- On the elements: what the reader has read is the first of them and then the others.
  induction elements generalizing fuel seen before with
  | nil =>
    cases fuel with
    | zero => cases found
    | succ fuel =>
      have close := goesOn_close Token.closeList (by decide) seen.isEmpty before rest
      rw [elementsOnto_succ, elementBytes, List.nil_append, bind_ok close] at found
      obtain ⟨rfl, rfl⟩ := pure_eq_ok.mp found
      exact ⟨rfl, [], (List.append_nil _).symm, .nil⟩
  | cons padded elements ih =>
    cases fuel with
    | zero => cases found
    | succ fuel =>
      obtain ⟨inner, tree, after⟩ := padded
      have stops := stops_blanks after (stops_elementBytes elements rest)
      rw [elementsOnto_succ, bind_ok (goesOn_element _ before inner tree after elements _)] at found
      obtain ⟨value, middle, read, others⟩ := bind_eq_ok.mp found
      obtain ⟨rfl, own⟩ := takes.bare stops read
      obtain ⟨same, later, rfl, each⟩ := ih others
      refine ⟨same, value :: later, ?_, .cons own each⟩
      rw [List.reverse_cons, List.append_assoc, List.singleton_append]

theorem Takes.elements {element : Reader α} (takes : Takes element) (before : Blanks) {tree : Tree}
    {rest left : Bytes} {values : List α}
    (found : list element (before.bytes ++ (tree.bytes ++ rest)) = .ok (values, left)) :
    left = rest ∧ ListForm (fun value tree => Accepts element tree value) values tree := by
  obtain ⟨byte, first, begins⟩ := peek_tree before tree rest
  rw [list, bind_ok first] at found
  split at found
  · next open' =>
    obtain ⟨inner, elements, rfl⟩ := begins.list open'
    rw [list_append, bind_ok rfl] at found
    obtain ⟨same, later, rfl, each⟩ := elementsOnto_takes takes elements found
    exact ⟨same, inner, elements, rfl, each⟩
  · exact absurd found (otherKind_ne_ok _ _)

theorem Takes.list {element : Reader α} (takes : Takes element) : Takes (list element) := by
  intro before tree rest left values stops found
  obtain ⟨same, form⟩ := takes.elements before found
  exact ⟨same, form.accepts id⟩

/-! ## Variants -/

theorem expect_other {byte wanted : Byte} (solid : ¬ isBlank byte) (other : byte ≠ wanted)
    (before : Blanks) (rest : Bytes) (out : Unit × Bytes) :
    expect wanted (before.bytes ++ byte :: rest) ≠ .ok out := by
  rw [expect, bind_ok (peek_solid before solid rest), if_neg other]
  exact throw_ne_ok

theorem text_close_ne_ok (before : Blanks) (rest : Bytes) (out : String × Bytes) :
    text (before.bytes ++ Token.closeObject :: rest) ≠ .ok out := by
  intro found
  rw [text, skips_peek.bind _, bind_ok (peek_cons (by decide) _), if_neg (by decide)] at found
  exact otherKind_ne_ok _ _ found

section

variable {named : String → Option (Variant α)}

/-- The contents of variants are taken. -/
def Contents (named : String → Option (Variant α)) : Prop :=
  ∀ name entry, named name = some entry → Takes entry.content

theorem contents_none : Contents (fun _ => none : String → Option (Variant α)) := nofun

theorem Contents.ite {content : Reader α} (takes : Takes content) (others : Contents named)
    (key : String) :
    Contents fun name => if name = key then some ⟨none, content⟩ else named name := by
  intro name entry known
  dsimp only at known
  split at known
  · cases known
    exact takes
  · exact others name entry known

/-- A variant that is no bare name is read from an object with a single member. -/
theorem variant_object (each : Contents named) {inner : Blanks} {members : List (Member Tree)}
    {rest left : Bytes} {value : α}
    (found : variant named ((Tree.object inner members).bytes ++ rest) = .ok (value, left)) :
    left = rest ∧ ∃ member name entry, members = [member] ∧ member.name = some name ∧
      named name = some entry ∧ Accepts entry.content member.value.value value := by
  rw [variant, object_append, bind_ok (peek_cons (by decide) _), if_pos rfl, bind_ok rfl] at found
  cases members with
  | nil =>
    obtain ⟨name, _, read, _⟩ := bind_eq_ok.mp found
    exact absurd read (text_close_ne_ok inner rest _)
  | cons member members =>
    obtain ⟨⟨start, key, after⟩, ⟨front, tree, back⟩⟩ := member
    simp only [List.tail_cons, memberBytes, commaBytes, ↓reduceIte, List.nil_append,
      List.cons_append, List.append_assoc] at found
    rw [skips_text.bind _] at found
    obtain ⟨name, middle, read, more⟩ := bind_eq_ok.mp found
    rw [text_pieces] at read
    obtain ⟨chars, means, made⟩ := meant_eq_ok.mp read
    cases made
    cases known : named (String.ofList chars) with
    | none =>
      rw [known] at more
      exact absurd more throw_ne_ok
    | some entry =>
      rw [known] at more
      have colon : ¬ isBlank Token.colon := by decide
      change (expect Token.colon >>= _) _ = _ at more
      rw [bind_ok (expect_blanks after colon _)] at more
      obtain ⟨content, later, inside, closed⟩ := bind_eq_ok.mp more
      have behind := stops_blanks back (stops_memberBytes members rest)
      obtain ⟨rfl, own⟩ := each _ _ known front tree behind inside
      obtain ⟨_, last, close, made⟩ := bind_eq_ok.mp closed
      obtain ⟨rfl, rfl⟩ := pure_eq_ok.mp made
      -- A second member begins with a comma, where the closing bracket is wanted.
      cases members with
      | cons member members => exact absurd close (expect_other (by decide) (by decide) back _ _)
      | nil =>
        rw [memberBytes, List.nil_append, expect_blanks back (by decide)] at close
        cases close
        exact ⟨rfl, _, _, entry, rfl, congrArg _ means, known, own⟩

theorem takes_variant (each : Contents named) : Takes (variant named) := by
  intro before tree rest left value stops found
  obtain ⟨byte, first, begins⟩ := peek_tree before tree rest
  by_cases object : byte = Token.openObject
  · obtain ⟨inner, members, rfl⟩ := begins.object object
    rw [variant, skips_peek.bind _] at found
    obtain ⟨same, member, name, entry, rfl, own, known, accepts⟩ := variant_object each found
    exact ⟨same, accepts_variant known own accepts inner⟩
  · rw [variant, bind_ok first, if_neg object] at found
    split at found
    · next quote =>
      obtain ⟨pieces, rfl⟩ := begins.text quote
      rw [text_append] at found
      obtain ⟨name, middle, read, made⟩ := bind_eq_ok.mp found
      rw [← List.nil_append (Token.quote :: _)] at read
      obtain ⟨chars, means, same⟩ :=
        meant_eq_ok.mp ((text_pieces pieces .none rest).symm.trans read)
      cases same
      cases known : named (String.ofList chars) with
      | none =>
        rw [known] at made
        exact absurd made throw_ne_ok
      | some entry =>
        obtain ⟨bare, content⟩ := entry
        rw [known] at made
        cases bare with
        | none => exact absurd made throw_ne_ok
        | some value =>
          obtain ⟨rfl, rfl⟩ := pure_eq_ok.mp made
          exact ⟨rfl, accepts_bare means known⟩
    · exact absurd found throw_ne_ok

end

/-! ## Records -/

section

variable {fields : List (Field σ)}

theorem close_other {first : Bool} {padded : Padded Tree} {elements : List (Padded Tree)}
    (before : Blanks) (rest : Bytes) (out : Unit × Bytes) :
    expect Token.closeList (before.bytes ++ (elementBytes first (padded :: elements) ++ rest)) ≠
      .ok out := by
  cases first with
  | false => exact expect_other (by decide) (by decide) before _ out
  | true =>
    obtain ⟨inner, tree, after⟩ := padded
    obtain ⟨byte, more, bytes, solid, other, _⟩ := tree_head tree
    rw [expect, skips_peek.bind _, elementBytes, bytes]
    simp only [commaBytes, ↓reduceIte, List.nil_append, List.append_assoc, List.cons_append]
    exact expect_other solid other inner _ out

theorem elements_takes (each : ∀ field ∈ fields, ∀ values, Takes (field.read values)) {first : Bool}
    {values final : σ} (elements : List (Padded Tree)) {before : Blanks} {rest left : Bytes}
    (found : Record.elements first fields values (before.bytes ++ (elementBytes first elements ++
      Token.closeList :: rest)) = .ok (final, left)) :
    left = rest ∧ Lines fields elements values final := by
  -- On the fields: there may be fewer elements, and one too many is refused.
  induction fields generalizing first values elements before with
  | nil =>
    obtain ⟨_, middle, close, made⟩ := bind_eq_ok.mp found
    obtain ⟨rfl, rfl⟩ := pure_eq_ok.mp made
    cases elements with
    | cons padded elements => exact absurd close (close_other before _ _)
    | nil =>
      rw [elementBytes, List.nil_append, expect_blanks before (by decide)] at close
      cases close
      exact ⟨rfl, .nil⟩
  | cons field fields ih =>
    obtain ⟨own, others⟩ := List.forall_mem_cons.mp each
    rw [Record.elements_cons] at found
    cases elements with
    | nil =>
      rw [elementBytes, List.nil_append,
        bind_ok (goesOn_close Token.closeList (by decide) first before rest)] at found
      obtain ⟨rfl, rfl⟩ := pure_eq_ok.mp found
      exact ⟨rfl, .nil⟩
    | cons padded elements =>
      obtain ⟨inner, tree, after⟩ := padded
      have stops := stops_blanks after (stops_elementBytes elements rest)
      rw [bind_ok (goesOn_element first before inner tree after elements _)] at found
      obtain ⟨value, middle, read, more⟩ := bind_eq_ok.mp found
      obtain ⟨rfl, accepts⟩ := (own _).bare stops read
      exact (ih others elements more).imp_right (.cons accepts)

theorem members_takes (each : ∀ field ∈ fields, ∀ values, Takes (field.read values))
    (members : List (Member Tree)) {fuel : Nat} {first : Bool} {seen : List String}
    {values final : σ} {before : Blanks} {rest left : Bytes}
    (found : Record.members fields fuel first seen values
      (before.bytes ++ (memberBytes first members ++ Token.closeObject :: rest)) =
        .ok (final, left)) : left = rest ∧ Gathers fields seen members values final := by
  -- On the members, with the names of the fields before them in `seen`.
  induction members generalizing fuel first seen values before with
  | nil =>
    cases fuel with
    | zero => cases found
    | succ fuel =>
      rw [Record.members_succ, memberBytes, List.nil_append,
        bind_ok (nextKey_close first before rest)] at found
      obtain ⟨rfl, rfl⟩ := pure_eq_ok.mp found
      exact ⟨rfl, .nil⟩
  | cons member members ih =>
    cases fuel with
    | zero => cases found
    | succ fuel =>
      have behind := stops_blanks member.value.after (stops_memberBytes members rest)
      rw [Record.members_succ] at found
      obtain ⟨_, middle, read, more⟩ := bind_eq_ok.mp found
      rw [nextKey_member] at read
      obtain ⟨chars, means, made⟩ := meant_eq_ok.mp read
      cases made
      obtain ⟨⟨seen', next⟩, later, taken, others⟩ := bind_eq_ok.mp more
      have own : member.name = some (String.ofList chars) := congrArg _ means
      have colon : ¬ isBlank Token.colon := by decide
      rw [Member.content] at taken
      rcases Record.member_eq_ok.mp taken with
        ⟨field, start, known, unseen, passed, value, rfl⟩ |
          ⟨start, unknown, passed, value, rfl, rfl⟩
      · rw [expect_blanks _ colon] at passed
        cases passed
        obtain ⟨rfl, accepts⟩ := each field (List.mem_of_find?_eq_some known) values
          member.value.before member.value.value behind value
        exact (ih others).imp_right (.known own known unseen accepts)
      · rw [expect_blanks _ colon] at passed
        cases passed
        rw [ignored_tree _ _ behind] at value
        cases value
        exact (ih others).imp_right (.other own unknown)

end

section

variable {record : Record σ α} {tree : Tree} {value : α}

theorem Record.body_takes (each : ∀ field ∈ record.fields, ∀ values, Takes (field.read values))
    (before : Blanks) {rest left : Bytes} {values : σ}
    (found : record.body (before.bytes ++ (tree.bytes ++ rest)) = .ok (values, left)) :
    left = rest ∧ record.Holds tree values := by
  obtain ⟨byte, first, begins⟩ := peek_tree before tree rest
  rw [Record.body, bind_ok first] at found
  split at found
  · next open' =>
    obtain ⟨inner, members, rfl⟩ := begins.object open'
    rw [object_append, bind_ok rfl] at found
    exact (members_takes each members found).imp_right (.object inner)
  · split at found
    · next open' =>
      obtain ⟨inner, elements, rfl⟩ := begins.list open'
      rw [list_append, bind_ok rfl] at found
      exact (elements_takes each elements found).imp_right (.list inner)
    · exact absurd found (otherKind_ne_ok _ _)

theorem takes_record (each : ∀ field ∈ record.fields, ∀ values, Takes (field.read values)) :
    Takes record.read := by
  intro before tree rest left value stops found
  obtain ⟨values, read, finish⟩ := Record.read_eq_ok.mp found
  exact (record.body_takes each before read).imp_right (·.accepts finish)

theorem Accepts.holds (accepts : Accepts record.read tree value)
    (each : ∀ field ∈ record.fields, ∀ values, Takes (field.read values)) :
    ∃ values, record.Holds tree values ∧ record.finish values = some value := by
  obtain ⟨values, read, finish⟩ := Record.read_eq_ok.mp (accepts .none stops_nil)
  exact ⟨values, (record.body_takes each .none read).2, finish⟩

end

/-! ## Members and elements -/

def Tree.Has (tree : Tree) (name : String) (value : Tree) : Prop :=
  ∃ inner members member, tree = .object inner members ∧ member ∈ members ∧
    member.name = some name ∧ member.value.value = value

def Tree.Lists (tree element : Tree) : Prop :=
  ∃ inner elements padded, tree = .list inner elements ∧ padded ∈ elements ∧ padded.value = element

/-- One of some names stands for two members of an object. -/
def Tree.Repeats (names : List String) (tree : Tree) : Prop :=
  ∃ inner members, tree = .object inner members ∧
    ∃ name ∈ names, 1 < (members.map Member.name).count (some name)

theorem Takes.split {element : Reader α} (takes : Takes element) {inner : Blanks}
    {front back : List (Padded Tree)} {padded : Padded Tree} {values : List α}
    (accepts : Accepts (Json.list element) (.list inner (front ++ padded :: back)) values) :
    ∃ first value last, values = first ++ value :: last ∧
      List.Forall₂ (fun value padded => Accepts element padded.value value) first front ∧
      Accepts element padded.value value ∧
      List.Forall₂ (fun value padded => Accepts element padded.value value) last back := by
  obtain ⟨_, _, _, same, each⟩ := takes.elements .none (accepts .none stops_nil)
  cases same
  have first := List.forall₂_take_append _ _ _ each
  have later := List.forall₂_drop_append _ _ _ each
  obtain ⟨value, last, own, others, shape⟩ := List.forall₂_cons_right_iff.mp later
  refine ⟨_, value, last, ?_, first, own, others⟩
  rw [← shape, List.take_append_drop]

theorem Takes.of_lists {element : Reader α} (takes : Takes element) {tree part : Tree}
    {values : List α} (accepts : Accepts (Json.list element) tree values)
    (lists : tree.Lists part) : ∃ value, Accepts element part value := by
  obtain ⟨inner, elements, padded, rfl, among, rfl⟩ := lists
  obtain ⟨front, back, rfl⟩ := List.append_of_mem among
  obtain ⟨_, value, _, _, _, own, _⟩ := takes.split accepts
  exact ⟨value, own⟩

theorem Tree.Has.not_null {tree part : Tree} {name : String} (has : tree.Has name part) :
    tree ≠ .null := by
  obtain ⟨_, _, _, rfl, _⟩ := has
  nofun

theorem Tree.Lists.not_null {tree part : Tree} (lists : tree.Lists part) : tree ≠ .null := by
  obtain ⟨_, _, _, rfl, _⟩ := lists
  nofun

theorem Accepts.of_single {named : String → Option (Variant α)} {tree part : Tree} {value : α}
    (accepts : Accepts (variant named) tree value) (each : Contents named) {name : String}
    {entry : Variant α} (known : named name = some entry) (has : tree.Has name part) :
    ∃ value, Accepts entry.content part value := by
  obtain ⟨inner, members, member, rfl, among, own, rfl⟩ := has
  obtain ⟨_, sole, other, entry, rfl, own', known', content⟩ :=
    variant_object each (accepts.bare stops_nil)
  cases List.mem_singleton.mp among
  cases own.symm.trans own'
  cases known.symm.trans known'
  exact ⟨value, content⟩

theorem Gathers.reads {fields : List (Field σ)} {seen : List String}
    {members : List (Member Tree)} {values final : σ}
    (gathers : Gathers fields seen members values final) {member : Member Tree}
    (among : member ∈ members) {name : String} (own : member.name = some name) {field : Field σ}
    (known : fields.find? (·.key = name) = some field) :
    ∃ values next, Accepts (field.read values) member.value.value next := by
  induction gathers with
  | nil => cases among
  | known own' known' _ accepts _ ih =>
    rcases List.mem_cons.mp among with rfl | among
    · cases own.symm.trans own'
      cases known.symm.trans known'
      exact ⟨_, _, accepts⟩
    · exact ih among
  | other own' unknown _ ih =>
    rcases List.mem_cons.mp among with rfl | among
    · cases own.symm.trans own'
      cases known.symm.trans unknown
    · exact ih among

theorem Gathers.once {fields : List (Field σ)} {seen : List String}
    {members : List (Member Tree)} {values final : σ}
    (gathers : Gathers fields seen members values final) (fresh : seen.Nodup) :
    (knownNames (fields.map (·.key)) members ++ seen).Nodup := by
  -- A known name goes from the members over to those seen, which is a permutation.
  induction gathers with
  | nil => exact fresh
  | known own known unseen _ _ ih =>
    have key := List.find?_some known
    have listed := List.mem_map.mpr ⟨_, List.mem_of_find?_eq_some known, of_decide_eq_true key⟩
    rw [knownNames_cons own, if_pos listed]
    exact List.perm_middle.nodup_iff.mp (ih (List.nodup_cons.mpr ⟨unseen, fresh⟩))
  | other own unknown _ ih =>
    rw [knownNames_cons own, if_neg]
    · exact ih fresh
    · intro listed
      obtain ⟨field, among, key⟩ := List.mem_map.mp listed
      exact absurd (decide_eq_true key) (List.find?_eq_none.mp unknown field among)

theorem count_knownNames {names : List String} {name : String} (known : name ∈ names)
    (members : List (Member Tree)) :
    (knownNames names members).count name = (members.map Member.name).count (some name) := by
  have kept : (knownNames names members).count name =
      (members.filterMap Member.name).count name := by
    apply List.count_filter
    exact decide_eq_true known
  rw [kept, List.count_filterMap, List.count_eq_countP, List.countP_map]
  rfl

section

variable {record : Record σ α} {tree part : Tree} {value : α}

theorem Accepts.of_has (accepts : Accepts record.read tree value)
    (each : ∀ field ∈ record.fields, ∀ values, Takes (field.read values)) {name : String}
    (has : tree.Has name part) {field : Field σ}
    (known : record.fields.find? (·.key = name) = some field) :
    ∃ values next, Accepts (field.read values) part next := by
  obtain ⟨inner, members, member, rfl, among, own, rfl⟩ := has
  obtain ⟨values, holds, _⟩ := accepts.holds each
  cases holds with
  | object _ gathers => exact gathers.reads among own known

theorem Accepts.once (accepts : Accepts record.read tree value)
    (each : ∀ field ∈ record.fields, ∀ values, Takes (field.read values)) :
    ¬ tree.Repeats (record.fields.map (·.key)) := by
  rintro ⟨inner, members, rfl, name, known, twice⟩
  obtain ⟨values, holds, _⟩ := accepts.holds each
  cases holds with
  | object _ gathers =>
    have once := gathers.once List.nodup_nil
    rw [List.append_nil] at once
    have single := List.nodup_iff_count_le_one.mp once name
    rw [count_knownNames known] at single
    exact absurd twice (Nat.not_lt.mpr single)

end

end TaskMonitor.Json
