import TaskMonitor.Proofs.Json.Written

/-! Lists, records and variants are read back if their parts are. -/

set_option autoImplicit false

namespace TaskMonitor.Json

open Utf8 (encode_nil encode_cons encode_append)

variable {σ α : Type}

def comma (first : Bool) : List Char := if first then [] else [',']

theorem separator_comma {byte close : Byte} (solid : ¬ isBlank byte) (other : byte ≠ close)
    (first : Bool) (more : Bytes) :
    separator close first (Utf8.encode (comma first) ++ byte :: more) =
      .ok ((), byte :: more) := by
  cases first with
  | true => rfl
  | false =>
    change (expect Token.comma >>= _) (Token.comma :: byte :: more) = _
    rw [bind_ok (expect_cons (by decide) _), bind_ok (peek_cons solid more), if_neg other]
    rfl

theorem peek_comma (byte close : Byte) (solid : ¬ isBlank byte) (other : byte ≠ close)
    (noComma : Token.comma ≠ close) (first : Bool) (more : Bytes) :
    ∃ next, peek (Utf8.encode (comma first) ++ byte :: more) =
      .ok (next, Utf8.encode (comma first) ++ byte :: more) ∧ next ≠ close := by
  cases first with
  | true => exact ⟨byte, peek_cons solid more, other⟩
  | false => exact ⟨Token.comma, peek_cons (by decide) (byte :: more), noComma⟩

/-! ## Lists -/

theorem stops_elements (documents : List Document) (rest : Bytes) :
    Stops (Utf8.encode (compactElements false documents) ++ Token.closeList :: rest) := by
  cases documents with
  | nil => exact stops_cons (.inr (.inl rfl)) rest
  | cons document documents => exact stops_cons (.inl rfl) _

theorem length_elements {documents : List Document} (opens : ∀ document ∈ documents, Opens document)
    (first : Bool) :
    documents.length ≤ (Utf8.encode (compactElements first documents)).length := by
  induction documents generalizing first with
  | nil => exact Nat.zero_le _
  | cons document documents ih =>
    obtain ⟨byte, more, bytes, _⟩ := opens document List.mem_cons_self
    have others := ih (fun other member => opens other (List.mem_cons_of_mem _ member)) false
    rw [compactElements, encode_append, encode_append, bytes]
    simp only [List.length_append, List.length_cons]
    omega

theorem elementsOnto_written {element : Reader α} {write : α → Document} {values : List α}
    (each : ∀ value ∈ values, Opens (write value) ∧ Reads element (write value) value)
    {fuel : Nat} (enough : values.length < fuel) (seen : List α) (rest : Bytes) :
    elementsOnto element fuel seen (Utf8.encode (compactElements seen.isEmpty (values.map write)) ++
      Token.closeList :: rest) = .ok (seen.reverse ++ values, rest) := by
  -- On the values, with those read before them in `seen`: only the first has no comma.
  induction values generalizing fuel seen with
  | nil =>
    obtain ⟨fuel, rfl⟩ := Nat.exists_eq_succ_of_ne_zero (Nat.ne_of_gt enough)
    change elementsOnto element (fuel + 1) seen (Token.closeList :: rest) = _
    rw [elementsOnto, bind_ok (peek_cons (by decide) rest), if_pos rfl, List.append_nil]
    rfl
  | cons value values ih =>
    obtain ⟨fuel, rfl⟩ := Nat.exists_eq_succ_of_ne_zero (Nat.ne_of_gt (Nat.zero_lt_of_lt enough))
    obtain ⟨⟨byte, more, bytes, solid, _, open'⟩, reads⟩ := each value List.mem_cons_self
    have later := ih (fun other member => each other (List.mem_cons_of_mem _ member))
      (Nat.lt_of_succ_lt_succ enough) (value :: seen)
    have found := reads _ (stops_elements (values.map write) rest)
    rw [List.map_cons, compactElements, ← comma, encode_append, encode_append, List.append_assoc,
      List.append_assoc]
    rw [bytes, List.cons_append] at found ⊢
    obtain ⟨next, peeked, other⟩ := peek_comma byte Token.closeList solid open' (by decide)
      seen.isEmpty (more ++
        (Utf8.encode (compactElements false (values.map write)) ++ Token.closeList :: rest))
    rw [elementsOnto, bind_ok peeked, if_neg other, bind_ok (separator_comma solid open' _ _),
      bind_ok found]
    rw [List.isEmpty_cons] at later
    rw [later, List.reverse_cons, List.append_assoc, List.singleton_append]

theorem reads_list {element : Reader α} {write : α → Document} {values : List α}
    (each : ∀ value ∈ values, Opens (write value) ∧ Reads element (write value) value) :
    Reads (list element) (.list (values.map write)) values := by
  intro rest _
  have opens : ∀ document ∈ values.map write, Opens document := by
    intro document member
    obtain ⟨value, among, rfl⟩ := List.mem_map.mp member
    exact (each value among).1
  have many := length_elements opens true
  rw [List.length_map] at many
  have whole : Utf8.encode (Document.list (values.map write)).compact ++ rest =
      Token.openList ::
        (Utf8.encode (compactElements true (values.map write)) ++ Token.closeList :: rest) := by
    rw [Document.compact, encode_append, encode_cons, List.append_assoc, List.append_assoc]
    rfl
  rw [whole, list, bind_ok (peek_cons (by decide) _), if_pos rfl, bind_ok rfl]
  refine elementsOnto_written each ?_ [] rest
  simp only [List.tail_cons, List.length_append, List.length_cons]
  omega

/-! ## Records -/

def Document.members : Document → List (String × Document)
  | .object members => members
  | _ => []

/-- The members of an object are the first ones of the fields, each with a value for it. -/
inductive Fills : List (Field σ) → σ → List (String × Document) → σ → Prop where
  | done {fields : List (Field σ)} {values : σ} : Fills fields values [] values
  | field {field : Field σ} {fields : List (Field σ)} {values next final : σ}
      {document : Document} {members : List (String × Document)} :
      Reads (field.read values) document next → Fills fields next members final →
      Fills (field :: fields) values ((field.key, document) :: members) final

theorem find?_distinct {front fields : List (Field σ)} {field : Field σ}
    (distinct : ((front ++ field :: fields).map (·.key)).Nodup) :
    field.key ∉ front.map (·.key) ∧
      (front ++ field :: fields).find? (·.key = field.key) = some field := by
  rw [List.map_append, List.map_cons, List.nodup_append] at distinct
  have fresh : field.key ∉ front.map (·.key) := fun among =>
    distinct.2.2 _ among _ List.mem_cons_self rfl
  refine ⟨fresh, List.find?_eq_some_iff_append.mpr ⟨by simp, front, fields, rfl, ?_⟩⟩
  intro other member
  have unlike : other.key ≠ field.key := fun same =>
    fresh (List.mem_map.mpr ⟨other, member, same⟩)
  simpa using unlike

theorem stops_members (members : List (String × Document)) (rest : Bytes) :
    Stops (Utf8.encode (compactMembers false members) ++ Token.closeObject :: rest) := by
  cases members with
  | nil => exact stops_cons (.inr (.inr rfl)) rest
  | cons member members => exact stops_cons (.inl rfl) _

theorem length_members (members : List (String × Document)) (first : Bool) :
    members.length ≤ (Utf8.encode (compactMembers first members)).length := by
  induction members generalizing first with
  | nil => exact Nat.zero_le _
  | cons member members ih =>
    have others := ih false
    rw [compactMembers, quote]
    simp only [List.cons_append, List.append_assoc, encode_append, encode_cons, List.length_append,
      String.length_utf8EncodeChar, List.length_cons]
    have colon : ':'.utf8Size = 1 := by decide
    omega

theorem members_written (front : List (Field σ)) {fields : List (Field σ)} {values final : σ}
    {members : List (String × Document)} (fills : Fills fields values members final)
    (distinct : ((front ++ fields).map (·.key)).Nodup) (seen : List String)
    (before : ∀ key ∈ seen, key ∈ front.map (·.key)) {fuel : Nat} (enough : members.length < fuel)
    (first : Bool) (rest : Bytes) :
    Record.members (front ++ fields) fuel first seen values
      (Utf8.encode (compactMembers first members) ++ Token.closeObject :: rest) =
        .ok (final, rest) := by
  -- Fields that are read move from `fields` to `front`, and only their keys have been seen.
  induction fills generalizing front seen fuel first with
  | done =>
    obtain ⟨fuel, rfl⟩ := Nat.exists_eq_succ_of_ne_zero (Nat.ne_of_gt enough)
    change Record.members _ (fuel + 1) _ _ _ (Token.closeObject :: rest) = _
    rw [Record.members, bind_ok (peek_cons (by decide) rest), if_pos rfl]
    rfl
  | @field field fields values next final document members reads _ ih =>
    obtain ⟨fuel, rfl⟩ := Nat.exists_eq_succ_of_ne_zero (Nat.ne_of_gt (Nat.zero_lt_of_lt enough))
    obtain ⟨apart, known⟩ := find?_distinct distinct
    have fresh : field.key ∉ seen := fun among => apart (before _ among)
    have split : front ++ field :: fields = front ++ [field] ++ fields := by simp
    have later := ih (front ++ [field]) (split ▸ distinct) (field.key :: seen)
      (by
        intro key member
        rw [List.map_append, List.mem_append]
        rcases List.mem_cons.mp member with rfl | among
        · exact .inr List.mem_cons_self
        · exact .inl (before key among))
      (Nat.lt_of_succ_lt_succ enough) false
    have found := reads _ (stops_members members rest)
    have whole : Utf8.encode (compactMembers first ((field.key, document) :: members)) ++
        Token.closeObject :: rest = Utf8.encode (comma first) ++ Token.quote ::
          (Utf8.encode (field.key.toList.flatMap escapeChar) ++ Token.quote :: Token.colon ::
            (Utf8.encode document.compact ++
              (Utf8.encode (compactMembers false members) ++ Token.closeObject :: rest))) := by
      rw [← encode_quote, compactMembers, ← comma]
      simp only [encode_append, encode_cons, List.append_assoc]
      rfl
    rw [whole]
    -- The value and what follows it are now read as one.
    generalize Utf8.encode document.compact ++ _ = more at found
    obtain ⟨next, peeked, other⟩ := peek_comma Token.quote Token.closeObject (by decide) (by decide)
      (by decide) first
      (Utf8.encode (field.key.toList.flatMap escapeChar) ++ Token.quote :: Token.colon :: more)
    rw [Record.members, bind_ok peeked, if_neg other,
      bind_ok (separator_comma (by decide) (by decide) _ _), bind_ok (expect_cons (by decide) _),
      bind_ok (quoted_quote field.key _)]
    simp only [known, fresh, ↓reduceIte]
    rw [bind_ok (expect_cons (by decide) _), bind_ok found, split]
    exact later

theorem reads_record (record : Record σ α) {members : List (String × Document)} (final : σ)
    {value : α} (distinct : (record.fields.map (·.key)).Nodup)
    (fills : Fills record.fields record.start members final)
    (finish : record.finish final = some value) :
    Reads record.read (.object members) value := by
  intro rest _
  have many := length_members members true
  have whole : Utf8.encode (Document.object members).compact ++ rest =
      Token.openObject ::
        (Utf8.encode (compactMembers true members) ++ Token.closeObject :: rest) := by
    rw [Document.compact, encode_append, encode_cons, List.append_assoc, List.append_assoc]
    rfl
  have body : record.body (Utf8.encode (Document.object members).compact ++ rest) =
      .ok (final, rest) := by
    rw [whole, Record.body, bind_ok (peek_cons (by decide) _), if_pos rfl, bind_ok rfl]
    refine members_written [] fills distinct [] ?_ ?_ true rest
    · intro key among
      cases among
    simp only [List.tail_cons, List.length_append, List.length_cons]
    omega
  rw [Record.read, bind_ok body, finish]
  rfl

theorem opens_object (members : List (String × Document)) : Opens (.object members) :=
  ⟨Token.openObject, _, rfl, by decide, by decide, by decide⟩

theorem opens_list (documents : List Document) : Opens (.list documents) :=
  ⟨Token.openList, _, rfl, by decide, by decide, by decide⟩

/-! ## Variants -/

theorem reads_bare {named : String → Option (Variant α)} {name : String} {value : α}
    {content : Reader α} (known : named name = some ⟨some value, content⟩) :
    Reads (variant named) (.text name) value := by
  intro rest stops
  change variant named (Utf8.encode (quote name) ++ rest) = _
  have found := text_quote name rest
  rw [encode_quote] at found ⊢
  rw [variant, bind_ok (peek_cons (by decide) _), if_neg (by decide), if_pos rfl, bind_ok found,
    known]
  rfl

theorem reads_variant {named : String → Option (Variant α)} {name : String} {entry : Variant α}
    {document : Document} {value : α} (known : named name = some entry)
    (reads : Reads entry.content document value) :
    Reads (variant named) (.object [(name, document)]) value := by
  intro rest _
  have whole : Utf8.encode (Document.object [(name, document)]).compact ++ rest =
      Token.openObject :: (Utf8.encode (quote name) ++ Token.colon ::
        (Utf8.encode document.compact ++ Token.closeObject :: rest)) := by
    rw [Document.compact, compactMembers, compactMembers]
    simp only [↓reduceIte, List.nil_append, encode_append, encode_cons, encode_nil,
      List.append_assoc, List.append_nil]
    rfl
  rw [whole, variant, bind_ok (peek_cons (by decide) _), if_pos rfl, bind_ok rfl]
  change (text >>= _) (Utf8.encode (quote name) ++ _) = _
  rw [bind_ok (text_quote name _), known]
  change (expect Token.colon >>= _) _ = _
  rw [bind_ok (expect_cons (by decide) _), bind_ok (reads _ (stops_cons (.inr (.inr rfl)) rest)),
    bind_ok (expect_cons (by decide) rest)]
  rfl

end TaskMonitor.Json
