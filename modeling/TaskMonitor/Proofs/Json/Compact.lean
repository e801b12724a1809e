import Mathlib.Data.List.Nodup
import TaskMonitor.Proofs.Json.Layout

/-! Documents as they are written compactly. Among the layouts of a value is its compact form. -/

set_option autoImplicit false

namespace TaskMonitor.Json

open Utf8 (encode_nil encode_cons encode_append)

variable {α : Type}

def Spells (document : Document) (form : Tree → Prop) : Prop :=
  ∃ tree, form tree ∧ tree.bytes = Utf8.encode document.compact

/-! ## Texts and numbers -/

def HexDigit.ofFin (n : Fin 16) : HexDigit :=
  ⟨UInt8.ofNat (hexDigit n).toNat, n, (hexDigit_byte n n.isLt).2⟩

/-- The piece that a character is written as. -/
def Piece.ofChar (c : Char) : Piece :=
  if quotes : c = '"' then .named Token.quote Token.quote rfl
  else if slash : c = '\\' then .named Token.backslash Token.backslash rfl
  else if c.toNat = 0x08 then .named 0x62 0x08 rfl
  else if c.toNat = 0x09 then .named 0x74 0x09 rfl
  else if c.toNat = 0x0A then .named 0x6E 0x0A rfl
  else if c.toNat = 0x0C then .named 0x66 0x0C rfl
  else if c.toNat = 0x0D then .named 0x72 0x0D rfl
  else if small : c.toNat < 0x20 then
    .coded ⟨.ofFin 0, .ofFin 0, .ofFin ⟨c.toNat / 16, by omega⟩, .ofFin ⟨c.toNat % 16, by omega⟩⟩
  else .plain c ⟨quotes, slash, small⟩

def spell (chars : List Char) : List Piece := chars.map Piece.ofChar

theorem Piece.bytes_ofChar (c : Char) : (Piece.ofChar c).bytes = Utf8.encode (escapeChar c) := by
  unfold Piece.ofChar escapeChar
  split_ifs with _ _ _ _ _ _ _ small
  iterate 7 rfl
  · have high := (hexDigit_byte (c.toNat / 16) (by omega)).1
    have low := (hexDigit_byte (c.toNat % 16) (by omega)).1
    simp only [encode_cons, encode_nil, high, low]
    rfl
  · rw [Piece.bytes, encode_cons, encode_nil, List.append_nil]

theorem meaning_ofChar (c : Char) (pieces : List Piece) :
    meaning (Piece.ofChar c :: pieces) = (meaning pieces).map (c :: ·) := by
  have own : ∀ {n : Nat}, c.toNat = n → Char.ofNat n = c := by
    rintro _ rfl
    exact Char.ofNat_toNat c
  unfold Piece.ofChar
  -- The last two: a control character without a name, and one that stands for itself.
  split_ifs with quotes slash back tab line feed ret small
  · rw [quotes]
    rfl
  · rw [slash]
    rfl
  · exact congrArg (fun found => (meaning pieces).map (found :: ·)) (own back)
  · exact congrArg (fun found => (meaning pieces).map (found :: ·)) (own tab)
  · exact congrArg (fun found => (meaning pieces).map (found :: ·)) (own line)
  · exact congrArg (fun found => (meaning pieces).map (found :: ·)) (own feed)
  · exact congrArg (fun found => (meaning pieces).map (found :: ·)) (own ret)
  · have unit : ((0 * 16 + 0) * 16 + c.toNat / 16) * 16 + c.toNat % 16 = c.toNat := by omega
    have alone : isTrailing c.toNat = false ∧ isLeading c.toNat = false := by
      simp only [isTrailing, isLeading, decide_eq_false_iff_not]
      omega
    have value : CodeUnit.value ⟨.ofFin 0, .ofFin 0, .ofFin ⟨c.toNat / 16, by omega⟩,
      .ofFin ⟨c.toNat % 16, by omega⟩⟩ = c.toNat := unit
    rw [meaning.eq_def]
    simp only [value, alone, Bool.false_eq_true, ↓reduceIte, Char.ofNat_toNat]
  · rfl

theorem meaning_spell (chars : List Char) : meaning (spell chars) = some chars := by
  induction chars with
  | nil => rfl
  | cons c chars ih => rw [spell, List.map_cons, meaning_ofChar, ← spell, ih, Option.map_some]

theorem pieceBytes_spell (chars : List Char) :
    pieceBytes (spell chars) = Utf8.encode (chars.flatMap escapeChar) := by
  induction chars with
  | nil => rfl
  | cons c chars ih =>
    rw [List.flatMap_cons, encode_append, ← ih, ← Piece.bytes_ofChar]
    rfl

theorem spells_text (value : String) : Spells (.text value) (TextForm value) := by
  refine ⟨.text (spell value.toList), ⟨_, rfl, meaning_spell _⟩, ?_⟩
  have written := encode_quote value []
  rw [List.append_nil] at written
  rw [Tree.bytes, pieceBytes_spell]
  exact written.symm

theorem spells_integer (value : Int) : Spells (.integer value) (IntegerForm value) := by
  obtain ⟨first, more, spelled⟩ := spelled_digits value.natAbs
  let decimal : Decimal := ⟨decide (value < 0), ⟨first, more, spelled.each⟩, none, none,
    fun zero => (spelled.zero zero).2⟩
  have bytes : decimal.bytes = Utf8.encode (Number.signedDigits value) := by
    have tail : decimal.tail = [] := rfl
    rw [Decimal.bytes, tail, List.append_nil, Number.signedDigits]
    by_cases negative : value < 0
    · rw [if_pos negative, encode_cons, spelled.bytes]
      simp only [decimal, negative]
      rfl
    · rw [if_neg negative, spelled.bytes]
      simp only [decimal, negative]
      rfl
  exact ⟨.number decimal, ⟨decimal, rfl, bytes⟩, bytes⟩

theorem spells_bool (value : Bool) : Spells (.bool value) (· = .bool value) :=
  ⟨.bool value, rfl, by cases value <;> rfl⟩

theorem spells_ofOption {form : α → Tree → Prop} {write : α → Document}
    (each : ∀ value, Spells (write value) (form value)) (value : Option α) :
    Spells (.ofOption write value) (OptionForm form value) := by
  cases value with
  | none => exact ⟨.null, rfl, rfl⟩
  | some value => exact each value

/-! ## Lists and objects -/

theorem encode_comma (first : Bool) :
    Utf8.encode (if first then [] else [',']) = commaBytes first := by
  cases first <;> rfl

theorem spells_list {form : α → Tree → Prop} {write : α → Document} {values : List α}
    (each : ∀ value ∈ values, Spells (write value) (form value)) :
    Spells (.list (values.map write)) (ListForm form values) := by
  have elements : ∃ elements, List.Forall₂ (fun value padded => form value (Padded.value padded))
      values elements ∧ ∀ first, elementBytes first elements =
        Utf8.encode (compactElements first (values.map write)) := by
    induction values with
    | nil => exact ⟨[], .nil, fun _ => rfl⟩
    | cons value values ih =>
      obtain ⟨⟨tree, own, bytes⟩, others⟩ := List.forall_mem_cons.mp each
      obtain ⟨elements, pairs, whole⟩ := ih others
      refine ⟨⟨.none, tree, .none⟩ :: elements, .cons own pairs, fun first => ?_⟩
      rw [elementBytes, bytes, whole, List.map_cons, compactElements, encode_append, encode_append,
        encode_comma, List.append_assoc]
      rfl
  obtain ⟨elements, pairs, bytes⟩ := elements
  refine ⟨.list .none elements, ⟨_, _, rfl, pairs⟩, ?_⟩
  rw [Tree.bytes, bytes, Document.compact, encode_append, encode_cons]
  rfl

/-- The fields of a document, in order, of which some are left out. -/
inductive Covers : List Slot → List (String × Document) → Prop where
  | nil : Covers [] []
  | field {slot : Slot} {slots : List Slot} {document : Document}
      {members : List (String × Document)} : Spells document slot.form → Covers slots members →
      Covers (slot :: slots) ((slot.name, document) :: members)
  | spare {slot : Slot} {slots : List Slot} {members : List (String × Document)} :
      slot.spare → Covers slots members → Covers (slot :: slots) members

def Member.bare (name : String) (tree : Tree) : Member Tree :=
  ⟨⟨.none, spell name.toList, .none⟩, ⟨.none, tree, .none⟩⟩

theorem Member.name_bare (name : String) (tree : Tree) : (bare name tree).name = some name := by
  rw [Member.name, bare, meaning_spell, Option.map_some, String.ofList_toList]

theorem memberBytes_bare {document : Document} {tree : Tree}
    (bytes : tree.bytes = Utf8.encode document.compact) {trees : List (Member Tree)}
    {members : List (String × Document)}
    (rest : memberBytes false trees = Utf8.encode (compactMembers false members)) (first : Bool)
    (name : String) : memberBytes first (.bare name tree :: trees) =
      Utf8.encode (compactMembers first ((name, document) :: members)) := by
  have key := encode_quote name (Token.colon :: (tree.bytes ++ memberBytes false trees))
  rw [compactMembers]
  simp only [encode_append, encode_cons, encode_comma, List.append_assoc, ← bytes, ← rest]
  change _ = commaBytes first ++ (Utf8.encode (quote name) ++
    Token.colon :: (tree.bytes ++ memberBytes false trees))
  rw [key, Member.bare, memberBytes, pieceBytes_spell]
  rfl

theorem object_bytes {trees : List (Member Tree)} {members : List (String × Document)}
    (whole : memberBytes true trees = Utf8.encode (compactMembers true members)) :
    (Tree.object .none trees).bytes = Utf8.encode (Document.object members).compact := by
  rw [Tree.bytes, whole, Document.compact, encode_append, encode_cons]
  rfl

theorem spells_wraps {document : Document} {form : Tree → Prop} (name : String)
    (inside : Spells document form) :
    Spells (.object [(name, document)]) (Tree.Wraps name form) := by
  obtain ⟨tree, own, bytes⟩ := inside
  refine ⟨.object .none [.bare name tree], ⟨_, _, rfl, Member.name_bare name tree, own⟩, ?_⟩
  exact object_bytes (memberBytes_bare bytes rfl true name)

theorem Covers.members {slots : List Slot} {members : List (String × Document)}
    (covers : Covers slots members) : ∃ trees : List (Member Tree),
      (∀ first, memberBytes first trees = Utf8.encode (compactMembers first members)) ∧
      (trees.filterMap Member.name).Sublist (slots.map (·.name)) ∧
      (∀ tree ∈ trees, ∃ slot ∈ slots, tree.name = some slot.name ∧ slot.form tree.value.value) ∧
      ∀ slot ∈ slots, slot.spare ∨ ∃ tree ∈ trees, tree.name = some slot.name := by
  -- A member for each document; a slot that is passed over asks for none.
  induction covers with
  | nil => exact ⟨[], fun _ => rfl, .slnil, by simp, by simp⟩
  | @field slot slots document members spells _ ih =>
    obtain ⟨tree, form, bytes⟩ := spells
    obtain ⟨trees, whole, names, fits, full⟩ := ih
    have own := Member.name_bare slot.name tree
    refine ⟨.bare slot.name tree :: trees, ?_, ?_, ?_, ?_⟩
    · exact fun first => memberBytes_bare bytes (whole false) first slot.name
    · rw [List.filterMap_cons_some own]
      exact names.cons_cons _
    · refine List.forall_mem_cons.mpr ⟨⟨slot, List.mem_cons_self, own, form⟩, ?_⟩
      intro other among
      obtain ⟨slot, present, fit⟩ := fits other among
      exact ⟨slot, List.mem_cons_of_mem _ present, fit⟩
    · refine List.forall_mem_cons.mpr ⟨.inr ⟨_, List.mem_cons_self, own⟩, ?_⟩
      intro other among
      refine (full other among).imp_right ?_
      rintro ⟨member, present, named⟩
      exact ⟨member, List.mem_cons_of_mem _ present, named⟩
  | @spare slot slots members spare _ ih =>
    obtain ⟨trees, whole, names, fits, full⟩ := ih
    refine ⟨trees, whole, names.cons _, ?_, List.forall_mem_cons.mpr ⟨.inl spare, full⟩⟩
    intro other among
    obtain ⟨slot, present, fit⟩ := fits other among
    exact ⟨slot, List.mem_cons_of_mem _ present, fit⟩

theorem Covers.spells {slots : List Slot} {members : List (String × Document)}
    (covers : Covers slots members) (distinct : (slots.map (·.name)).Nodup) :
    Spells (.object members) (Tree.Fills slots) := by
  obtain ⟨trees, whole, names, fits, full⟩ := covers.members
  refine ⟨.object .none trees, ⟨_, _, rfl, ⟨?_, ?_⟩, full⟩, object_bytes (whole true)⟩
  · intro member among
    obtain ⟨slot, present, own, form⟩ := fits member among
    refine .of own fun other known named => ?_
    exact List.inj_on_of_nodup_map distinct known present named ▸ form
  · exact (names.nodup distinct).filter _

end TaskMonitor.Json
