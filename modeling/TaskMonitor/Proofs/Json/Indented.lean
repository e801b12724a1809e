import TaskMonitor.Proofs.Json.Compact

/-! Documents as they are written with line breaks. Among the layouts of a value is its indented
form, whatever depth it stands at. -/

set_option autoImplicit false

namespace TaskMonitor.Json

open Utf8 (encode_nil encode_cons encode_append)

variable {α : Type} {depth : Nat}

/-- The form of a document inside `depth` open brackets is that of a tree in some form. -/
def Indents (depth : Nat) (document : Document) (form : Tree → Prop) : Prop :=
  ∃ tree, form tree ∧ tree.bytes = Utf8.encode (document.prettyAt depth)

/-! ## Texts and numbers -/

theorem indents_text (value : String) : Indents depth (.text value) (TextForm value) :=
  spells_text value

theorem indents_integer (value : Int) : Indents depth (.integer value) (IntegerForm value) :=
  spells_integer value

theorem indents_null : Indents depth .null (· = .null) := ⟨.null, rfl, rfl⟩

/-! ## Blanks -/

def Blanks.line (depth : Nat) : Blanks where
  bytes := 0x0A :: List.replicate (2 * depth) 0x20
  blank := by
    refine List.forall_mem_cons.mpr ⟨rfl, fun byte member => ?_⟩
    rw [List.eq_of_mem_replicate member]
    rfl

theorem encode_newLine (depth : Nat) : Utf8.encode (newLine depth) = (Blanks.line depth).bytes := by
  have blanks : ∀ count, Utf8.encode (List.replicate count ' ') = List.replicate count 0x20 := by
    intro count
    induction count with
    | zero => rfl
    | succ count ih =>
      rw [List.replicate_succ, encode_cons, ih]
      rfl
  rw [newLine, encode_cons, blanks]
  rfl

theorem blank_space : ∀ byte ∈ [0x20], isBlank byte := List.forall_mem_singleton.mpr rfl

def Blanks.space : Blanks := ⟨[0x20], blank_space⟩

/-! ## Lists -/

theorem prettyElements_cons (first : Bool) (element : Document) (rest : List Document) :
    prettyElements depth first (element :: rest) =
      prettyElements depth first [element] ++ prettyElements depth false rest := by
  simp [prettyElements]

/-- An element on a line of its own, with the blanks behind it. -/
theorem elementBytes_line {document : Document} {tree : Tree}
    (bytes : tree.bytes = Utf8.encode (document.prettyAt depth)) (after : Blanks)
    (elements : List (Padded Tree)) (first : Bool) :
    elementBytes first (⟨.line depth, tree, after⟩ :: elements) =
      Utf8.encode (prettyElements depth first [document]) ++
        (after.bytes ++ elementBytes false elements) := by
  simp only [elementBytes, prettyElements, bytes, encode_append, encode_comma, encode_newLine,
    encode_nil, List.append_assoc, List.nil_append]

theorem indented_elements {form : α → Tree → Prop} {write : α → Document} {values : List α}
    (some : values ≠ [])
    (each : ∀ value ∈ values, Indents (depth + 1) (write value) (form value)) :
    ∃ elements, List.Forall₂ (fun value padded => form value (Padded.value padded))
      values elements ∧ ∀ first, elementBytes first elements =
        Utf8.encode (prettyElements (depth + 1) first (values.map write) ++ newLine depth) := by
  -- Only the last element has blanks behind it, so a single one is the base of the induction.
  induction values with
  | nil => exact absurd rfl some
  | cons value values ih =>
    obtain ⟨⟨tree, own, bytes⟩, others⟩ := List.forall_mem_cons.mp each
    by_cases last : values = []
    · subst last
      refine ⟨[⟨.line (depth + 1), tree, .line depth⟩], .cons own .nil, fun first => ?_⟩
      rw [elementBytes_line bytes, elementBytes, List.append_nil, ← encode_newLine, ← encode_append]
      rfl
    · obtain ⟨elements, pairs, whole⟩ := ih last others
      refine ⟨⟨.line (depth + 1), tree, .none⟩ :: elements, .cons own pairs, fun first => ?_⟩
      rw [elementBytes_line bytes, whole, List.map_cons,
        prettyElements_cons first _ (values.map write)]
      simp only [encode_append, List.append_assoc]
      rfl

theorem indents_list {form : α → Tree → Prop} {write : α → Document} {values : List α}
    (each : ∀ value ∈ values, Indents (depth + 1) (write value) (form value)) :
    Indents depth (.list (values.map write)) (ListForm form values) := by
  cases values with
  | nil => exact ⟨.list .none [], ⟨_, _, rfl, .nil⟩, rfl⟩
  | cons value values =>
    obtain ⟨elements, pairs, bytes⟩ := indented_elements (List.cons_ne_nil _ _) each
    refine ⟨.list .none elements, ⟨_, _, rfl, pairs⟩, ?_⟩
    simp only [Tree.bytes, bytes, List.map_cons, Document.prettyAt, encode_append, encode_cons,
      List.append_assoc, List.cons_append]
    rfl

/-! ## Objects -/

theorem prettyMembers_cons (first : Bool) (member : String × Document)
    (rest : List (String × Document)) :
    prettyMembers depth first (member :: rest) =
      prettyMembers depth first [member] ++ prettyMembers depth false rest := by
  obtain ⟨name, document⟩ := member
  simp [prettyMembers]

def Member.lined (depth : Nat) (name : String) (tree : Tree) (after : Blanks) : Member Tree :=
  ⟨⟨.line depth, spell name.toList, .none⟩, ⟨.space, tree, after⟩⟩

theorem Member.name_lined (name : String) (tree : Tree) (after : Blanks) :
    (lined depth name tree after).name = some name := by
  rw [Member.name, lined, meaning_spell, Option.map_some, String.ofList_toList]

theorem memberBytes_lined {document : Document} {tree : Tree}
    (bytes : tree.bytes = Utf8.encode (document.prettyAt depth)) (name : String) (after : Blanks)
    (trees : List (Member Tree)) (first : Bool) :
    memberBytes first (.lined depth name tree after :: trees) =
      Utf8.encode (prettyMembers depth first [(name, document)]) ++
        (after.bytes ++ memberBytes false trees) := by
  have key := encode_quote name
    (Token.colon :: 0x20 :: (tree.bytes ++ (after.bytes ++ memberBytes false trees)))
  simp only [prettyMembers, encode_append, encode_cons, encode_comma, encode_newLine,
    List.append_assoc, ← bytes]
  change _ = commaBytes first ++ ((Blanks.line depth).bytes ++ (Utf8.encode (quote name) ++
    Token.colon :: 0x20 :: (tree.bytes ++ (after.bytes ++ memberBytes false trees))))
  rw [key, Member.lined, memberBytes, pieceBytes_spell]
  rfl

/-- The members, with the line break before the closing brace behind the last of them. -/
theorem indented_members {form : String → Tree → Prop} {members : List (String × Document)}
    (some : members ≠ [])
    (each : ∀ member ∈ members, Indents (depth + 1) member.2 (form member.1)) :
    ∃ trees : List (Member Tree), List.Forall₂ (fun member tree =>
      Member.name tree = Option.some member.1 ∧ form member.1 tree.value.value) members trees ∧
      ∀ first, memberBytes first trees =
        Utf8.encode (prettyMembers (depth + 1) first members ++ newLine depth) := by
  induction members with
  | nil => exact absurd rfl some
  | cons member members ih =>
    obtain ⟨name, document⟩ := member
    obtain ⟨⟨tree, own, bytes⟩, others⟩ := List.forall_mem_cons.mp each
    by_cases last : members = []
    · subst last
      refine ⟨[.lined (depth + 1) name tree (.line depth)],
        .cons ⟨Member.name_lined _ _ _, own⟩ .nil, fun first => ?_⟩
      rw [memberBytes_lined bytes, memberBytes, List.append_nil, ← encode_newLine, ← encode_append]
    · obtain ⟨trees, pairs, whole⟩ := ih last others
      refine ⟨.lined (depth + 1) name tree .none :: trees,
        .cons ⟨Member.name_lined _ _ _, own⟩ pairs, fun first => ?_⟩
      rw [memberBytes_lined bytes, whole, prettyMembers_cons first _ members]
      simp only [encode_append, List.append_assoc]
      rfl

def Suits (slots : List Slot) (name : String) (tree : Tree) : Prop :=
  ∀ slot ∈ slots, slot.name = name → slot.form tree

theorem Indents.suits {document : Document} {form : Tree → Prop} {slots : List Slot} {name : String}
    (indents : Indents depth document form)
    (own : ∀ slot ∈ slots, slot.name = name → slot.form = form) :
    Indents depth document (Suits slots name) := by
  obtain ⟨tree, fits, bytes⟩ := indents
  exact ⟨tree, fun slot among same => own slot among same ▸ fits, bytes⟩

theorem names_of_pairs {form : String → Tree → Prop} {members : List (String × Document)}
    {trees : List (Member Tree)} (pairs : List.Forall₂ (fun member tree =>
      Member.name tree = some member.1 ∧ form member.1 tree.value.value) members trees) :
    trees.filterMap Member.name = members.map Prod.fst ∧ ∀ tree ∈ trees, ∃ name,
      tree.name = some name ∧ form name tree.value.value := by
  induction pairs with
  | nil => exact ⟨rfl, by simp⟩
  | cons pair _ ih =>
    refine ⟨?_, List.forall_mem_cons.mpr ⟨⟨_, pair⟩, ih.2⟩⟩
    rw [List.filterMap_cons_some pair.1, ih.1, List.map_cons]

/-- An object fills slots if it has a member for each that may not be left out, and no name
twice. -/
theorem indents_object {slots : List Slot} {members : List (String × Document)}
    (each : ∀ member ∈ members, Indents (depth + 1) member.2 (Suits slots member.1))
    (distinct : (members.map Prod.fst).Nodup)
    (full : ∀ slot ∈ slots, slot.spare ∨ slot.name ∈ members.map Prod.fst) :
    Indents depth (.object members) (Tree.Fills slots) := by
  suffices ∃ trees : List (Member Tree), List.Forall₂ (fun member tree =>
      Member.name tree = some member.1 ∧ Suits slots member.1 tree.value.value) members trees ∧
      (Tree.object .none trees).bytes = Utf8.encode ((Document.object members).prettyAt depth) by
    obtain ⟨trees, pairs, bytes⟩ := this
    obtain ⟨names, fits⟩ := names_of_pairs pairs
    refine ⟨_, ⟨_, trees, rfl, ⟨?_, (names ▸ distinct).filter _⟩, ?_⟩, bytes⟩
    · intro tree among
      obtain ⟨name, own, suits⟩ := fits tree among
      exact .of own suits
    · intro slot among
      refine (full slot among).imp_right fun listed => ?_
      rw [← names] at listed
      exact List.mem_filterMap.mp listed
  cases members with
  | nil => exact ⟨[], .nil, rfl⟩
  | cons member members =>
    obtain ⟨trees, pairs, bytes⟩ := indented_members (List.cons_ne_nil _ _) each
    refine ⟨trees, pairs, ?_⟩
    simp only [Tree.bytes, bytes, Document.prettyAt, encode_append, encode_cons, List.append_assoc,
      List.cons_append]
    rfl

end TaskMonitor.Json
