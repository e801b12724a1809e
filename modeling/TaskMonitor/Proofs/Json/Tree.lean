import TaskMonitor.Json.Ignored
import TaskMonitor.Proofs.Json.Token

/-! JSON texts as trees of their tokens, blanks included, and the values that are passed over. Just
the bytes of a tree are passed over, whatever its depth. -/

set_option autoImplicit false

namespace TaskMonitor.Json

structure Padded (α : Type) where
  before : Blanks
  value : α
  after : Blanks

structure Member (α : Type) where
  key : Padded (List Piece)
  value : Padded α

inductive Tree where
  | null
  | bool (value : Bool)
  | number (decimal : Decimal)
  | text (pieces : List Piece)
  | list (inner : Blanks) (elements : List (Padded Tree))
  | object (inner : Blanks) (members : List (Member Tree))

def commaBytes (first : Bool) : Bytes := if first then [] else [Token.comma]

mutual

def Tree.bytes : Tree → Bytes
  | .null => null
  | .bool value => if value then yes else no
  | .number decimal => decimal.bytes
  | .text pieces => Token.quote :: (pieceBytes pieces ++ [Token.quote])
  | .list inner elements =>
    Token.openList :: (inner.bytes ++ (elementBytes true elements ++ [Token.closeList]))
  | .object inner members =>
    Token.openObject :: (inner.bytes ++ (memberBytes true members ++ [Token.closeObject]))

def elementBytes (first : Bool) : List (Padded Tree) → Bytes
  | [] => []
  | ⟨before, tree, after⟩ :: rest =>
    commaBytes first ++ (before.bytes ++ (tree.bytes ++ (after.bytes ++ elementBytes false rest)))

def memberBytes (first : Bool) : List (Member Tree) → Bytes
  | [] => []
  | ⟨⟨before, key, after⟩, ⟨inner, tree, outer⟩⟩ :: rest =>
    commaBytes first ++ (before.bytes ++ Token.quote :: (pieceBytes key ++ Token.quote ::
      (after.bytes ++ Token.colon :: (inner.bytes ++ (tree.bytes ++ (outer.bytes ++
        memberBytes false rest))))))

end

/-- The unescaped key of a member, if its pieces stand for one. -/
def Member.name (member : Member Tree) : Option String :=
  (meaning member.key.value).map String.ofList

theorem decimal_head (decimal : Decimal) : ∃ byte more, decimal.bytes = byte :: more ∧
    (byte = Token.minus ∨ isDigit byte) := by
  cases sign : decimal.negative with
  | true => exact ⟨Token.minus, _, by rw [Decimal.bytes, sign]; rfl, .inl rfl⟩
  | false =>
    exact ⟨decimal.whole.first, _, by rw [Decimal.bytes, sign]; rfl,
      .inr (decimal.whole.each _ List.mem_cons_self)⟩

theorem tree_head (tree : Tree) : ∃ byte more, tree.bytes = byte :: more ∧ ¬ isBlank byte ∧
    byte ≠ Token.closeList ∧ (byte = 0x6E → tree = .null) := by
  cases tree with
  | null => exact ⟨0x6E, _, rfl, by decide, by decide, fun _ => rfl⟩
  | bool value =>
    cases value with
    | true => exact ⟨0x74, _, rfl, by decide, by decide, fun same => absurd same (by decide)⟩
    | false => exact ⟨0x66, _, rfl, by decide, by decide, fun same => absurd same (by decide)⟩
  | number decimal =>
    obtain ⟨byte, more, bytes, starts⟩ := decimal_head decimal
    obtain ⟨solid, some, open'⟩ := opening_numeral starts
    exact ⟨byte, more, bytes, solid, open', fun same => absurd same some⟩
  | text pieces =>
    exact ⟨Token.quote, _, rfl, by decide, by decide, fun same => absurd same (by decide)⟩
  | list inner elements =>
    exact ⟨Token.openList, _, rfl, by decide, by decide, fun same => absurd same (by decide)⟩
  | object inner members =>
    exact ⟨Token.openObject, _, rfl, by decide, by decide, fun same => absurd same (by decide)⟩

/-! What stands in brackets, and what follows the tree. -/

theorem text_append (pieces : List Piece) (rest : Bytes) :
    (Tree.text pieces).bytes ++ rest =
      Token.quote :: (pieceBytes pieces ++ Token.quote :: rest) := by
  rw [Tree.bytes, List.cons_append, List.append_assoc]
  rfl

theorem list_append (inner : Blanks) (elements : List (Padded Tree)) (rest : Bytes) :
    (Tree.list inner elements).bytes ++ rest = Token.openList ::
      (inner.bytes ++ (elementBytes true elements ++ Token.closeList :: rest)) := by
  rw [Tree.bytes, List.cons_append, List.append_assoc, List.append_assoc]
  rfl

theorem object_append (inner : Blanks) (members : List (Member Tree)) (rest : Bytes) :
    (Tree.object inner members).bytes ++ rest = Token.openObject ::
      (inner.bytes ++ (memberBytes true members ++ Token.closeObject :: rest)) := by
  rw [Tree.bytes, List.cons_append, List.append_assoc, List.append_assoc]
  rfl

theorem stops_elementBytes (elements : List (Padded Tree)) (rest : Bytes) :
    Stops (elementBytes false elements ++ Token.closeList :: rest) := by
  cases elements with
  | nil => exact stops_cons (.inr (.inl rfl)) rest
  | cons element elements => exact stops_cons (.inl rfl) _

theorem stops_memberBytes (members : List (Member Tree)) (rest : Bytes) :
    Stops (memberBytes false members ++ Token.closeObject :: rest) := by
  cases members with
  | nil => exact stops_cons (.inr (.inr rfl)) rest
  | cons member members => exact stops_cons (.inl rfl) _

/-! ## Passing over a tree -/

mutual

def Tree.steps : Tree → Nat
  | .list _ elements => elementSteps elements + 2
  | .object _ members => memberSteps members + 2
  | _ => 1

def elementSteps : List (Padded Tree) → Nat
  | [] => 0
  | ⟨_, tree, _⟩ :: rest => elementSteps rest + (tree.steps + 1)

def memberSteps : List (Member Tree) → Nat
  | [] => 0
  | ⟨_, ⟨_, tree, _⟩⟩ :: rest => memberSteps rest + (tree.steps + 1)

end

mutual

theorem Tree.steps_le : (tree : Tree) → tree.steps ≤ 2 * tree.bytes.length
  | .null => by decide
  | .bool value => by cases value <;> decide
  | .number decimal => by
    obtain ⟨byte, more, bytes, _⟩ := decimal_head decimal
    simp only [Tree.steps, Tree.bytes, bytes, List.length_cons]
    omega
  | .text pieces => by
    simp only [Tree.steps, Tree.bytes, List.length_cons]
    omega
  | .list inner elements => by
    have few := elementSteps_le true elements
    simp only [Tree.steps, Tree.bytes, List.length_append, List.length_cons]
    omega
  | .object inner members => by
    have few := memberSteps_le true members
    simp only [Tree.steps, Tree.bytes, List.length_append, List.length_cons]
    omega

theorem elementSteps_le (first : Bool) : (elements : List (Padded Tree)) →
    elementSteps elements + 2 * (commaBytes first).length ≤
      2 * (elementBytes first elements).length + 2
  | [] => by cases first <;> decide
  | ⟨before, tree, after⟩ :: rest => by
    have own := tree.steps_le
    have others := elementSteps_le false rest
    have comma : (commaBytes false).length = 1 := rfl
    simp only [elementSteps, elementBytes, List.length_append]
    omega

theorem memberSteps_le (first : Bool) : (members : List (Member Tree)) →
    memberSteps members + 2 * (commaBytes first).length ≤
      2 * (memberBytes first members).length + 2
  | [] => by cases first <;> decide
  | ⟨⟨before, key, after⟩, ⟨inner, tree, outer⟩⟩ :: rest => by
    have own := tree.steps_le
    have others := memberSteps_le false rest
    have comma : (commaBytes false).length = 1 := rfl
    simp only [memberSteps, memberBytes, List.length_append, List.length_cons]
    omega

end

theorem skipBlanks_solid (before : Blanks) {byte : Byte} (solid : ¬ isBlank byte) (rest : Bytes) :
    skipBlanks (before.bytes ++ byte :: rest) = byte :: rest := by
  rw [skipBlanks_blanks, skipBlanks, List.dropWhile_cons_of_neg solid]

theorem passScalar_word (word : Bytes) {letters : Bytes} {first : Byte}
    (shape : word = first :: letters) (rest : Bytes) :
    (literal word (first :: (letters ++ rest))).map Prod.snd = .ok rest := by
  rw [← List.cons_append, ← shape, literal_append]
  rfl

theorem numeral_other {byte : Byte} (starts : byte = Token.minus ∨ isDigit byte) :
    byte ≠ 0x6E ∧ byte ≠ 0x74 ∧ byte ≠ 0x66 ∧ byte ≠ Token.quote ∧ byte ≠ Token.openList ∧
      byte ≠ Token.openObject := by
  rcases starts with rfl | digit
  · decide
  · simp only [isDigit, decide_eq_true_eq, UInt8.le_iff_toNat_le, UInt8.reduceToNat] at digit
    simp only [Token.quote, Token.openList, Token.openObject, ne_eq, ← UInt8.toNat_inj,
      UInt8.reduceToNat]
    omega

theorem passScalar_numeral {byte : Byte} (starts : byte = Token.minus ∨ isDigit byte)
    (more : Bytes) : passScalar byte more = passNumeral (byte :: more) := by
  obtain ⟨noNull, noTrue, noFalse, noQuote, _⟩ := numeral_other starts
  simp only [passScalar, noNull, noTrue, noFalse, noQuote, starts, ↓reduceIte]

section

variable (fuel : Nat) (stack : List Bracket) (before : Blanks)

theorem passFrom_scalar {byte : Byte} {more rest : Bytes} (solid : ¬ isBlank byte)
    (noList : byte ≠ Token.openList) (noObject : byte ≠ Token.openObject)
    (passed : passScalar byte more = .ok rest) :
    passFrom (fuel + 1) .value stack (before.bytes ++ byte :: more) =
      passFrom fuel .done stack rest := by
  simp only [passFrom, skipBlanks_solid before solid, noList, noObject, ↓reduceIte, passed]
  rfl

theorem passFrom_list (rest : Bytes) :
    passFrom (fuel + 1) .value stack (before.bytes ++ Token.openList :: rest) =
      passFrom fuel .opened (.list :: stack) rest := by
  have solid : ¬ isBlank Token.openList := by decide
  simp only [passFrom, skipBlanks_solid before solid, ↓reduceIte]

theorem passFrom_object (rest : Bytes) :
    passFrom (fuel + 1) .value stack (before.bytes ++ Token.openObject :: rest) =
      passFrom fuel .opened (.object :: stack) rest := by
  have solid : ¬ isBlank Token.openObject := by decide
  have other : Token.openObject ≠ Token.openList := by decide
  simp only [passFrom, skipBlanks_solid before solid, other, ↓reduceIte]

/-- Where an element or a member, or the closing bracket, comes next. -/
def Place.round (first : Bool) : Place := if first then .opened else .done

theorem passFrom_close (bracket : Bracket) (first : Bool) (rest : Bytes) :
    passFrom (fuel + 1) (.round first) (bracket :: stack) (before.bytes ++ bracket.close :: rest) =
      passFrom fuel .done stack rest := by
  have solid : ¬ isBlank bracket.close := by cases bracket <;> decide
  have noComma : bracket.close ≠ Token.comma := by cases bracket <;> decide
  cases first <;>
    simp only [Place.round, passFrom, skipBlanks_solid before solid, noComma, ↓reduceIte,
      Bool.false_eq_true]

theorem passFrom_next (bracket : Bracket) (first : Bool) {byte : Byte} (more : Bytes)
    (inner : Blanks) (solid : ¬ isBlank byte) (other : byte ≠ bracket.close) :
    ∃ blanks : Blanks, passFrom (fuel + 1) (.round first) (bracket :: stack)
      (before.bytes ++ (commaBytes first ++ (inner.bytes ++ byte :: more))) =
        (passKey bracket (blanks.bytes ++ byte :: more) >>=
          passFrom fuel .value (bracket :: stack)) := by
  cases first with
  | true =>
    refine ⟨⟨[], by simp⟩, ?_⟩
    have blanks := skipBlanks_solid inner solid more
    simp only [Place.round, commaBytes, ↓reduceIte, List.nil_append, passFrom, skipBlanks_blanks,
      blanks, other]
  | false =>
    refine ⟨inner, ?_⟩
    have comma : ¬ isBlank Token.comma := by decide
    simp only [Place.round, commaBytes, Bool.false_eq_true, ↓reduceIte, List.cons_append,
      List.nil_append, passFrom, skipBlanks_solid before comma]

theorem passKey_object (inner after : Blanks) (key : List Piece) (rest : Bytes) :
    passKey .object (inner.bytes ++ Token.quote :: (pieceBytes key ++ Token.quote ::
      (after.bytes ++ Token.colon :: rest))) = .ok rest := by
  have quote : ¬ isBlank Token.quote := by decide
  have colon : ¬ isBlank Token.colon := by decide
  simp only [passKey, expect_blanks inner quote, passQuoted_pieces, expect_blanks after colon, bind,
    Except.bind]
  rfl

end

mutual

/-- A tree is passed over, and what follows it is left. -/
theorem passFrom_tree : (tree : Tree) → (fuel : Nat) → (stack : List Bracket) → (before : Blanks) →
    {rest : Bytes} → Stops rest →
    passFrom (fuel + tree.steps) .value stack (before.bytes ++ (tree.bytes ++ rest)) =
      passFrom fuel .done stack rest
  | .null, fuel, stack, before, rest, _ =>
    passFrom_scalar fuel stack before (by decide) (by decide) (by decide)
      (passScalar_word null rfl rest)
  | .bool true, fuel, stack, before, rest, _ =>
    passFrom_scalar fuel stack before (by decide) (by decide) (by decide)
      (passScalar_word yes rfl rest)
  | .bool false, fuel, stack, before, rest, _ =>
    passFrom_scalar fuel stack before (by decide) (by decide) (by decide)
      (passScalar_word no rfl rest)
  | .number decimal, fuel, stack, before, rest, stops => by
    obtain ⟨byte, more, bytes, starts⟩ := decimal_head decimal
    obtain ⟨_, _, _, _, noList, noObject⟩ := numeral_other starts
    have passed := passNumeral_bytes decimal stops
    rw [bytes, List.cons_append, ← passScalar_numeral starts] at passed
    rw [Tree.bytes, bytes]
    exact passFrom_scalar fuel stack before (opening_numeral starts).1 noList noObject passed
  | .text pieces, fuel, stack, before, rest, _ => by
    rw [text_append]
    exact passFrom_scalar fuel stack before (by decide) (by decide) (by decide)
      (passQuoted_pieces pieces rest)
  | .list inner elements, fuel, stack, before, rest, _ => by
    have steps : fuel + (Tree.list inner elements).steps =
        (fuel + 1 + elementSteps elements) + 1 := by
      rw [Tree.steps]
      omega
    rw [steps, list_append, passFrom_list]
    exact passFrom_elements elements true fuel stack inner rest
  | .object inner members, fuel, stack, before, rest, _ => by
    have steps : fuel + (Tree.object inner members).steps =
        (fuel + 1 + memberSteps members) + 1 := by
      rw [Tree.steps]
      omega
    rw [steps, object_append, passFrom_object]
    exact passFrom_members members true fuel stack inner rest

theorem passFrom_elements : (elements : List (Padded Tree)) → (first : Bool) → (fuel : Nat) →
    (stack : List Bracket) → (before : Blanks) → (rest : Bytes) →
    passFrom (fuel + 1 + elementSteps elements) (.round first) (.list :: stack)
      (before.bytes ++ (elementBytes first elements ++ Token.closeList :: rest)) =
        passFrom fuel .done stack rest
  | [], first, fuel, stack, before, rest => passFrom_close fuel stack before .list first rest
  | ⟨inner, tree, after⟩ :: elements, first, fuel, stack, before, rest => by
    have steps : fuel + 1 + elementSteps (⟨inner, tree, after⟩ :: elements) =
        (fuel + 1 + elementSteps elements + tree.steps) + 1 := by
      rw [elementSteps]
      omega
    obtain ⟨byte, more, bytes, solid, other, _⟩ := tree_head tree
    have stops := stops_blanks after (stops_elementBytes elements rest)
    rw [steps, elementBytes]
    simp only [List.append_assoc, bytes, List.cons_append]
    obtain ⟨blanks, next⟩ := passFrom_next (fuel + 1 + elementSteps elements + tree.steps) stack
      before .list first (more ++ (after.bytes ++ (elementBytes false elements ++
        Token.closeList :: rest))) inner solid other
    rw [next]
    change passFrom _ .value _ _ = _
    rw [← List.cons_append, ← bytes, passFrom_tree tree _ _ blanks stops]
    exact passFrom_elements elements false fuel stack after rest

theorem passFrom_members : (members : List (Member Tree)) → (first : Bool) → (fuel : Nat) →
    (stack : List Bracket) → (before : Blanks) → (rest : Bytes) →
    passFrom (fuel + 1 + memberSteps members) (.round first) (.object :: stack)
      (before.bytes ++ (memberBytes first members ++ Token.closeObject :: rest)) =
        passFrom fuel .done stack rest
  | [], first, fuel, stack, before, rest => passFrom_close fuel stack before .object first rest
  | ⟨⟨start, key, after⟩, ⟨inner, tree, outer⟩⟩ :: members, first, fuel, stack, before, rest => by
    have steps : fuel + 1 + memberSteps (⟨⟨start, key, after⟩, ⟨inner, tree, outer⟩⟩ :: members) =
        (fuel + 1 + memberSteps members + tree.steps) + 1 := by
      rw [memberSteps]
      omega
    have stops := stops_blanks outer (stops_memberBytes members rest)
    rw [steps, memberBytes]
    simp only [List.append_assoc, List.cons_append]
    have solid : ¬ isBlank Token.quote := by decide
    obtain ⟨blanks, next⟩ := passFrom_next (fuel + 1 + memberSteps members + tree.steps) stack
      before .object first (pieceBytes key ++ Token.quote ::
        (after.bytes ++ Token.colon :: (inner.bytes ++ (tree.bytes ++ (outer.bytes ++
          (memberBytes false members ++ Token.closeObject :: rest)))))) start solid (by decide)
    rw [next, passKey_object]
    change passFrom _ .value _ _ = _
    rw [passFrom_tree tree _ _ inner stops]
    exact passFrom_members members false fuel stack outer rest

end

/-- A reader without use for a value takes just its bytes. -/
theorem ignored_tree (tree : Tree) (before : Blanks) {rest : Bytes} (stops : Stops rest) :
    ignored (before.bytes ++ (tree.bytes ++ rest)) = .ok ((), rest) := by
  have few := tree.steps_le
  obtain ⟨fuel, enough⟩ : ∃ fuel, 2 * (before.bytes ++ (tree.bytes ++ rest)).length + 2 =
      fuel + 1 + tree.steps := by
    refine ⟨2 * (before.bytes ++ (tree.bytes ++ rest)).length + 1 - tree.steps, ?_⟩
    simp only [List.length_append]
    omega
  rw [ignored, enough, passFrom_tree tree _ _ before stops]
  rfl

end TaskMonitor.Json
