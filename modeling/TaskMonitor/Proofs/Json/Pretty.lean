import TaskMonitor.Json.Document
import TaskMonitor.Proofs.Text.Paragraphs

/-! Documents with line breaks have no empty line, whatever their texts hold: a line feed in a
text is written as an escape, and each line has its indentation or a bracket. -/

set_option autoImplicit false

namespace TaskMonitor.Json

open Text (Lined lined_of_not_mem)

/-! ## Scalars -/

theorem lineFeed_not_mem_digits (n : Nat) : '\n' ∉ Number.digits n := by
  intro member
  have digit := Nat.isDigit_of_mem_toDigits (by decide) (by decide) member
  exact absurd digit (by decide)

theorem lineFeed_not_mem_signedDigits (n : Int) : '\n' ∉ Number.signedDigits n := by
  unfold Number.signedDigits
  split <;> simp [lineFeed_not_mem_digits]

theorem lineFeed_not_mem_search (near : Number.Neighbourhood) (length left : Nat) :
    '\n' ∉ (near.search length left).digits := by
  induction left with
  | zero => exact lineFeed_not_mem_digits _
  | succ left ih =>
    simp only [Number.Neighbourhood.search]
    split
    · exact lineFeed_not_mem_digits _
    · exact ih

theorem lineFeed_not_mem_shortest (significand : Nat) (exponent : Int) :
    '\n' ∉ (Number.shortest significand exponent).digits := by
  intro member
  have kept := (List.dropWhile_suffix _).mem (List.mem_reverse.mp member)
  exact lineFeed_not_mem_search _ _ _ (List.mem_reverse.mp kept)

theorem lineFeed_not_mem_pointed {digits : List Char} (single : '\n' ∉ digits) (point : Int) :
    '\n' ∉ pointed digits point := by
  have before : '\n' ∉ digits.take point.toNat :=
    fun member => single (List.mem_of_mem_take member)
  have behind : '\n' ∉ digits.drop point.toNat :=
    fun member => single (List.mem_of_mem_drop member)
  simp only [pointed]
  split <;> split <;> simp [before, behind, List.mem_replicate]

theorem lineFeed_not_mem_scientific {digits : List Char} (single : '\n' ∉ digits) (power : Int) :
    '\n' ∉ scientific digits power := by
  have first : '\n' ∉ digits.take 1 := fun member => single (List.mem_of_mem_take member)
  have others : '\n' ∉ digits.tail := fun member => single (List.mem_of_mem_tail member)
  have powerDigits := lineFeed_not_mem_digits power.natAbs
  simp only [scientific]
  split <;> split <;> simp [first, others, powerDigits]

theorem lineFeed_not_mem_magnitude (significand : Nat) (exponent : Int) :
    '\n' ∉ magnitude significand exponent := by
  have found := lineFeed_not_mem_shortest significand exponent
  unfold magnitude
  generalize Number.shortest significand exponent = decimal at found ⊢
  obtain ⟨digits, point⟩ := decimal
  split
  · decide
  · dsimp only
    split
    · exact lineFeed_not_mem_pointed found _
    · exact lineFeed_not_mem_scientific found _

theorem lineFeed_not_mem_real (x : Number.Binary64) : '\n' ∉ real x := by
  unfold real
  split
  · decide
  · decide
  · next significand exponent _ =>
    have written := lineFeed_not_mem_magnitude significand exponent
    split <;> simp [written]

theorem hexDigit_ne_lineFeed : ∀ n < 16, hexDigit n ≠ '\n' := by
  decide

theorem lineFeed_not_mem_escapeChar (c : Char) : '\n' ∉ escapeChar c := by
  unfold escapeChar
  -- The seven characters with a name of their own.
  iterate 7
    split
    · decide
  split
  · next small =>
    have high := hexDigit_ne_lineFeed (c.toNat / 16) (by omega)
    have low := hexDigit_ne_lineFeed (c.toNat % 16) (by omega)
    simp [high.symm, low.symm]
  · next _ _ _ _ other _ _ _ =>
    rw [List.mem_singleton]
    rintro rfl
    exact other rfl

theorem lineFeed_not_mem_quote (text : String) : '\n' ∉ quote text := by
  simp [quote, lineFeed_not_mem_escapeChar]

theorem lined_scalar (document : Document) : Lined (scalar document) := by
  apply lined_of_not_mem
  cases document with
  | null => decide
  | bool value => cases value <;> decide
  | integer value => exact lineFeed_not_mem_signedDigits value
  | real value => exact lineFeed_not_mem_real value
  | text value => exact lineFeed_not_mem_quote value
  | list elements => exact List.not_mem_nil
  | object members => exact List.not_mem_nil

/-! ## Brackets -/

theorem lined_indentation (depth : Nat) : Lined (newLine (depth + 1)) :=
  .newLine (by decide) (lined_of_not_mem (by simp))

theorem lined_bracket (depth : Nat) {bracket : Char} (other : bracket ≠ '\n') :
    Lined (newLine depth ++ [bracket]) := by
  cases depth with
  | zero => exact .newLine other .nil
  | succ depth => exact (lined_indentation depth).append (.other other .nil)

theorem lined_enclosed (depth : Nat) {left right : Char} (leftOther : left ≠ '\n')
    (rightOther : right ≠ '\n') {inner : List Char} (lined : Lined inner) :
    Lined (left :: inner ++ newLine depth ++ [right]) := by
  rw [List.append_assoc]
  exact (Lined.other leftOther lined).append (lined_bracket depth rightOther)

theorem lined_comma (first : Bool) : Lined (if first then [] else [',']) := by
  cases first <;> exact lined_of_not_mem (by decide)

mutual

theorem lined_prettyAt (depth : Nat) : ∀ document : Document, Lined (document.prettyAt depth)
  | .null => lined_scalar .null
  | .bool value => lined_scalar (.bool value)
  | .integer value => lined_scalar (.integer value)
  | .real value => lined_scalar (.real value)
  | .text value => lined_scalar (.text value)
  | .list [] => lined_of_not_mem (by simp [Document.prettyAt])
  | .list (element :: rest) => by
    simp only [Document.prettyAt]
    exact lined_enclosed depth (by decide) (by decide)
      (lined_prettyElements depth true (element :: rest))
  | .object [] => lined_of_not_mem (by simp [Document.prettyAt])
  | .object (member :: rest) => by
    simp only [Document.prettyAt]
    exact lined_enclosed depth (by decide) (by decide)
      (lined_prettyMembers depth true (member :: rest))

theorem lined_prettyElements (depth : Nat) (first : Bool) :
    ∀ elements : List Document, Lined (prettyElements (depth + 1) first elements)
  | [] => .nil
  | element :: rest => by
    simp only [prettyElements]
    have opening := (lined_comma first).append (lined_indentation depth)
    exact (opening.append (lined_prettyAt (depth + 1) element)).append
      (lined_prettyElements depth false rest)

theorem lined_prettyMembers (depth : Nat) (first : Bool) :
    ∀ members : List (String × Document), Lined (prettyMembers (depth + 1) first members)
  | [] => .nil
  | (key, value) :: rest => by
    simp only [prettyMembers]
    have opening := (lined_comma first).append (lined_indentation depth)
    have name := opening.append (lined_of_not_mem (lineFeed_not_mem_quote key))
    have later := (lined_prettyAt (depth + 1) value).append (lined_prettyMembers depth false rest)
    simpa using name.append (.other (by decide) (.other (by decide) later))

end

theorem pretty_object (members : List (String × Document)) :
    ∃ inner, (Document.object members).pretty = '\x7b' :: inner ++ ['\x7d'] := by
  cases members with
  | nil => exact ⟨[], by simp [Document.pretty, Document.prettyAt]⟩
  | cons member rest =>
    exact ⟨prettyMembers 1 true (member :: rest) ++ newLine 0, by
      simp [Document.pretty, Document.prettyAt]⟩

end TaskMonitor.Json
