/-! Text cut where two line feeds stand in a row, and text in which they never do. -/

set_option autoImplicit false

namespace TaskMonitor.Text

/-- The parts of a text between two line feeds in a row. -/
def paragraphs : List Char → List (List Char)
  | [] => [[]]
  | '\n' :: '\n' :: rest => [] :: paragraphs rest
  | c :: rest => (paragraphs rest).modifyHead (c :: ·)

theorem paragraphs_blank (rest : List Char) :
    paragraphs ('\n' :: '\n' :: rest) = [] :: paragraphs rest := rfl

-- The first two of three line feeds are a cut, and the third belongs to what follows.
example : paragraphs ['a', '\n', '\n', '\n', 'b'] = [['a'], ['\n', 'b']] := rfl

theorem paragraphs_other {c : Char} (other : c ≠ '\n') (rest : List Char) :
    paragraphs (c :: rest) = (paragraphs rest).modifyHead (c :: ·) := by
  rw [paragraphs]
  simp [other]

theorem paragraphs_newLine {c : Char} (other : c ≠ '\n') (rest : List Char) :
    paragraphs ('\n' :: c :: rest) = (paragraphs (c :: rest)).modifyHead ('\n' :: ·) := by
  rw [paragraphs]
  simp [other]

/-- Text in which another character follows each line feed. -/
inductive Lined : List Char → Prop where
  | nil : Lined []
  | other {c : Char} {rest : List Char} : c ≠ '\n' → Lined rest → Lined (c :: rest)
  | newLine {c : Char} {rest : List Char} : c ≠ '\n' → Lined rest → Lined ('\n' :: c :: rest)

theorem Lined.append {first second : List Char} (lined : Lined first) (later : Lined second) :
    Lined (first ++ second) := by
  induction lined with
  | nil => exact later
  | other other _ ih => exact .other other ih
  | newLine other _ ih => exact .newLine other ih

theorem lined_of_not_mem {text : List Char} (single : '\n' ∉ text) : Lined text := by
  induction text with
  | nil => exact .nil
  | cons c rest ih =>
    have other : c ≠ '\n' := fun same => single (same ▸ List.mem_cons_self)
    exact .other other (ih fun member => single (List.mem_cons_of_mem _ member))

theorem Lined.no_blank {text : List Char} (lined : Lined text) :
    ¬ ['\n', '\n'] <:+: text ++ ['\n'] := by
  induction lined with
  | nil => simp [List.infix_cons_iff]
  | other other _ ih =>
    rw [List.cons_append, List.infix_cons_iff, List.cons_prefix_cons]
    rintro (⟨same, _⟩ | later)
    · exact other same.symm
    · exact ih later
  | newLine other _ ih =>
    rw [List.cons_append, List.cons_append, List.infix_cons_iff, List.infix_cons_iff,
      List.cons_prefix_cons, List.cons_prefix_cons, List.cons_prefix_cons]
    rintro (⟨_, same, _⟩ | ⟨same, _⟩ | later)
    · exact other same.symm
    · exact other same.symm
    · exact ih later

theorem Lined.paragraphs_append {text : List Char} (lined : Lined text) (rest : List Char) :
    paragraphs (text ++ rest) = (paragraphs rest).modifyHead (text ++ ·) := by
  induction lined with
  | nil => exact (congrFun List.modifyHead_id _).symm
  | other other _ ih =>
    rw [List.cons_append, paragraphs_other other, ih, List.modifyHead_modifyHead]
    rfl
  | newLine other _ ih =>
    rw [List.cons_append, List.cons_append, paragraphs_newLine other, paragraphs_other other, ih,
      List.modifyHead_modifyHead, List.modifyHead_modifyHead]
    rfl

end TaskMonitor.Text
