import Mathlib.Data.List.Infix
import TaskMonitor.Framing.Turns
import TaskMonitor.Proofs.Framing.Stream

/-! What one look for a frame uses up. A look takes bytes from the front of the buffer only, and
each result but the last one takes a delimiter with it, so that both the turns of a look and the
results that are there to be had are counted by the delimiters in the buffer. -/

set_option autoImplicit false

namespace TaskMonitor.Deframer

/-- The bytes passed over before a segment. In step they are delimiters; out of step they end in
delimiters, of which the first one gets the deframer in step. -/
def Lead (inStep : Bool) (lead : Bytes) : Prop :=
  ∃ before delimiters, lead = before ++ delimiters ∧ 0 ∉ before ∧ (∀ byte ∈ delimiters, byte = 0) ∧
    if inStep then before = [] else delimiters ≠ []

theorem Lead.none : Lead true [] := ⟨[], [], rfl, List.not_mem_nil, by simp, rfl⟩

theorem Lead.start {before : Bytes} (clear : 0 ∉ before) : Lead false (before ++ [0]) :=
  ⟨before, [0], rfl, clear, by simp, List.cons_ne_nil _ _⟩

theorem Lead.append {inStep : Bool} {lead more : Bytes} (first : Lead inStep lead)
    (zero : ∀ byte ∈ more, byte = 0) : Lead inStep (lead ++ more) := by
  obtain ⟨before, delimiters, rfl, clear, zeros, step⟩ := first
  refine ⟨before, delimiters ++ more, List.append_assoc .., clear, ?_, ?_⟩
  · exact List.forall_mem_append.mpr ⟨zeros, zero⟩
  · cases inStep with
    | true => exact step
    | false => exact List.append_ne_nil_of_left_ne_nil step more

/-- What a look takes from the buffer. Only a look without a result, or one that gives up bytes
beyond the bound, takes more than the lead and one segment with its delimiter. -/
inductive Taken (deframer : Deframer) : Option Event × Deframer → Prop where
  | waiting : Taken deframer (none, { deframer with inStep := false, buffer := [] })
  | unfinished {lead tail : Bytes} : Lead deframer.inStep lead → 0 ∉ tail →
      deframer.buffer = lead ++ tail →
      Taken deframer (none, { deframer with inStep := true, buffer := tail })
  | segment {lead segment rest : Bytes} : Lead deframer.inStep lead → segment ≠ [] →
      0 ∉ segment → deframer.buffer = lead ++ segment ++ [0] ++ rest →
      Taken deframer (some (payload deframer.limit segment),
        { deframer with inStep := true, buffer := rest })
  | overflow {lead tail : Bytes} : Lead deframer.inStep lead → 0 ∉ tail →
      bound deframer.limit < tail.length → deframer.buffer = lead ++ tail →
      Taken deframer (some (.error (.tooLarge deframer.limit.toNat)), deframer.reset)

/-! ## One look -/

theorem align_lead (deframer : Deframer) :
    deframer.align = { deframer with inStep := false, buffer := [] } ∨
      ∃ lead bytes, Lead deframer.inStep lead ∧ deframer.buffer = lead ++ bytes ∧
        deframer.align = { deframer with inStep := true, buffer := bytes } := by
  obtain ⟨limit, inStep, buffer⟩ := deframer
  cases inStep with
  | true => exact .inr ⟨[], buffer, .none, rfl, rfl⟩
  | false =>
    rcases delimiter_cases buffer with clear | ⟨before, rest, clear, rfl⟩
    · left
      simp only [align, Bool.false_eq_true, ↓reduceIte, dropWhile_clear clear]
    · right
      refine ⟨before ++ [0], rest, .start clear, by simp, ?_⟩
      simp only [align, Bool.false_eq_true, ↓reduceIte, dropWhile_front clear]

theorem next_taken (deframer : Deframer) :
    Taken deframer (deframer.next.1, deframer.next.2) := by
  rcases deframer.align_lead with out | ⟨lead, bytes, first, whole, step⟩
  · simp only [next, out, Bool.false_eq_true, ↓reduceIte]
    exact .waiting
  · simp only [next, step, ↓reduceIte]
    -- The delimiters of empty frames go with what was passed over to get in step.
    have zero : ∀ byte ∈ bytes.takeWhile (· = 0), byte = 0 := fun byte member =>
      of_decide_eq_true (List.all_eq_true.mp List.all_takeWhile byte member)
    have lead := first.append zero
    rw [← List.takeWhile_append_dropWhile (p := (· = 0)) (l := bytes), ← List.append_assoc] at whole
    have head := List.head?_dropWhile_not (· = 0) bytes
    generalize bytes.dropWhile (· = 0) = later at whole head
    rcases delimiter_cases later with clear | ⟨front, rest, clear, rfl⟩
    · simp only [dropWhile_clear clear]
      split
      · next large => exact .overflow lead clear large whole
      · exact .unfinished lead clear whole
    · simp only [dropWhile_front clear, takeWhile_front clear]
      refine .segment lead ?_ clear (by simpa using whole)
      rintro rfl
      simp at head

theorem Taken.suffix {deframer left : Deframer} {found : Option Event}
    (taken : Taken deframer (found, left)) : left.buffer <:+ deframer.buffer := by
  cases taken with
  | waiting => exact List.nil_suffix
  | unfinished first clear whole => exact ⟨_, whole.symm⟩
  | segment first nonempty clear whole => exact ⟨_, whole.symm⟩
  | overflow => exact List.nil_suffix

theorem Taken.clear {deframer left : Deframer} (taken : Taken deframer (none, left)) :
    0 ∉ left.buffer := by
  cases taken with
  | waiting => exact List.not_mem_nil
  | unfinished first clear whole => exact clear

/-- One segment goes, with what is passed over before it and the delimiter that ends it. -/
def TakesSegment (deframer left : Deframer) (event : Event) : Prop :=
  ∃ lead segment, Lead deframer.inStep lead ∧ segment ≠ [] ∧ 0 ∉ segment ∧
    deframer.buffer = lead ++ segment ++ [0] ++ left.buffer ∧
    2 ≤ (lead ++ segment ++ [0]).length ∧ left.inStep ∧ event = payload deframer.limit segment

/-- Too many bytes that no delimiter ends go, and the deframer is out of step. -/
def GivesUp (deframer left : Deframer) (event : Event) : Prop :=
  ∃ lead tail, Lead deframer.inStep lead ∧ 0 ∉ tail ∧ deframer.buffer = lead ++ tail ∧
    bound deframer.limit < tail.length ∧ left.buffer = [] ∧ ¬ left.inStep ∧
    event = .error (.tooLarge deframer.limit.toNat)

theorem Taken.event {deframer left : Deframer} {event : Event}
    (taken : Taken deframer (some event, left)) :
    TakesSegment deframer left event ∨ GivesUp deframer left event := by
  cases taken with
  | @segment lead segment rest first nonempty clear whole =>
    have length := List.length_pos_iff.mpr nonempty
    refine .inl ⟨lead, segment, first, nonempty, clear, whole, ?_, rfl, rfl⟩
    simp only [List.length_append, List.length_singleton]
    omega
  | overflow first clear large whole =>
    exact .inr ⟨_, _, first, clear, whole, large, rfl, Bool.false_ne_true, rfl⟩

/-! ## The turns of a look -/

theorem idxOf?_clear {bytes : Bytes} (clear : 0 ∉ bytes) : bytes.idxOf? 0 = none :=
  List.idxOf?_eq_none_iff.mpr clear

theorem idxOf?_front {front : Bytes} (clear : 0 ∉ front) (rest : Bytes) :
    (front ++ 0 :: rest).idxOf? 0 = some front.length := by
  induction front with
  | nil => rfl
  | cons byte front ih =>
    have nonzero : byte ≠ 0 := (List.ne_of_not_mem_cons clear).symm
    simp [List.idxOf?_cons, nonzero, ih (List.not_mem_of_not_mem_cons clear)]

/-- Each turn that goes round again drops a delimiter. -/
theorem turn_again {deframer left : Deframer} (again : deframer.turn = .again left) :
    left.buffer.count 0 < deframer.buffer.count 0 := by
  rcases deframer.align_lead with out | ⟨lead, bytes, first, whole, step⟩
  · simp [turn, out] at again
  · simp only [turn, step, ↓reduceIte] at again
    rcases delimiter_cases bytes with clear | ⟨front, rest, clear, rfl⟩
    · simp only [idxOf?_clear clear] at again
      split at again
      · cases again
      · split at again <;> cases again
    · simp only [idxOf?_front clear] at again
      cases front with
      | nil =>
        cases again
        rw [whole, List.count_append, List.nil_append, List.count_cons_self]
        exact Nat.lt_add_left _ (Nat.lt_succ_self _)
      | cons byte front => cases again

def Turn.result : Turn → Option (Option Event × Deframer)
  | .done found left => some (found, left)
  | .again left => left.next?
  | .stop => none

/-- Going round again changes nothing about the result of the look. -/
theorem result_turn (deframer : Deframer) : deframer.turn.result = deframer.next? := by
  rcases deframer.align_lead with out | ⟨lead, bytes, first, whole, step⟩
  · simp [turn, next?, weighs, next, out, Turn.result]
  · simp only [turn, next?, weighs, next, step, ↓reduceIte, Bool.true_and]
    rcases delimiter_cases bytes with clear | ⟨front, rest, clear, rfl⟩
    · simp only [idxOf?_clear clear, dropWhile_solid (head_clear clear), dropWhile_clear clear]
      cases found : Cobs.maxEncodedLength? deframer.limit with
      | none => rfl
      | some most =>
        simp only [Option.isNone_some, Bool.and_false, Bool.false_eq_true, ↓reduceIte,
          Cobs.maxEncodedLength?_eq_some_iff.mp found]
        split <;> rfl
    · simp only [idxOf?_front clear]
      cases front with
      | nil => simp [Turn.result, next?, weighs, next, align, reset]
      | cons byte front =>
        have nonzero : byte ≠ 0 := (List.ne_of_not_mem_cons clear).symm
        have solid : 0 ∉ (byte :: front ++ 0 :: rest).head? := by simpa using nonzero
        simp only [dropWhile_solid solid, dropWhile_front clear, takeWhile_front clear]
        simp [Turn.result]

theorem turns_eq_next? {deframer : Deframer} {count : Nat}
    (enough : deframer.buffer.count 0 < count) : deframer.turns count = some deframer.next? := by
  induction count generalizing deframer with
  | zero => cases enough
  | succ count ih =>
    have result := deframer.result_turn
    rw [turns]
    cases turned : deframer.turn with
    | done found left =>
      rw [← result, turned]
      rfl
    | again left =>
      rw [← result, turned]
      exact ih (Nat.lt_of_lt_of_le (turn_again turned) (Nat.le_of_lt_succ enough))
    | stop =>
      rw [← result, turned]
      rfl

theorem next?_cases (deframer : Deframer) : deframer.next? = some deframer.next ∨
    deframer.next? = none ∧ ¬ Fits deframer.limit := by
  by_cases fits : Fits deframer.limit
  · exact .inl (next?_of_fits fits)
  · cases found : deframer.next? with
    | none => exact .inr ⟨rfl, fits⟩
    | some result => exact .inl (congrArg some (next?_eq found).symm)

/-! ## Look after look -/

/-- The most results that are still to be had: one for each delimiter, and one for the bytes after
the last of them. -/
def promise (deframer : Deframer) : Nat :=
  if deframer.buffer = [] then 0 else deframer.buffer.count 0 + 1

theorem promise_le (deframer : Deframer) : deframer.promise ≤ deframer.buffer.count 0 + 1 := by
  unfold promise
  split
  · exact Nat.zero_le _
  · exact Nat.le_refl _

theorem promise_pos {deframer : Deframer} (nonempty : deframer.buffer ≠ []) :
    deframer.promise = deframer.buffer.count 0 + 1 := if_neg nonempty

theorem Taken.promise {deframer left : Deframer} {event : Event}
    (taken : Taken deframer (some event, left)) : left.promise < deframer.promise := by
  rcases taken.event with ⟨lead, segment, _, nonempty, _, whole, _⟩ |
    ⟨lead, tail, _, _, whole, large, empty, _⟩
  · have most := left.promise_le
    have nonempty : deframer.buffer ≠ [] := by simp [whole]
    rw [promise_pos nonempty, whole, List.count_append, List.count_append,
      List.count_singleton_self]
    omega
  · have nonempty : deframer.buffer ≠ [] := by
      simp [whole, List.ne_nil_of_length_pos (Nat.zero_lt_of_lt large)]
    rw [promise_pos nonempty, Deframer.promise, if_pos empty]
    exact Nat.succ_pos _

/-- The results of so many looks, one after the other. -/
def looks (deframer : Deframer) : Nat → List (Option Event)
  | 0 => []
  | count + 1 => deframer.next.1 :: deframer.next.2.looks count

theorem looks_promise {deframer : Deframer} {count : Nat}
    (all : none ∉ deframer.looks count) : count ≤ deframer.promise := by
  induction count generalizing deframer with
  | zero => exact Nat.zero_le _
  | succ count ih =>
    have taken := deframer.next_taken
    obtain ⟨first, later⟩ := not_or.mp (List.mem_cons.not.mp all)
    have rest := ih later
    cases found : deframer.next.1 with
    | none => exact absurd found.symm first
    | some event =>
      rw [found] at taken
      exact Nat.le_trans (Nat.succ_le_succ rest) taken.promise

/-- A look takes bytes from the front of the buffer: one segment with its delimiter, or all bytes
if too many come after the last delimiter, or what has no meaning, and then no delimiter is left.
So the delimiters bound how often looks in a row have results, and the turns of each look. The
turns come to this look, unless the bound does not fit and the program stops. -/
theorem next_progress (deframer : Deframer) :
    deframer.next.2.buffer <:+ deframer.buffer ∧
      (∀ event, deframer.next.1 = some event → TakesSegment deframer deframer.next.2 event ∨
        GivesUp deframer deframer.next.2 event) ∧
      (deframer.next.1 = none → 0 ∉ deframer.next.2.buffer) ∧
      (∀ count, none ∉ deframer.looks count → count ≤ deframer.buffer.count 0 + 1) ∧
      (∀ count, deframer.buffer.count 0 < count → deframer.turns count = some deframer.next?) ∧
      (deframer.next? = some deframer.next ∨
        deframer.next? = none ∧ ¬ Fits deframer.limit) := by
  have taken := deframer.next_taken
  refine ⟨taken.suffix, ?_, ?_, ?_, fun _ => turns_eq_next?, deframer.next?_cases⟩
  · intro event found
    rw [found] at taken
    exact taken.event
  · intro found
    rw [found] at taken
    exact taken.clear
  · intro count all
    exact Nat.le_trans (looks_promise all) deframer.promise_le

/-- A byte before the first delimiter, an empty frame, a frame cut short and a good one. -/
def noisy : Deframer := { limit := 4, buffer := [0x42, 0, 0, 5, 0x11, 0, 2, 7, 0] }

theorem next_progress_noisy :
    noisy.next.1 = some (.error (.truncated 0)) ∧
      (TakesSegment noisy noisy.next.2 (.error (.truncated 0)) ∨
        GivesUp noisy noisy.next.2 (.error (.truncated 0))) ∧
      noisy.looks 2 = [some (.error (.truncated 0)), some (.ok [7])] ∧
      2 ≤ noisy.buffer.count 0 + 1 ∧
      noisy.turns 5 = some (some noisy.next) := by
  obtain ⟨_, results, _, bounded, ends, goes⟩ := noisy.next_progress
  have first : noisy.next.1 = some (.error (.truncated 0)) := by decide +kernel
  have both : noisy.looks 2 = [some (.error (.truncated 0)), some (.ok [7])] := by decide +kernel
  have look : noisy.next? = some noisy.next := goes.resolve_right fun stops =>
    stops.2 (fits_of_allowed (by decide))
  exact ⟨first, results _ first, both, bounded 2 (by simp [both]), look ▸ ends 5 (by decide)⟩

end TaskMonitor.Deframer
