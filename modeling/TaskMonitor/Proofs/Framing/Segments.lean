import TaskMonitor.Framing.Deframer

/-! A stream of bytes cut at its delimiters. What follows the first delimiter is a list of
segments, each ended by a delimiter, and bytes that no delimiter ends yet. -/

set_option autoImplicit false

namespace TaskMonitor.Deframer

/-- The nonempty segments that a delimiter ends, without the bytes before the first one. -/
def segments (stream : Bytes) : List Bytes :=
  (stream.splitOn 0).tail.dropLast.filter (· ≠ [])

def unfinished (stream : Bytes) : Option Bytes := (stream.splitOn 0).tail.getLast?

theorem splitOn_nil : ([] : Bytes).splitOn 0 = [[]] := rfl

theorem splitOn_delimiter_cons (stream : Bytes) :
    (0 :: stream).splitOn 0 = [] :: stream.splitOn 0 :=
  List.splitOn_append_cons_self_of_not_mem (a := (0 : Byte)) List.not_mem_nil stream

theorem segments_cut (front back : Bytes) :
    segments (front ++ 0 :: back) = segments (front ++ [0]) ++ segments (0 :: back) := by
  obtain ⟨first, more, split⟩ := List.exists_cons_of_ne_nil (List.splitOn_ne_nil 0 front)
  simp only [segments, List.splitOn_append_cons_self, splitOn_delimiter_cons, split, splitOn_nil,
    List.cons_append, List.tail_cons, List.dropLast_concat]
  rw [List.dropLast_append_of_ne_nil (List.splitOn_ne_nil 0 back), List.filter_append]

theorem unfinished_cut (front back : Bytes) :
    unfinished (front ++ 0 :: back) = unfinished (0 :: back) := by
  obtain ⟨first, more, split⟩ := List.exists_cons_of_ne_nil (List.splitOn_ne_nil 0 front)
  simp only [unfinished, List.splitOn_append_cons_self, splitOn_delimiter_cons, split,
    List.cons_append, List.tail_cons, List.getLast?_append,
    List.getLast?_eq_some_getLast (List.splitOn_ne_nil 0 back), Option.some_or]

theorem segments_of_not_mem {stream : Bytes} (clear : 0 ∉ stream) : segments stream = [] := by
  simp [segments, List.splitOn_eq_singleton clear]

theorem unfinished_of_not_mem {stream : Bytes} (clear : 0 ∉ stream) :
    unfinished stream = none := by
  simp [unfinished, List.splitOn_eq_singleton clear]

theorem segments_open {tail : Bytes} (clear : 0 ∉ tail) : segments (0 :: tail) = [] := by
  simp [segments, splitOn_delimiter_cons, List.splitOn_eq_singleton clear]

theorem unfinished_open {tail : Bytes} (clear : 0 ∉ tail) :
    unfinished (0 :: tail) = some tail := by
  simp [unfinished, splitOn_delimiter_cons, List.splitOn_eq_singleton clear]

theorem segments_closed {segment : Bytes} (clear : 0 ∉ segment) :
    segments (0 :: segment ++ [0]) = if segment = [] then [] else [segment] := by
  have split := List.splitOn_append_cons_self_of_not_mem clear []
  simp only [segments, List.cons_append, splitOn_delimiter_cons, split, splitOn_nil, List.tail_cons]
  by_cases same : segment = [] <;> simp [same]

theorem segments_before {front : Bytes} (clear : 0 ∉ front) : segments (front ++ [0]) = [] := by
  have split := List.splitOn_append_cons_self_of_not_mem clear []
  simp [segments, split]

theorem segments_cons {segment : Bytes} (clear : 0 ∉ segment) (some : segment ≠ [])
    (more : Bytes) : segments (0 :: segment ++ 0 :: more) = segment :: segments (0 :: more) := by
  rw [segments_cut, segments_closed clear, if_neg some]
  rfl

theorem segments_repeated (back : Bytes) : segments (0 :: 0 :: back) = segments (0 :: back) := by
  have cut := segments_cut [0] back
  have none : segments ([0] ++ [0]) = [] := segments_closed List.not_mem_nil
  rw [none, List.nil_append] at cut
  exact cut

theorem unfinished_repeated (back : Bytes) :
    unfinished (0 :: 0 :: back) = unfinished (0 :: back) :=
  unfinished_cut [0] back

/-- Streams that are cut alike, whatever follows. -/
structure Alike (first second : Bytes) : Prop where
  segments : ∀ more, segments (first ++ more) = segments (second ++ more)
  unfinished : ∀ more, unfinished (first ++ more) = unfinished (second ++ more)

theorem Alike.refl (stream : Bytes) : Alike stream stream := ⟨fun _ => rfl, fun _ => rfl⟩

theorem Alike.trans {first second third : Bytes} (left : Alike first second)
    (right : Alike second third) : Alike first third :=
  ⟨fun more => (left.segments more).trans (right.segments more),
    fun more => (left.unfinished more).trans (right.unfinished more)⟩

theorem Alike.skip {front : Bytes} (clear : 0 ∉ front) : Alike front [] := by
  constructor
  · intro more
    rw [List.nil_append]
    by_cases delimited : (0 : Byte) ∈ more
    · obtain ⟨before, after, rfl, nothing⟩ := List.eq_append_cons_of_mem delimited
      rw [← List.append_assoc, segments_cut, segments_cut before, segments_before nothing,
        segments_before (by simp [clear, nothing])]
    · rw [segments_of_not_mem (by simp [clear, delimited]), segments_of_not_mem delimited]
  · intro more
    rw [List.nil_append]
    by_cases delimited : (0 : Byte) ∈ more
    · obtain ⟨before, after, rfl, nothing⟩ := List.eq_append_cons_of_mem delimited
      rw [← List.append_assoc, unfinished_cut, unfinished_cut before]
    · rw [unfinished_of_not_mem (by simp [clear, delimited]), unfinished_of_not_mem delimited]

theorem Alike.start {front : Bytes} (clear : 0 ∉ front) (back : Bytes) :
    Alike (front ++ 0 :: back) (0 :: back) := by
  constructor
  · intro more
    rw [List.append_assoc, List.cons_append, segments_cut, segments_before clear, List.nil_append]
  · intro more
    rw [List.append_assoc, List.cons_append, unfinished_cut]

theorem Alike.repeated (back : Bytes) : Alike (0 :: 0 :: back) (0 :: back) := by
  constructor
  · intro more
    exact segments_repeated (back ++ more)
  · intro more
    exact unfinished_repeated (back ++ more)

theorem Alike.dropWhile (stream : Bytes) :
    Alike (0 :: stream) (0 :: stream.dropWhile (· = 0)) := by
  induction stream with
  | nil => exact .refl _
  | cons byte rest ih =>
    by_cases zero : byte = 0
    · subst zero
      exact (Alike.repeated rest).trans ih
    · simpa [zero] using Alike.refl _

end TaskMonitor.Deframer
