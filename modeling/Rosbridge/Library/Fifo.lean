import Mathlib.Data.List.Enum
import Rosbridge.Library.Recent

/-!
# Bounded queues that drop their oldest elements

What such a queue holds, as a function of its history: the elements pushed, in order, and the
positions of those that were taken off its front.
-/

namespace Fifo

variable {α β : Type*}

/-- The elements that were not taken and after which fewer than `n` others were pushed. -/
def survivors (n : Nat) (pushed : List α) (taken : List Nat) : List α :=
  (pushed.zipIdx.filter fun x => x.2 ∉ taken ∧ pushed.length - (x.2 + 1) < n).map Prod.fst

/-- The contents are what was pushed from some position on, and everything before that position was
taken or is too old. -/
structure Window (n : Nat) (pushed : List α) (taken : List Nat) (contents : List α) : Prop where
  short : contents.length ≤ n
  suffix : contents = pushed.drop (pushed.length - contents.length)
  behind : ∀ i ∈ taken, i + contents.length < pushed.length
  settled : ∀ i, i + contents.length < pushed.length → i ∈ taken ∨ n ≤ pushed.length - (i + 1)

namespace Window

variable {n : Nat} {pushed contents : List α} {taken : List Nat}

theorem initial (n : Nat) : Window n ([] : List α) [] [] where
  short := Nat.zero_le n
  suffix := rfl
  behind i member := by cases member
  settled i before := by simp at before

theorem length_le (w : Window n pushed taken contents) : contents.length ≤ pushed.length := by
  have length := congrArg List.length w.suffix
  rw [List.length_drop] at length
  omega

/-- The oldest element that is still held is the one at the position where the window starts. -/
theorem front (w : Window n pushed taken contents) :
    contents.head? = pushed[pushed.length - contents.length]? := by
  conv_lhs => rw [w.suffix]
  rw [List.head?_drop]

theorem push (w : Window n pushed taken contents) (x : α) :
    Window n (pushed ++ [x]) taken ((contents ++ [x]).rtake n) := by
  have bounded := w.length_le
  have length : ((contents ++ [x]).rtake n).length = min n (contents.length + 1) := by
    rw [Recent.length_rtake, List.length_append, List.length_singleton]
  refine ⟨by omega, ?_, fun i member => ?_, fun i before => ?_⟩
  · have appended : contents ++ [x] = (pushed ++ [x]).drop (pushed.length - contents.length) := by
      rw [List.drop_append_of_le_length (by omega), ← w.suffix]
    rw [length, List.rtake, appended, List.drop_drop, ← appended, List.length_append,
      List.length_append, List.length_singleton]
    congr 1
    omega
  · have old := w.behind i member
    rw [length, List.length_append, List.length_singleton]
    omega
  · rw [length, List.length_append, List.length_singleton] at before
    rw [List.length_append, List.length_singleton]
    by_cases old : i + contents.length < pushed.length
    · rcases w.settled i old with gone | aged
      · exact .inl gone
      · exact .inr (by omega)
    · exact .inr (by omega)

theorem take {x : α} {rest : List α} (w : Window n pushed taken (x :: rest)) :
    Window n pushed (taken ++ [pushed.length - (x :: rest).length]) rest := by
  have bounded := w.length_le
  have short := w.short
  rw [List.length_cons] at bounded short
  refine ⟨by omega, ?_, fun i member => ?_, fun i before => ?_⟩
  · have tail := congrArg List.tail w.suffix
    rw [List.tail_drop, List.length_cons, List.tail_cons] at tail
    rw [show pushed.length - rest.length = pushed.length - (rest.length + 1) + 1 by omega]
    exact tail
  · rw [List.length_cons] at member
    rcases List.mem_append.mp member with old | new
    · have old := w.behind i old
      rw [List.length_cons] at old
      omega
    · obtain rfl := List.mem_singleton.mp new
      omega
  · rw [List.length_cons]
    by_cases same : i = pushed.length - (rest.length + 1)
    · exact .inl (List.mem_append_right _ (List.mem_singleton.mpr same))
    · rcases w.settled i (by rw [List.length_cons]; omega) with gone | aged
      · exact .inl (List.mem_append_left _ gone)
      · exact .inr aged

theorem map (w : Window n pushed taken contents) (f : α → β) :
    Window n (pushed.map f) taken (contents.map f) where
  short := by rw [List.length_map]; exact w.short
  suffix := by
    rw [List.length_map, List.length_map, ← List.map_drop]
    exact congrArg _ w.suffix
  behind := by rw [List.length_map, List.length_map]; exact w.behind
  settled := by rw [List.length_map, List.length_map]; exact w.settled

/-- The history determines the contents. -/
theorem contents_eq (w : Window n pushed taken contents) :
    contents = survivors n pushed taken := by
  have bounded := w.length_le
  have short := w.short
  obtain ⟨d, start⟩ : ∃ d, d = pushed.length - contents.length := ⟨_, rfl⟩
  have suffix : contents = pushed.drop d := start ▸ w.suffix
  have split : pushed.zipIdx =
      (pushed.take d).zipIdx ++ (pushed.drop d).zipIdx d := by
    conv_lhs => rw [← List.take_append_drop d pushed]
    rw [List.zipIdx_append, List.length_take, Nat.min_eq_left (by omega), Nat.zero_add]
  have before : (pushed.take d).zipIdx.filter
      (fun x => x.2 ∉ taken ∧ pushed.length - (x.2 + 1) < n) = [] := by
    refine List.filter_eq_nil_iff.mpr fun x member => ?_
    have position := (List.mem_zipIdx' member).1
    rw [List.length_take] at position
    have gone := w.settled x.2 (by omega)
    simpa using fun kept => gone.resolve_left kept
  have after : ((pushed.drop d).zipIdx d).filter
      (fun x => x.2 ∉ taken ∧ pushed.length - (x.2 + 1) < n) = (pushed.drop d).zipIdx d := by
    refine List.filter_eq_self.mpr fun x member => ?_
    have position := (List.mem_zipIdx member).1
    have there : x.2 ∉ taken := fun gone => by
      have := w.behind x.2 gone
      omega
    have recent : pushed.length - (x.2 + 1) < n := by
      have length := congrArg List.length suffix
      rw [List.length_drop] at length
      have inside := (List.mem_zipIdx member).2.1
      rw [List.length_drop] at inside
      omega
    simp [there, recent]
  rw [survivors, split, List.filter_append, before, after, List.nil_append, List.zipIdx_map_fst]
  exact suffix

end Window

end Fifo
