import Mathlib.Data.List.DropRight

/-!
# The most recent elements of a list

`List.rtake n` keeps the last `n` elements. These lemmas say how it composes with appending,
which is what a bounded queue that drops its oldest elements does.
-/

namespace Recent

variable {α β : Type*}

theorem rtake_append (xs ys : List α) (n : Nat) :
    (xs ++ ys).rtake n = xs.rtake (n - ys.length) ++ ys.rtake n := by
  simp only [List.rtake, List.length_append, List.drop_append]
  rcases Nat.le_total n ys.length with full | room
  · rw [List.drop_eq_nil_of_le (by omega), @List.drop_eq_nil_of_le _ xs (xs.length - (n - ys.length)) (by omega)]
    congr 2
    omega
  · congr 2 <;> omega

theorem rtake_of_length_le {xs : List α} {n : Nat} (h : xs.length ≤ n) : xs.rtake n = xs := by
  simp [List.rtake, Nat.sub_eq_zero_of_le h]

theorem length_rtake (xs : List α) (n : Nat) : (xs.rtake n).length = min n xs.length := by
  simp only [List.rtake, List.length_drop]
  omega

theorem rtake_rtake (xs : List α) {m n : Nat} (h : m ≤ n) : (xs.rtake n).rtake m = xs.rtake m := by
  unfold List.rtake
  rw [List.drop_drop, List.length_drop]
  congr 1
  omega

/-- Dropping the oldest elements early changes nothing that is kept later. -/
theorem rtake_append_rtake (xs ys : List α) (n : Nat) :
    (xs.rtake n ++ ys).rtake n = (xs ++ ys).rtake n := by
  rw [rtake_append, rtake_append xs, rtake_rtake xs (Nat.sub_le n ys.length)]

theorem rtake_concat_of_lt {xs : List α} {n : Nat} (x : α) (h : xs.length < n) :
    (xs ++ [x]).rtake n = xs ++ [x] :=
  rtake_of_length_le (by simp; omega)

theorem rtake_suffix (xs : List α) (n : Nat) : xs.rtake n <:+ xs := List.drop_suffix _ _

end Recent
