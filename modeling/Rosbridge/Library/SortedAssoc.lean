import Mathlib.Data.List.Basic

/-!
# Ordered maps as sorted association lists

The entries of an ordered map, listed by increasing key. `insert` replaces the value of a key
that is present and keeps the order, so two maps with the same entries are the same list.
-/

namespace SortedAssoc

variable {κ ν : Type*} [LT κ] [DecidableLT κ] [BEq κ] [LawfulBEq κ]

def Sorted (entries : List (κ × ν)) : Prop := entries.Pairwise (fun a b => a.1 < b.1)

def insert (key : κ) (value : ν) : List (κ × ν) → List (κ × ν)
  | [] => [(key, value)]
  | (k, v) :: rest =>
    if key < k then (key, value) :: (k, v) :: rest
    else if key == k then (key, value) :: rest
    else (k, v) :: insert key value rest

theorem lookup_insert_self (key : κ) (value : ν) (entries : List (κ × ν)) :
    (insert key value entries).lookup key = some value := by
  induction entries with
  | nil => simp [insert]
  | cons entry rest ih =>
    obtain ⟨k, v⟩ := entry
    unfold insert
    split
    · simp
    · split
      · simp
      · rename_i _ different
        simpa [List.lookup_cons, different] using ih

theorem lookup_insert_of_ne {key other : κ} (value : ν) (entries : List (κ × ν))
    (different : other ≠ key) : (insert key value entries).lookup other = entries.lookup other := by
  have skip := beq_eq_false_iff_ne.mpr different
  induction entries with
  | nil => simp [insert, skip, List.lookup_cons]
  | cons entry rest ih =>
    obtain ⟨k, v⟩ := entry
    unfold insert
    split
    · simp [List.lookup_cons, skip]
    · split
      · rename_i _ same
        obtain rfl := eq_of_beq same
        simp [List.lookup_cons, skip]
      · simp [List.lookup_cons, ih]

omit [LawfulBEq κ] in
theorem mem_insert {key : κ} {value : ν} {entries : List (κ × ν)} {entry : κ × ν}
    (member : entry ∈ insert key value entries) : entry = (key, value) ∨ entry ∈ entries := by
  induction entries with
  | nil => exact .inl (by simpa [insert] using member)
  | cons head rest ih =>
    unfold insert at member
    split at member
    · simpa using member
    · split at member
      · rcases List.mem_cons.mp member with new | old
        · exact .inl new
        · exact .inr (List.mem_cons_of_mem _ old)
      · rcases List.mem_cons.mp member with first | later
        · exact .inr (first ▸ List.mem_cons_self)
        · exact (ih later).imp_right (List.mem_cons_of_mem _)

omit [LT κ] [DecidableLT κ] in
theorem mem_of_lookup {key : κ} {value : ν} {entries : List (κ × ν)}
    (found : entries.lookup key = some value) : (key, value) ∈ entries := by
  obtain ⟨before, after, split, -⟩ := List.lookup_eq_some_iff.mp found
  rw [split]
  exact List.mem_append_right _ List.mem_cons_self

section Order

variable [Trans (α := κ) (· < ·) (· < ·) (· < ·)] [Std.Trichotomous (α := κ) (· < ·)]

theorem insert_sorted (key : κ) (value : ν) {entries : List (κ × ν)} (sorted : Sorted entries) :
    Sorted (insert key value entries) := by
  induction entries with
  | nil => simp [insert, Sorted]
  | cons entry rest ih =>
    obtain ⟨k, v⟩ := entry
    obtain ⟨first, others⟩ := List.pairwise_cons.mp sorted
    unfold insert
    split
    · rename_i before
      refine List.pairwise_cons.mpr ⟨?_, sorted⟩
      intro later member
      rcases List.mem_cons.mp member with rfl | member
      · exact before
      · exact Std.lt_trans before (first later member)
    · rename_i notBefore
      split
      · rename_i same
        obtain rfl := eq_of_beq same
        exact List.pairwise_cons.mpr ⟨first, others⟩
      · rename_i different
        refine List.pairwise_cons.mpr ⟨?_, ih others⟩
        intro later member
        rcases mem_insert member with rfl | member
        · rcases Std.lt_trichotomy key k with before | same | after
          · exact absurd before notBefore
          · exact absurd (beq_iff_eq.mpr same) different
          · exact after
        · exact first later member

end Order

section Strict

variable [Std.Irrefl (α := κ) (· < ·)] [Std.Asymm (α := κ) (· < ·)]

theorem insert_last {key : κ} (value : ν) {entries : List (κ × ν)} (greatest : ∀ entry ∈ entries, entry.1 < key) :
    insert key value entries = entries ++ [(key, value)] := by
  induction entries with
  | nil => rfl
  | cons entry rest ih =>
    obtain ⟨k, v⟩ := entry
    obtain ⟨less, others⟩ := List.forall_mem_cons.mp greatest
    have different : key ≠ k := by
      rintro rfl
      exact Std.Irrefl.irrefl _ less
    rw [insert, if_neg (Std.Asymm.asymm _ _ less), if_neg (by simpa using different), ih others, List.cons_append]

end Strict

end SortedAssoc
