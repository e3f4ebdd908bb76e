import Mathlib.Algebra.Group.Defs
import Mathlib.Data.List.Basic

/-!
# The first index at which a running sum reaches a target

The sums need not increase: words that wrap around are summed the same way.
-/

universe u v

variable {ι : Type u} {M : Type v} [AddZeroClass M] [LE M] [DecidableLE M]

/-- The first index in the list at which the sum of the weights so far reaches the target. -/
def firstReach (weight : ι → M) (target : M) : M → List ι → Option ι
  | _, [] => none
  | sum, i :: is =>
    if target ≤ sum + weight i then some i else firstReach weight target (sum + weight i) is

variable {weight : ι → M} {target target' sum : M} {is : List ι} {i : ι}

theorem firstReach_cons_of_le (h : target ≤ sum + weight i) :
    firstReach weight target sum (i :: is) = some i := if_pos h

theorem mem_of_firstReach (h : firstReach weight target sum is = some i) : i ∈ is := by
  induction is generalizing sum with
  | nil => cases h
  | cons j js ih =>
    rw [firstReach] at h
    split at h
    · obtain rfl := Option.some.inj h
      exact List.mem_cons_self
    · exact List.mem_cons_of_mem j (ih h)

/-- The index at which the sum first reaches the target has a weight. -/
theorem weight_ne_zero_of_firstReach (hs : ¬target ≤ sum)
    (h : firstReach weight target sum is = some i) : weight i ≠ 0 := by
  induction is generalizing sum with
  | nil => cases h
  | cons j js ih =>
    rw [firstReach] at h
    split at h
    · next hreach =>
      obtain rfl := Option.some.inj h
      intro hz
      rw [hz, add_zero] at hreach
      exact hs hreach
    · next hreach => exact ih hreach h

/-- A greater target is reached at the same index or at a later one. -/
theorem firstReach_mono [Std.IsPreorder M] (hle : target ≤ target')
    (h : firstReach weight target' sum is = some i) :
    ∃ j, firstReach weight target sum is = some j ∧ (j = i ∨ [j, i].Sublist is) := by
  induction is generalizing sum with
  | nil => cases h
  | cons j js ih =>
    rw [firstReach] at h ⊢
    by_cases hreach : target ≤ sum + weight j
    · rw [if_pos hreach]
      refine ⟨j, rfl, ?_⟩
      split at h
      · exact .inl (Option.some.inj h)
      · exact .inr ((List.singleton_sublist.mpr (mem_of_firstReach h)).cons_cons j)
    · rw [if_neg fun ht ↦ hreach (Std.le_trans hle ht)] at h
      rw [if_neg hreach]
      obtain ⟨k, hk, hki⟩ := ih h
      exact ⟨k, hk, hki.imp_right fun hsub ↦ hsub.cons j⟩
