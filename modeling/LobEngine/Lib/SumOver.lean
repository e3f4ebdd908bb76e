import Mathlib.Algebra.BigOperators.Group.List.Basic
import Mathlib.Algebra.GroupWithZero.Nat
import Mathlib.Data.List.Perm.Basic

/-!
# Sums over part of a list

The sum of a measure over the elements of a list that satisfy a test, such as the amounts
booked under one key.
-/

namespace List

universe u

variable {α : Type u} {p : α → Bool} {f : α → Nat} {a : α} {xs ys : List α}

/-- The sum of `f` over the elements that satisfy `p`. -/
def sumOver (p : α → Bool) (f : α → Nat) (xs : List α) : Nat := ((xs.filter p).map f).sum

@[simp] theorem sumOver_nil : sumOver p f [] = 0 := rfl

theorem sumOver_cons (p : α → Bool) (f : α → Nat) (a : α) (xs : List α) :
    sumOver p f (a :: xs) = (if p a then f a else 0) + sumOver p f xs := by
  rw [sumOver, filter_cons]
  split
  · rw [map_cons, sum_cons, sumOver]
  · rw [Nat.zero_add, sumOver]

theorem sumOver_append (p : α → Bool) (f : α → Nat) (xs ys : List α) :
    sumOver p f (xs ++ ys) = sumOver p f xs + sumOver p f ys := by
  rw [sumOver, filter_append, map_append, sum_append, sumOver, sumOver]

theorem Perm.sumOver_eq (h : Perm xs ys) : sumOver p f xs = sumOver p f ys :=
  ((h.filter p).map f).sum_nat

theorem Sublist.sumOver_le (h : Sublist xs ys) : sumOver p f xs ≤ sumOver p f ys := by
  induction h with
  | slnil => exact Nat.le_refl _
  | cons a _ ih =>
    rw [sumOver_cons]
    omega
  | cons_cons a _ ih =>
    rw [sumOver_cons, sumOver_cons]
    omega

/-- A larger measure has a larger sum. -/
theorem sumOver_le_sumOver {g : α → Nat} (h : ∀ x, f x ≤ g x) (xs : List α) :
    sumOver p f xs ≤ sumOver p g xs := by
  induction xs with
  | nil => exact Nat.le_refl _
  | cons a xs ih =>
    have ha := h a
    rw [sumOver_cons, sumOver_cons]
    split
    · omega
    · omega

/-- Elements that fail the test do not count. -/
theorem sumOver_eq_zero (h : ∀ x ∈ xs, p x = false) : sumOver p f xs = 0 := by
  have hnil : xs.filter p = [] := filter_eq_nil_iff.mpr fun x hx ↦ by simp [h x hx]
  rw [sumOver, hnil]
  rfl

/-- Dropping elements that fail the test changes nothing. -/
theorem sumOver_filter {q : α → Bool} (h : ∀ x ∈ xs, p x = true → q x = true) :
    sumOver p f (xs.filter q) = sumOver p f xs := by
  rw [sumOver, filter_filter, sumOver]
  congr 2
  apply filter_congr
  intro x hx
  cases hp : p x with
  | false => rfl
  | true => rw [h x hx hp]; rfl

/-- Where keys are distinct, the sum under a key that occurs has one summand. -/
theorem sumOver_eq_of_mem {κ : Type} [BEq κ] [LawfulBEq κ] {key : α → κ} (hn : (xs.map key).Nodup)
    (ha : a ∈ xs) : sumOver (key · == key a) f xs = f a := by
  obtain ⟨l, r, rfl⟩ := append_of_mem ha
  rw [perm_middle.sumOver_eq, sumOver_cons, if_pos (beq_self_eq_true _), sumOver_eq_zero,
    Nat.add_zero]
  intro x hx
  rw [(perm_middle.map key).nodup_iff, map_cons, nodup_cons] at hn
  exact beq_eq_false_iff_ne.mpr fun he ↦ hn.1 (he ▸ mem_map_of_mem hx)

end List
