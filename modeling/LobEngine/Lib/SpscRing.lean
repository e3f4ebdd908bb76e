import LobEngine.Lib.BoundedQueue
import Mathlib.Data.Nat.Bitwise
import Mathlib.Data.UInt
import Mathlib.Tactic.Positivity

/-!
# A ring buffer between two threads

A ring of `2 ^ k` slots with a cursor for the reader and one for the writer, both 32-bit words
that wrap under a mask. One slot stays free, so that equal cursors mean an empty ring. What the
ring holds is the list of the slots from the reader's cursor to the writer's, and on it pushing
and popping are those of a bounded queue.
-/

namespace SpscRing

/-- The cursor behind a cursor. -/
def next (k : Fin 32) (i : UInt32) : UInt32 := (i + 1) &&& UInt32.ofNat (2 ^ k.val - 1)

theorem toNat_next (k : Fin 32) (i : UInt32) : (next k i).toNat = (i.toNat + 1) % 2 ^ k.val := by
  have hpow : 2 ^ k.val ≤ 2 ^ 32 := Nat.pow_le_pow_right (by decide) k.isLt.le
  have hdvd : 2 ^ k.val ∣ 2 ^ 32 := Nat.pow_dvd_pow 2 k.isLt.le
  have hmask : (UInt32.ofNat (2 ^ k.val - 1)).toNat = 2 ^ k.val - 1 := by
    rw [UInt32.toNat_ofNat']
    have hpos : 0 < 2 ^ k.val := by positivity
    exact Nat.mod_eq_of_lt (by omega)
  rw [next, UInt32.toNat_and, hmask, Nat.and_two_pow_sub_one_eq_mod, UInt32.toNat_add,
    UInt32.toNat_one, Nat.mod_mod_of_dvd _ hdvd]

theorem next_lt (k : Fin 32) (i : UInt32) : (next k i).toNat < 2 ^ k.val := by
  rw [toNat_next]
  exact Nat.mod_lt _ (by positivity)

/-- Going on from a position wraps at most once. -/
theorem add_mod_eq {a b n : Nat} (ha : a < n) (hb : b ≤ n) :
    (a + b) % n = if a + b < n then a + b else a + b - n := by
  split
  · next h => exact Nat.mod_eq_of_lt h
  · next h => rw [Nat.mod_eq_sub_mod (by omega), Nat.mod_eq_of_lt (by omega)]

end SpscRing

/-- A ring of `2 ^ k` slots; its cursors are positions of slots. -/
structure SpscRing (α : Type) (k : Fin 32) where
  buffer : Vector α (2 ^ k.val)
  head : UInt32
  tail : UInt32
  head_lt : head.toNat < 2 ^ k.val
  tail_lt : tail.toNat < 2 ^ k.val

namespace SpscRing

variable {α : Type} {k : Fin 32}

/-- A new ring. -/
def init (k : Fin 32) (x : α) : SpscRing α k where
  buffer := Vector.replicate _ x
  head := 0
  tail := 0
  head_lt := by rw [UInt32.toNat_zero]; positivity
  tail_lt := by rw [UInt32.toNat_zero]; positivity

/-- Write behind the last item, unless the ring is full. -/
def push (r : SpscRing α k) (x : α) : Option (SpscRing α k) :=
  if next k r.tail = r.head then none
  else
    some
      { r with
        buffer := r.buffer.set r.tail.toNat x r.tail_lt
        tail := next k r.tail
        tail_lt := next_lt k r.tail }

/-- Read the first item, unless the ring is empty. -/
def pop (r : SpscRing α k) : Option (α × SpscRing α k) :=
  if r.head = r.tail then none
  else
    some (r.buffer.get ⟨r.head.toNat, r.head_lt⟩,
      { r with head := next k r.head, head_lt := next_lt k r.head })

/-! ### What a ring holds -/

/-- The number of items. -/
def used (r : SpscRing α k) : Nat :=
  if r.head.toNat ≤ r.tail.toNat then r.tail.toNat - r.head.toNat
  else r.tail.toNat + 2 ^ k.val - r.head.toNat

/-- The item at a distance from the reader's cursor. -/
def item (r : SpscRing α k) (i : Nat) : α :=
  r.buffer.get ⟨(r.head.toNat + i) % 2 ^ k.val, Nat.mod_lt _ (by positivity)⟩

/-- The items, first in first. -/
def contents (r : SpscRing α k) : List α := (List.range r.used).map r.item

variable {r r' : SpscRing α k} {x : α}

@[simp] theorem length_contents (r : SpscRing α k) : r.contents.length = r.used := by
  rw [contents, List.length_map, List.length_range]

@[simp] theorem contents_init (k : Fin 32) (x : α) : (init k x).contents = [] := rfl

/-- One slot stays free. -/
theorem used_lt (r : SpscRing α k) : r.used < 2 ^ k.val := by
  have hh := r.head_lt
  have ht := r.tail_lt
  unfold used
  split <;> omega

/-- A push fails on a full ring only. -/
theorem push_eq_none : r.push x = none ↔ r.used + 1 = 2 ^ k.val := by
  have hh := r.head_lt
  have ht := r.tail_lt
  have hnext := toNat_next k r.tail
  rw [add_mod_eq ht (by omega)] at hnext
  unfold push
  split
  · next he =>
    rw [he] at hnext
    simp only [true_iff]
    unfold used
    split at hnext <;> split <;> omega
  · next hne =>
    have hne' : (next k r.tail).toNat ≠ r.head.toNat := fun he ↦ hne (UInt32.toNat_inj.mp he)
    rw [hnext] at hne'
    simp only [reduceCtorEq, false_iff]
    unfold used
    split at hne' <;> split <;> omega

/-- A push adds its item behind the others. -/
theorem contents_push (h : r.push x = some r') : r'.contents = r.contents ++ [x] := by
  have hh := r.head_lt
  have ht := r.tail_lt
  have hroom : ¬r.used + 1 = 2 ^ k.val := fun he ↦ by
    rw [push_eq_none.mpr he] at h
    exact absurd h (by simp)
  unfold push at h
  split at h
  · exact absurd h (by simp)
  · obtain rfl := Option.some.inj h
    have hnext := toNat_next k r.tail
    rw [add_mod_eq ht (by omega)] at hnext
    have hused : used { r with buffer := r.buffer.set r.tail.toNat x r.tail_lt
                               tail := next k r.tail
                               tail_lt := next_lt k r.tail } = r.used + 1 := by
      unfold used at hroom ⊢
      simp only [hnext]
      split at hroom <;> split <;> split <;> omega
    rw [contents, hused, List.range_succ, List.map_append, List.map_singleton, contents]
    congr 1
    · apply List.map_congr_left
      intro i hi
      rw [List.mem_range] at hi
      have hne : r.tail.toNat ≠ (r.head.toNat + i) % 2 ^ k.val := by
        have hlt := r.used_lt
        rw [add_mod_eq hh (by omega)]
        unfold used at hi
        split at hi <;> split <;> omega
      exact Vector.getElem_set_ne r.tail_lt _ hne
    · have heq : (r.head.toNat + r.used) % 2 ^ k.val = r.tail.toNat := by
        have hlt := r.used_lt
        rw [add_mod_eq hh (by omega)]
        unfold used
        split <;> split <;> omega
      congr 1
      unfold item
      simp only [heq]
      exact Vector.getElem_set_self r.tail_lt

/-- A pop fails on an empty ring only. -/
theorem pop_eq_none : r.pop = none ↔ r.contents = [] := by
  have hh := r.head_lt
  have ht := r.tail_lt
  rw [← List.length_eq_zero_iff, length_contents]
  unfold pop
  split
  · next he =>
    simp only [true_iff]
    unfold used
    rw [he, if_pos (Nat.le_refl _), Nat.sub_self]
  · next hne =>
    have hne' : r.head.toNat ≠ r.tail.toNat := fun he ↦ hne (UInt32.toNat_inj.mp he)
    simp only [reduceCtorEq, false_iff]
    unfold used
    split <;> omega

/-- A pop takes the first item. -/
theorem contents_pop (h : r.pop = some (x, r')) : r.contents = x :: r'.contents := by
  have hh := r.head_lt
  have ht := r.tail_lt
  have hsome : ¬r.contents = [] := fun he ↦ by
    rw [pop_eq_none.mpr he] at h
    exact absurd h (by simp)
  unfold pop at h
  split at h
  · exact absurd h (by simp)
  · next hne =>
    obtain ⟨rfl, rfl⟩ := Prod.mk.inj (Option.some.inj h)
    have hne' : r.head.toNat ≠ r.tail.toNat := fun he ↦ hne (UInt32.toNat_inj.mp he)
    have hnext := toNat_next k r.head
    have hwrap := hnext
    rw [add_mod_eq hh (by omega)] at hwrap
    have hused : r.used =
        used { r with head := next k r.head, head_lt := next_lt k r.head } + 1 := by
      unfold used
      simp only [hwrap]
      split <;> split <;> split <;> omega
    rw [contents, hused, List.range_succ_eq_map, List.map_cons, List.map_map, contents]
    congr 1
    · unfold item
      congr 2
      rw [Nat.add_zero, Nat.mod_eq_of_lt hh]
    · apply List.map_congr_left
      intro i _
      unfold item
      simp only [Function.comp_apply, hnext]
      congr 2
      rw [Nat.mod_add_mod]
      congr 1
      omega

/-! ### The ring is a bounded queue -/

variable {ops : List (BoundedQueue.Op α)}

theorem run_push (h : BoundedQueue.Run (2 ^ k.val - 1) ops r.contents) (hp : r.push x = some r') :
    BoundedQueue.Run (2 ^ k.val - 1) (ops ++ [.accept x]) r'.contents := by
  rw [contents_push hp]
  apply h.accept
  have hroom : ¬r.used + 1 = 2 ^ k.val := fun he ↦ by
    rw [push_eq_none.mpr he] at hp
    exact absurd hp (by simp)
  have hlt := r.used_lt
  rw [length_contents]
  omega

theorem run_pop (h : BoundedQueue.Run (2 ^ k.val - 1) ops r.contents)
    (hp : r.pop = some (x, r')) :
    BoundedQueue.Run (2 ^ k.val - 1) (ops ++ [.take x]) r'.contents := by
  rw [contents_pop hp] at h
  exact h.take

end SpscRing
