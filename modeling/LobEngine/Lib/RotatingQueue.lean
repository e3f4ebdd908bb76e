import Mathlib.Data.List.Induction

/-!
# Queues whose members may go back to the end

Members join a queue at the back, leave it from any place, or go back to its end. Who stands
ahead of a member stays ahead until it leaves or goes back itself, and who joins later stays
behind.
-/

universe u

namespace RotatingQueue

/-- What can happen to a queue. -/
inductive Action (α : Type u) where
  | stay
  | join (a : α)
  | leave (a : α)
  | requeue (a : α)

variable {α : Type u} [BEq α] [LawfulBEq α]

/-- The queue after an action. -/
def step (q : List α) : Action α → List α
  | .stay => q
  | .join a => q ++ [a]
  | .leave a => q.filter (· != a)
  | .requeue a => q.filter (· != a) ++ [a]

/-- The queue after a list of actions. -/
def run (acts : List (Action α)) (q : List α) : List α := acts.foldl step q

variable {q : List α} {x y z : α} {act : Action α} {acts : List (Action α)}

omit [LawfulBEq α] in
@[simp] theorem run_nil (q : List α) : run [] q = q := rfl

omit [LawfulBEq α] in
theorem run_concat (acts : List (Action α)) (act : Action α) (q : List α) :
    run (acts ++ [act]) q = step (run acts q) act := by
  rw [run, List.foldl_append]
  rfl

/-- Some `y` stands ahead of every `x`. -/
def Ahead (y x : α) (q : List α) : Prop := ∃ front back, q = front ++ back ∧ y ∈ front ∧ x ∉ front

/-- Some `x` stands ahead of every `z`. -/
def Behind (z x : α) (q : List α) : Prop := ∃ front back, q = front ++ x :: back ∧ z ∉ front

/-! ### Standing ahead -/

omit [BEq α] [LawfulBEq α] in
theorem Ahead.head?_ne (h : Ahead y x q) : q.head? ≠ some x := by
  obtain ⟨front, back, rfl, hy, hx⟩ := h
  intro hhead
  cases front with
  | nil => exact absurd hy List.not_mem_nil
  | cons a front =>
    obtain rfl := Option.some.inj hhead
    exact hx List.mem_cons_self

/-- Only leaving or going back gives up the place. -/
theorem Ahead.step (h : Ahead y x q) (hleave : act ≠ .leave y) (hrequeue : act ≠ .requeue y) :
    Ahead y x (step q act) := by
  obtain ⟨front, back, rfl, hy, hx⟩ := h
  have hkeep {a : α} (ha : y ≠ a) : y ∈ front.filter (· != a) ∧ x ∉ front.filter (· != a) :=
    ⟨List.mem_filter.mpr ⟨hy, bne_iff_ne.mpr ha⟩, fun hmem ↦ hx (List.mem_filter.mp hmem).1⟩
  cases act with
  | stay => exact ⟨front, back, rfl, hy, hx⟩
  | join a => exact ⟨front, back ++ [a], List.append_assoc _ _ _, hy, hx⟩
  | leave a =>
    have ha : y ≠ a := fun he ↦ hleave (he ▸ rfl)
    exact ⟨_, _, List.filter_append _ _, hkeep ha⟩
  | requeue a =>
    have ha : y ≠ a := fun he ↦ hrequeue (he ▸ rfl)
    refine ⟨front.filter (· != a), back.filter (· != a) ++ [a], ?_, hkeep ha⟩
    rw [RotatingQueue.step, List.filter_append, List.append_assoc]

theorem Ahead.run (h : Ahead y x q) (hleave : .leave y ∉ acts) (hrequeue : .requeue y ∉ acts) :
    Ahead y x (run acts q) := by
  induction acts using List.reverseRecOn with
  | nil => exact h
  | append_singleton acts act ih =>
    rw [List.mem_append, not_or] at hleave hrequeue
    rw [run_concat]
    apply (ih hleave.1 hrequeue.1).step
    · exact fun he ↦ hleave.2 (List.mem_singleton.mpr he.symm)
    · exact fun he ↦ hrequeue.2 (List.mem_singleton.mpr he.symm)

/-- After `x` has gone back, it comes to the front only once every other member that was in the
queue has left or gone back too. -/
theorem requeued_waits (hy : y ∈ q) (hne : y ≠ x)
    (hhead : (run acts (step q (.requeue x))).head? = some x) :
    .leave y ∈ acts ∨ .requeue y ∈ acts := by
  by_contra hnone
  rw [not_or] at hnone
  have hahead : Ahead y x (step q (.requeue x)) := by
    refine ⟨q.filter (· != x), [x], rfl, List.mem_filter.mpr ⟨hy, bne_iff_ne.mpr hne⟩, ?_⟩
    intro hx
    exact absurd (List.mem_filter.mp hx).2 (by simp)
  exact (hahead.run hnone.1 hnone.2).head?_ne hhead

/-- A member that some others stand in front of, or that has not joined yet, comes to the front
only after these have left or gone back. -/
theorem ahead_waits {front back : List α} (hy : y ∈ front) (hx : x ∉ front)
    (hhead : (run acts (front ++ back)).head? = some x) : .leave y ∈ acts ∨ .requeue y ∈ acts := by
  by_contra hnone
  rw [not_or] at hnone
  have hahead : Ahead y x (front ++ back) := ⟨front, back, rfl, hy, hx⟩
  exact (hahead.run hnone.1 hnone.2).head?_ne hhead

/-! ### Standing behind -/

omit [BEq α] [LawfulBEq α] in
theorem Behind.head?_ne (h : Behind z x q) (hne : z ≠ x) : q.head? ≠ some z := by
  obtain ⟨front, back, rfl, hz⟩ := h
  intro hhead
  cases front with
  | nil => exact hne (Option.some.inj hhead).symm
  | cons a front =>
    obtain rfl := Option.some.inj hhead
    exact hz List.mem_cons_self

/-- Only leaving or going back lets others pass. -/
theorem Behind.step (h : Behind z x q) (hleave : act ≠ .leave x) (hrequeue : act ≠ .requeue x) :
    Behind z x (step q act) := by
  obtain ⟨front, back, rfl, hz⟩ := h
  have hkeep {a : α} (ha : x ≠ a) : (front ++ x :: back).filter (· != a) =
      front.filter (· != a) ++ x :: back.filter (· != a) := by
    have hxa : (x != a) = true := bne_iff_ne.mpr ha
    rw [List.filter_append, List.filter_cons, hxa, if_pos rfl]
  have hout (a : α) : z ∉ front.filter (· != a) := fun hmem ↦ hz (List.mem_filter.mp hmem).1
  cases act with
  | stay => exact ⟨front, back, rfl, hz⟩
  | join a => exact ⟨front, back ++ [a], List.append_assoc _ _ _, hz⟩
  | leave a =>
    have ha : x ≠ a := fun he ↦ hleave (he ▸ rfl)
    exact ⟨_, _, hkeep ha, hout a⟩
  | requeue a =>
    have ha : x ≠ a := fun he ↦ hrequeue (he ▸ rfl)
    refine ⟨front.filter (· != a), back.filter (· != a) ++ [a], ?_, hout a⟩
    rw [RotatingQueue.step, hkeep ha, List.append_assoc, List.cons_append]

theorem Behind.run (h : Behind z x q) (hleave : .leave x ∉ acts) (hrequeue : .requeue x ∉ acts) :
    Behind z x (run acts q) := by
  induction acts using List.reverseRecOn with
  | nil => exact h
  | append_singleton acts act ih =>
    rw [List.mem_append, not_or] at hleave hrequeue
    rw [run_concat]
    apply (ih hleave.1 hrequeue.1).step
    · exact fun he ↦ hleave.2 (List.mem_singleton.mpr he.symm)
    · exact fun he ↦ hrequeue.2 (List.mem_singleton.mpr he.symm)

/-- Who is not in the queue comes to the front only after every member has left or gone back. -/
theorem newcomer_waits (hx : x ∈ q) (hz : z ∉ q) (hhead : (run acts q).head? = some z) :
    .leave x ∈ acts ∨ .requeue x ∈ acts := by
  by_contra hnone
  rw [not_or] at hnone
  have hne : z ≠ x := by
    rintro rfl
    exact hz hx
  obtain ⟨front, back, rfl⟩ := List.append_of_mem hx
  have hbehind : Behind z x (front ++ x :: back) :=
    ⟨front, back, rfl, fun hmem ↦ hz (List.mem_append_left _ hmem)⟩
  exact (hbehind.run hnone.1 hnone.2).head?_ne hne hhead

end RotatingQueue
