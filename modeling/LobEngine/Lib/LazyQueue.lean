import Mathlib.Data.Finset.Basic
import Mathlib.Data.Finset.Card
import Mathlib.Data.List.Nodup

/-!
# A queue with lazy deletion

Removal marks an element and leaves its entry in place; marked entries are dropped
when they reach the front. Under `Valid` (no element has two entries, every mark has
an entry) the queue behaves as the list `live` with eager deletion.
-/

universe u

/-- A list of entries and the set of elements whose entry is dead. -/
structure LazyQueue (α : Type u) where
  queue : List α
  cancelled : Finset α

namespace LazyQueue

variable {α : Type u} [DecidableEq α]

/-- Drop dead entries from the front, forgetting each mark with the entry it drops. -/
def drainAux : List α → Finset α → LazyQueue α
  | [], dead => ⟨[], dead⟩
  | x :: xs, dead => if x ∈ dead then drainAux xs (dead.erase x) else ⟨x :: xs, dead⟩

/-- The queue after its dead prefix has been dropped. -/
def drain (q : LazyQueue α) : LazyQueue α := drainAux q.queue q.cancelled

/-- The entries that are not marked, in queue order. -/
def live (q : LazyQueue α) : List α := q.queue.filter (· ∉ q.cancelled)

/-- Append an entry. -/
def push (q : LazyQueue α) (x : α) : LazyQueue α := { q with queue := q.queue ++ [x] }

/-- Mark an element as removed. -/
def mark (q : LazyQueue α) (x : α) : LazyQueue α := { q with cancelled := insert x q.cancelled }

/-- No element has two entries and every mark has an entry. -/
structure Valid (q : LazyQueue α) : Prop where
  nodup : q.queue.Nodup
  marks : ∀ x ∈ q.cancelled, x ∈ q.queue

theorem mem_live {q : LazyQueue α} {x : α} : x ∈ q.live ↔ x ∈ q.queue ∧ x ∉ q.cancelled := by
  simp [live]

theorem live_nodup {q : LazyQueue α} (h : q.Valid) : q.live.Nodup := h.nodup.filter _

private theorem filter_congr_erase {x : α} {xs : List α} {dead : Finset α} (hx : x ∉ xs) :
    xs.filter (· ∉ dead.erase x) = xs.filter (· ∉ dead) := by
  apply List.filter_congr
  intro y hy
  have hne : y ≠ x := fun he ↦ hx (he ▸ hy)
  simp [hne]

private theorem drainAux_spec (xs : List α) (dead : Finset α) (hn : xs.Nodup)
    (hm : ∀ x ∈ dead, x ∈ xs) :
    (drainAux xs dead).Valid ∧ (drainAux xs dead).live = xs.filter (· ∉ dead) ∧
      (∀ x ∈ (drainAux xs dead).queue, x ∈ xs) ∧
      ∀ y ∈ (drainAux xs dead).queue.head?, y ∉ (drainAux xs dead).cancelled := by
  induction xs generalizing dead with
  | nil =>
    refine ⟨⟨List.nodup_nil, hm⟩, ?_⟩
    simp [drainAux, live]
  | cons x xs ih =>
    have hxs := List.nodup_cons.mp hn
    by_cases hx : x ∈ dead
    · have hm' : ∀ y ∈ dead.erase x, y ∈ xs := by
        intro y hy
        have hy' := Finset.mem_erase.mp hy
        exact (List.mem_cons.mp (hm y hy'.2)).resolve_left hy'.1
      obtain ⟨hv, hl, hs, hh⟩ := ih (dead.erase x) hxs.2 hm'
      simp only [drainAux, hx, ↓reduceIte]
      refine ⟨hv, ?_, fun y hy ↦ List.mem_cons_of_mem x (hs y hy), hh⟩
      rw [hl, filter_congr_erase hxs.1]
      simp [hx]
    · simp only [drainAux, hx, ↓reduceIte]
      refine ⟨⟨hn, hm⟩, rfl, fun y hy ↦ hy, ?_⟩
      simpa using hx

theorem drain_valid {q : LazyQueue α} (h : q.Valid) : q.drain.Valid :=
  (drainAux_spec q.queue q.cancelled h.nodup h.marks).1

/-- Draining is invisible in the live list. -/
theorem live_drain {q : LazyQueue α} (h : q.Valid) : q.drain.live = q.live :=
  (drainAux_spec q.queue q.cancelled h.nodup h.marks).2.1

theorem mem_of_mem_drain {q : LazyQueue α} (h : q.Valid) {x : α} (hx : x ∈ q.drain.queue) :
    x ∈ q.queue :=
  (drainAux_spec q.queue q.cancelled h.nodup h.marks).2.2.1 x hx

/-- After draining, the front entry is the head of the live list. -/
theorem head?_drain {q : LazyQueue α} (h : q.Valid) : q.drain.queue.head? = q.live.head? := by
  have hh := (drainAux_spec q.queue q.cancelled h.nodup h.marks).2.2.2
  rw [← live_drain h]
  cases hq : q.drain.queue with
  | nil => simp [live, hq]
  | cons x xs =>
    have hx : x ∉ q.drain.cancelled := hh x (by simp only [drain] at hq; simp [hq])
    simp [live, hq, hx]

/-- After draining, popping the front entry pops the live list. -/
theorem drain_queue_eq {q : LazyQueue α} (h : q.Valid) {x : α} {xs : List α}
    (hl : q.live = x :: xs) : ∃ ys, q.drain.queue = x :: ys ∧ x ∉ q.drain.cancelled ∧
      ys.filter (· ∉ q.drain.cancelled) = xs := by
  have hhead := head?_drain h
  have hlive := live_drain h
  rw [hl] at hhead hlive
  cases hq : q.drain.queue with
  | nil => simp [hq] at hhead
  | cons y ys =>
    obtain rfl : y = x := by simpa [hq] using hhead
    have hy : y ∉ q.drain.cancelled := by
      have hmem : y ∈ q.drain.live := by rw [hlive]; exact List.mem_cons_self
      exact (mem_live.mp hmem).2
    refine ⟨ys, rfl, hy, ?_⟩
    rw [live, hq, List.filter_cons_of_pos (by simpa using hy)] at hlive
    exact (List.cons.inj hlive).2

omit [DecidableEq α] in
theorem push_valid {q : LazyQueue α} (h : q.Valid) {x : α} (hx : x ∉ q.queue) :
    (q.push x).Valid where
  nodup := by
    rw [push, List.nodup_append]
    refine ⟨h.nodup, List.nodup_singleton x, ?_⟩
    intro y hy z hz
    rw [List.mem_singleton.mp hz]
    exact fun he ↦ hx (he ▸ hy)
  marks y hy := List.mem_append_left [x] (h.marks y hy)

/-- A new element joins the live list at the back. -/
theorem live_push {q : LazyQueue α} (h : q.Valid) {x : α} (hx : x ∉ q.queue) :
    (q.push x).live = q.live ++ [x] := by
  have hd : x ∉ q.cancelled := fun hc ↦ hx (h.marks x hc)
  rw [live, push, List.filter_append, live]
  simp [hd]

theorem mark_valid {q : LazyQueue α} (h : q.Valid) {x : α} (hx : x ∈ q.queue) :
    (q.mark x).Valid where
  nodup := h.nodup
  marks y hy := by
    rcases Finset.mem_insert.mp hy with rfl | hy
    · exact hx
    · exact h.marks y hy

/-- Marking an element erases it from the live list. -/
theorem live_mark {q : LazyQueue α} (h : q.Valid) (x : α) :
    (q.mark x).live = q.live.erase x := by
  rw [(live_nodup h).erase_eq_filter, live, live, List.filter_filter]
  apply List.filter_congr
  intro y _
  by_cases hy : y = x <;> simp [mark, hy]

private theorem drainAux_subset (xs : List α) (dead : Finset α) {x : α}
    (hx : x ∈ (drainAux xs dead).queue) : x ∈ xs := by
  induction xs generalizing dead with
  | nil => exact hx
  | cons y ys ih =>
    rw [drainAux] at hx
    split at hx
    · exact List.mem_cons_of_mem y (ih _ hx)
    · exact hx

/-- The first live element leaves no entry behind when it is marked and the queue drained. -/
theorem not_mem_drain_mark {q : LazyQueue α} (h : q.Valid) {x : α}
    (hl : q.live.head? = some x) : x ∉ (q.mark x).drain.queue := by
  obtain ⟨queue, dead⟩ := q
  have hx : x ∉ dead := (mem_live.mp (List.mem_of_mem_head? hl)).2
  have hn := h.nodup
  change x ∉ (drainAux queue (insert x dead)).queue
  simp only [live] at hl
  simp only at hn
  clear h
  -- the entries in front of `x` are dead; the induction drops them one by one
  induction queue generalizing dead with
  | nil => exact absurd hl (by simp)
  | cons y ys ih =>
    have hys := List.nodup_cons.mp hn
    by_cases hy : y ∈ dead
    · have hne : y ≠ x := fun he ↦ hx (he ▸ hy)
      rw [drainAux, if_pos (Finset.mem_insert_of_mem hy), Finset.erase_insert_of_ne hne.symm]
      refine ih (dead.erase y) ?_ (fun hc ↦ hx (Finset.mem_of_mem_erase hc)) hys.2
      rw [filter_congr_erase hys.1]
      simpa [hy] using hl
    · have he : y = x := by simpa [hy] using hl
      subst he
      rw [drainAux, if_pos (Finset.mem_insert_self y dead)]
      exact fun hc ↦ hys.1 (drainAux_subset _ _ hc)

/-- Entries are live or marked. -/
theorem length_live_add_card {q : LazyQueue α} (h : q.Valid) :
    q.live.length + q.cancelled.card = q.queue.length := by
  have hdead : (q.queue.filter (· ∈ q.cancelled)).length = q.cancelled.card := by
    rw [← List.toFinset_card_of_nodup (h.nodup.filter _)]
    congr 1
    ext x
    simp only [List.mem_toFinset, List.mem_filter, decide_eq_true_eq]
    exact ⟨fun hx ↦ hx.2, fun hx ↦ ⟨h.marks x hx, hx⟩⟩
  have hsplit := List.length_eq_length_filter_add (l := q.queue) (fun x ↦ decide (x ∈ q.cancelled))
  have hlive : q.live = q.queue.filter (fun x ↦ !decide (x ∈ q.cancelled)) := by
    apply List.filter_congr
    intro x _
    simp
  rw [hlive]
  omega

end LazyQueue
