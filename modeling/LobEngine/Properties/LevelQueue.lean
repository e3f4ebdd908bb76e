import LobEngine.Book.PriceLevel
import LobEngine.Lib.Interleaving

/-!
# A price level is a queue with deletion

A level reached by calls of its members observes as the list from which removed identifiers
have been erased at once, and the draining inside `front` and `empty` cannot be observed.
-/

namespace LobEngine

open PriceLevelOps LawfulPriceLevel Interleaving

/-- The calls of a price level, with their arguments. -/
inductive LevelCall
  | pushBack (id : OrderId) (visibleQty : Quantity)
  | remove (id : OrderId) (visibleQty : Quantity)
  | popFront (filledQty : Quantity)
  | front
  | empty

/-- The list with eager deletion: the live identifiers in order, and the identifiers pushed and
not popped since. The list itself is `live`; `pushed` only says which pushes are allowed. -/
structure Backlog where
  live : List OrderId := []
  pushed : Finset OrderId := ∅

namespace Backlog

/-- A call on the list. An identifier is pushed only if it was never pushed or has been popped
since, only live identifiers are removed, and `front` and `popFront` need a live one. -/
def step (b : Backlog) : LevelCall → Option Backlog
  | .pushBack id _ =>
    if id ∈ b.pushed then none else some ⟨b.live ++ [id], insert id b.pushed⟩
  | .remove id _ => if id ∈ b.live then some { b with live := b.live.erase id } else none
  | .popFront _ =>
    match b.live with
    | [] => none
    | id :: rest => some ⟨rest, b.pushed.erase id⟩
  | .front => if b.live.isEmpty then none else some b
  | .empty => some b

end Backlog

namespace LevelCall

variable {L : Type} [PriceLevelOps L]

/-- A call on the level, undefined where it reads the front of an empty deque. -/
def step (l : L) : LevelCall → Option L
  | .pushBack id visibleQty => some (PriceLevelOps.pushBack l id visibleQty)
  | .remove id visibleQty => some (PriceLevelOps.remove l id visibleQty)
  | .popFront filledQty => PriceLevelOps.popFront l filledQty
  | .front => (PriceLevelOps.front l).1.map fun _ ↦ (PriceLevelOps.front l).2
  | .empty => some (PriceLevelOps.empty l).2

end LevelCall

/-- The level is valid, its live identifiers are those of the list, and an entry that is left in
its queue has not been popped. -/
structure Backlog.Holds {L : Type} [PriceLevelOps L] [LawfulPriceLevel L] (l : L) (b : Backlog) :
    Prop where
  valid : Valid l
  ids : orderIds l = b.live
  pushed : ∀ id, LawfulPriceLevel.Holds l id → id ∈ b.pushed

namespace Backlog

variable {L : Type} [PriceLevelOps L] [LawfulPriceLevel L] {l : L} {b c : Backlog}

theorem Holds.front (h : Holds l b) : Holds (front l).2 b where
  valid := front_valid h.valid
  ids := (front_orderIds h.valid).trans h.ids
  pushed id hid := h.pushed id (front_holds h.valid hid)

theorem Holds.empty (h : Holds l b) : Holds (empty l).2 b where
  valid := empty_valid h.valid
  ids := (empty_orderIds h.valid).trans h.ids
  pushed id hid := h.pushed id (empty_holds h.valid hid)

theorem Holds.pushBack (h : Holds l b) {id : OrderId} (q : Quantity) (hid : id ∉ b.pushed) :
    Holds (pushBack l id q) ⟨b.live ++ [id], insert id b.pushed⟩ := by
  have hnew : ¬LawfulPriceLevel.Holds l id := fun hh ↦ hid (h.pushed id hh)
  refine ⟨pushBack_valid q h.valid hnew, ?_, fun x hx ↦ ?_⟩
  · rw [pushBack_orderIds q h.valid hnew, h.ids]
  · rcases pushBack_holds hx with hx | rfl
    · exact Finset.mem_insert_of_mem (h.pushed x hx)
    · exact Finset.mem_insert_self x b.pushed

theorem Holds.remove (h : Holds l b) {id : OrderId} (q : Quantity) (hid : id ∈ b.live) :
    Holds (remove l id q) { b with live := b.live.erase id } := by
  rw [← h.ids] at hid ⊢
  exact ⟨remove_valid q h.valid hid, remove_orderIds q h.valid hid,
    fun x hx ↦ h.pushed x (remove_holds hx)⟩

theorem Holds.popFront (h : Holds l b) {id : OrderId} {rest : List OrderId} (q : Quantity)
    (hlive : b.live = id :: rest) :
    ∃ l', popFront l q = some l' ∧ Holds l' ⟨rest, b.pushed.erase id⟩ := by
  obtain ⟨l', hpop, hvalid, hids, hgone, hsub⟩ := popFront_valid q h.valid (h.ids.trans hlive)
  refine ⟨l', hpop, hvalid, hids, fun x hx ↦ Finset.mem_erase.mpr ⟨?_, h.pushed x (hsub x hx)⟩⟩
  rintro rfl
  exact hgone hx

/-- A call that the list allows is defined on the level and does to it what it does to the
list. -/
theorem Holds.step (h : Holds l b) {call : LevelCall} (hstep : b.step call = some c) :
    ∃ l', LevelCall.step l call = some l' ∧ Holds l' c := by
  cases call with
  | pushBack id q =>
    simp only [Backlog.step] at hstep
    split at hstep
    · cases hstep
    · next hid =>
      obtain rfl := Option.some.inj hstep
      exact ⟨_, rfl, h.pushBack q hid⟩
  | remove id q =>
    simp only [Backlog.step] at hstep
    split at hstep
    · next hid =>
      obtain rfl := Option.some.inj hstep
      exact ⟨_, rfl, h.remove q hid⟩
    · cases hstep
  | popFront q =>
    simp only [Backlog.step] at hstep
    split at hstep
    · cases hstep
    · next id rest hlive =>
      obtain rfl := Option.some.inj hstep
      exact h.popFront q hlive
  | front =>
    simp only [Backlog.step] at hstep
    split at hstep
    · cases hstep
    · next hlive =>
      obtain rfl := Option.some.inj hstep
      have hsome : (PriceLevelOps.front l).1.isSome := by
        rw [front_fst h.valid, h.ids]
        cases hb : b.live with
        | nil => exact absurd (by rw [hb]; rfl) hlive
        | cons id rest => rfl
      obtain ⟨id, hid⟩ := Option.isSome_iff_exists.mp hsome
      exact ⟨_, by rw [LevelCall.step, hid]; rfl, h.front⟩
  | empty =>
    obtain rfl := Option.some.inj hstep
    exact ⟨_, rfl, h.empty⟩

theorem Holds.ofPrice (price : Price) : Holds (ofPrice price : L) {} :=
  ⟨ofPrice_valid price, ofPrice_orderIds price, fun id hid ↦ absurd hid (ofPrice_holds price id)⟩

/-- Every sequence of calls that the list allows leads a new level to a level that holds it. -/
theorem Holds.run {calls : List LevelCall} (price : Price)
    (h : Interleaving.run Backlog.step calls {} = some b) :
    ∃ l : L, Interleaving.run LevelCall.step calls (PriceLevelOps.ofPrice price) = some l ∧
      Holds l b :=
  run_simulates (fun _ _ _ _ hh hstep ↦ hh.step hstep) (.ofPrice price) h

end Backlog

/-- What the members of the level return is what they return on the list: `size` does not wrap,
and `popFront` takes the head. -/
structure PriceLevel.Observes (l : PriceLevel) (ids : List OrderId) : Prop where
  orderIds : l.orderIds = ids
  marks_le : l.cancelled.card ≤ l.queue.length
  length : l.queue.length - l.cancelled.card = ids.length
  size : l.size = UInt64.ofNat ids.length
  empty : l.empty.1 = ids.isEmpty
  front : l.front.1 = ids.head?
  popFront : ∀ (q : Quantity) (id : OrderId) (rest : List OrderId), ids = id :: rest →
    ∃ l', l.popFront q = some l' ∧ l'.orderIds = rest

private theorem Backlog.Holds.observes {l : PriceLevel} {b : Backlog} (h : b.Holds l) :
    l.Observes b.live := by
  have hids : l.live = b.live := h.ids
  have hcard := LazyQueue.length_live_add_card h.valid
  refine ⟨hids, by omega, by rw [← hids]; omega, ?_, ?_, ?_, fun q id rest hlive ↦ ?_⟩
  · rw [← hids]
    exact size_eq h.valid
  · rw [← hids]
    exact empty_fst h.valid
  · rw [← hids]
    exact front_fst h.valid
  · obtain ⟨l', hpop, hl'⟩ := h.popFront q hlive
    exact ⟨l', hpop, hl'.ids⟩

/-- After every allowed sequence of calls the level observes as the list with eager deletion,
and it still does after the draining of `front` and of `empty`. -/
theorem price_level_refines_list (price : Price) (calls : List LevelCall) (b : Backlog)
    (h : run Backlog.step calls {} = some b) :
    ∃ l : PriceLevel, run LevelCall.step calls (PriceLevel.ofPrice price) = some l ∧
      l.Observes b.live ∧ l.front.2.Observes b.live ∧ l.empty.2.Observes b.live := by
  obtain ⟨l, hrun, hl⟩ := Backlog.Holds.run (L := PriceLevel) price h
  exact ⟨l, hrun, hl.observes, hl.front.observes, hl.empty.observes⟩

/-- The second of three orders is removed, the first popped and pushed again. -/
private def mixedCalls : List LevelCall :=
  [.pushBack 1 5, .pushBack 2 5, .pushBack 3 5, .remove 2 5, .popFront 5, .pushBack 1 5]

theorem price_level_refines_list_mixedCalls :
    ∃ l : PriceLevel, run LevelCall.step mixedCalls (PriceLevel.ofPrice 100) = some l ∧
      l.Observes [3, 1] ∧ l.front.2.Observes [3, 1] ∧ l.empty.2.Observes [3, 1] := by
  have hlive : (run Backlog.step mixedCalls {}).map Backlog.live = some [3, 1] := by
    decide +kernel
  obtain ⟨b, hb, hids⟩ := Option.map_eq_some_iff.mp hlive
  rw [← hids]
  exact price_level_refines_list 100 mixedCalls b hb

end LobEngine
