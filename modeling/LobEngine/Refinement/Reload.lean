import LobEngine.Refinement.Runs
import LobEngine.Snapshot.SnapshotManager

/-!
# A saved book comes back

The records that `save` writes are the orders of the reference book, in its order. Inserting them
into an empty book gives a book that represents the same reference book and owns no entry but
those of its orders.
-/

namespace LobEngine

open PriceLevelOps LawfulPriceLevel BookOps Engine SnapshotManager

variable {L : Type} [PriceLevelOps L] [LawfulPriceLevel L]

/-- The book that `load` builds from what `save` wrote. -/
def OrderBook.reloaded (b : OrderBook L) : OrderBook L :=
  (savedOrders b).foldl OrderBook.insertOrder
    { OrderBook.empty with lastTradePrice := b.lastTradePrice }

namespace Represents

variable {b : OrderBook L} {r : ReferenceBook}

/-- The records of one side are the orders of that side. -/
private theorem ordersFromSide_eq (h : Represents b r) (side : Side) :
    ordersFromSide b side = r.orders side := by
  have hlevel : ∀ entry ∈ (b.levels side).toList,
      (orderIds entry.2).filterMap b.findOrder = r.atPrice side entry.1 := by
    rintro ⟨p, l⟩ hmem
    have hg : b.getLevel side p = some l := Std.ExtTreeMap.mem_toList_iff_getElem?_eq_some.mp hmem
    rw [← h.ordersAt_eq, OrderBook.ordersAt, OrderBook.orderIds, hg]
    rfl
  have hkeys : (b.levels side).toList.flatMap (fun entry ↦ r.atPrice side entry.1) =
      (b.levels side).keys.flatMap (r.atPrice side) := by
    rw [← Std.ExtTreeMap.map_fst_toList_eq_keys, List.flatMap_map]
  unfold ordersFromSide
  rw [List.flatMap_congr hlevel, hkeys]
  apply Ladder.flatMap_rung Std.ExtTreeMap.ordered_keys
  intro o ho
  have hat : o ∈ r.atPrice side o.price := Ladder.mem_rung.mpr ⟨ho, rfl⟩
  obtain ⟨l, hg, -⟩ := h.level_of_mem hat
  apply Std.ExtTreeMap.mem_keys.mpr
  apply Std.ExtTreeMap.mem_iff_isSome_getElem?.mpr
  exact Option.isSome_of_eq_some hg

/-- The records are the orders of the reference book. -/
private theorem savedOrders_eq (h : Represents b r) : savedOrders b = r.allOrders := by
  unfold savedOrders
  rw [h.ordersFromSide_eq, h.ordersFromSide_eq]
  rfl

/-- `save` writes as many records as it announces. -/
theorem length_savedOrders (h : Represents b r) : (savedOrders b).length = b.orderCount := by
  have hlen := h.storedOrders_perm.length_eq
  rw [OrderBook.storedOrders, List.length_map, Std.ExtTreeMap.length_toList] at hlen
  rw [h.savedOrders_eq]
  exact hlen.symm

/-- Inserting orders that own no entry yet. -/
private theorem foldl_insertOrder {os : List Order} (h : Represents b r)
    (hd : (os.map Order.id).Nodup) (hnew : ∀ o ∈ os, ∀ side p, ¬Entry b side p o.id) :
    Represents (os.foldl OrderBook.insertOrder b) (os.foldl ReferenceBook.insertOrder r) ∧
      ∀ side p id, Entry (os.foldl OrderBook.insertOrder b) side p id →
        Entry b side p id ∨ id ∈ os.map Order.id := by
  induction os generalizing b r with
  | nil => exact ⟨h, fun _ _ _ he ↦ .inl he⟩
  | cons o os ih =>
    rw [List.map_cons, List.nodup_cons] at hd
    have hfind : b.findOrder o.id = none := by
      cases hf : b.findOrder o.id with
      | none => rfl
      | some x => exact absurd (h.entry_of_find hf) (hnew o List.mem_cons_self _ _)
    have hins := h.insertOrder hfind (hnew o List.mem_cons_self _ _)
    obtain ⟨hrep, hent⟩ := ih hins hd.2 (fun x hx side p he ↦ by
      rcases entry_insertOrder he with he | he
      · exact hnew x (List.mem_cons_of_mem o hx) side p he
      · exact hd.1 (he ▸ List.mem_map_of_mem hx))
    refine ⟨hrep, fun side p id he ↦ ?_⟩
    rw [List.map_cons, List.mem_cons]
    rcases hent side p id he with he | he
    · exact (entry_insertOrder he).imp_right .inl
    · exact .inr (.inr he)

/-- The reloaded book represents the same orders and owns no other entries. -/
theorem reloaded (h : Represents b r) : Represents b.reloaded r ∧
    ∀ side p id, Entry b.reloaded side p id → id ∈ r.allOrders.map Order.id := by
  have hempty : Represents
      (BookOps.setLastTradePrice (OrderBook.empty : OrderBook L) b.lastTradePrice)
      (BookOps.setLastTradePrice BookOps.empty r.lastTradePrice) := by
    rw [h.last]
    exact Represents.empty.setLastTradePrice r.lastTradePrice
  have hnone (side : Side) (p : Price) (id : OrderId) :
      ¬Entry (BookOps.setLastTradePrice (OrderBook.empty : OrderBook L) b.lastTradePrice)
        side p id := fun he ↦
    (Tracks.init (L := L) true fun _ ↦ False).known side p id
      ((shrinks_setLastTradePrice _ _).entry side p id he)
  obtain ⟨hrep, hent⟩ := hempty.foldl_insertOrder h.distinct fun o _ side p ↦ hnone side p o.id
  rw [ReferenceBook.foldl_insertOrder_allOrders] at hrep
  unfold OrderBook.reloaded
  rw [h.savedOrders_eq]
  exact ⟨hrep, fun side p id he ↦ (hent side p id he).resolve_left (hnone side p id)⟩

end Represents

/-- A reloaded book has room for everything that the book had room for. -/
theorem Tracks.reloaded {all : Bool} {U : OrderId → Prop} {b : OrderBook L} {os : List Order}
    {r : ReferenceBook} (h : Tracks all U b os r) : Tracks all U b.reloaded os r := by
  obtain ⟨hrep, hent⟩ := h.represents.reloaded
  have hstored {side : Side} {p : Price} {id : OrderId} (he : Entry b.reloaded side p id) :
      ∃ o, b.findOrder id = some o := by
    obtain ⟨o, ho, rfl⟩ := List.mem_map.mp (hent side p id he)
    exact ⟨o, (h.represents.find o.id).trans (h.represents.distinct.findOrder_of_mem ho)⟩
  refine ⟨hrep, fun side p id he ↦ ?_, h.distinct,
    fun o ho ht ↦ ⟨⟨?_, fun _ he ↦ ?_⟩, (h.fits o ho ht).2⟩⟩
  · obtain ⟨o, ho⟩ := hstored he
    exact h.known _ _ _ (h.represents.entry_of_find ho)
  · rw [hrep.find, ← h.represents.find]
    exact (h.fits o ho ht).1.1
  · obtain ⟨x, hx⟩ := hstored he
    exact absurd (hx.symm.trans (h.fits o ho ht).1.1) (by simp)

end LobEngine
