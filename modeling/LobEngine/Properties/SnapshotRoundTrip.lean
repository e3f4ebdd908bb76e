import LobEngine.Properties.LazyDeletion
import LobEngine.Refinement.Reload
import LobEngine.Snapshot.OrderLayout

/-!
# Snapshots of reachable states

The header of a snapshot announces the size of the identifier map, the records come from the
queues of the levels. The two agree as long as no modify requeues its order into a level whose
queue still holds a dead entry of that order: `order_ids` then leaves the order out, and the file
is a record short.
-/

namespace LobEngine

open PriceLevelOps LawfulPriceLevel BookOps Engine SnapshotManager

/-- What was loaded is what was saved, and `load` returned true. -/
structure Recovers (s : Engine (OrderBook PriceLevel)) (loaded : Loaded PriceLevel) : Prop where
  good : loaded.good = true
  orders : loaded.book.idMap = s.book.idMap
  prices : ∀ side p, p ∈ loaded.book.levels side ↔ p ∈ s.book.levels side
  queues : ∀ side p, loaded.book.orderIds side p = s.book.orderIds side p
  lastTradePrice : loaded.book.lastTradePrice = s.book.lastTradePrice
  pendingStops : loaded.pendingStops = s.pendingStops
  sequence : loaded.sequence = s.sequence

section Represents

variable {L L' : Type} [PriceLevelOps L] [LawfulPriceLevel L] [PriceLevelOps L']
  [LawfulPriceLevel L'] {b : OrderBook L} {b' : OrderBook L'} {r : ReferenceBook}

/-- Books that represent one reference book store the same orders. -/
private theorem Represents.idMap_eq (h : Represents b r) (h' : Represents b' r) :
    b.idMap = b'.idMap := by
  apply Std.ExtTreeMap.ext_getElem?
  intro id
  exact (h.find id).trans (h'.find id).symm

/-- There is a level exactly where orders rest. -/
private theorem Represents.mem_levels_iff (h : Represents b r) {side : Side} {p : Price} :
    p ∈ b.levels side ↔ r.atPrice side p ≠ [] := by
  have hl := h.lists side p
  rw [Std.ExtTreeMap.mem_iff_isSome_getElem?]
  change (b.getLevel side p).isSome = true ↔ _
  cases hg : b.getLevel side p with
  | none =>
    rw [hg] at hl
    have hnil : r.atPrice side p = [] := hl
    simp [hnil]
  | some l =>
    rw [hg] at hl
    simp [hl.2.2.2]

end Represents

/-- In a fresh run in which no modify meets an entry of its own order, loading what was saved into
an empty book returns true and recovers the state. -/
theorem load_save_recovers {layout : Layout Order} {es : List OrderEvent}
    {s : Engine (OrderBook PriceLevel)} {rs : List MatchResult} (h : Run AvoidsOwnEntry es s rs)
    (hf : Fresh es) (hb : s.book.orderCount < 2 ^ 32) (hs : s.pendingStops.length < 2 ^ 32)
    (hr : Restores layout s.book s.pendingStops) (stops : List Order) (sequence : UInt64) :
    Recovers s (load layout (some (save layout s.book s.pendingStops s.sequence)) .empty stops
      sequence) := by
  obtain ⟨t, -, href⟩ := h.refines (E := fun _ ↦ True) (fun href he ↦ he.lands href)
    (fun _ ↦ trivial) hf
  have hrep := href.tracks.represents
  have hload := load_save s.sequence hrep.length_savedOrders hb hs hr
    (OrderBook.empty : OrderBook PriceLevel) stops sequence
  obtain ⟨hrep', -⟩ := hrep.reloaded
  rw [hload]
  exact {
    good := rfl
    orders := hrep'.idMap_eq hrep
    prices := fun _ _ ↦ hrep'.mem_levels_iff.trans hrep.mem_levels_iff.symm
    queues := fun side p ↦ (hrep'.orderIds_eq side p).trans (hrep.orderIds_eq side p).symm
    lastTradePrice := hrep'.last.trans hrep.last.symm
    pendingStops := rfl
    sequence := rfl }

/-- Order 1 is cancelled behind order 2, order 3 moves to another price and back while it is the
first of its level, and stop 4 waits. -/
private def requeuesFirst : List OrderEvent :=
  [.newOrder ⟨{ id := 2, side := .sell, price := 101, quantity := 1 }⟩,
    .newOrder ⟨{ id := 1, side := .sell, price := 101, quantity := 2 }⟩,
    .newOrder ⟨{ id := 3, side := .sell, price := 100, quantity := 4 }⟩,
    .cancelOrder { orderId := 1 },
    .modifyOrder { orderId := 3, newPrice := 101 },
    .modifyOrder { orderId := 3, newPrice := 100, newQuantity := 7 },
    .newOrder ⟨{ id := 5, price := 100, quantity := 2 }⟩,
    .newOrder ⟨{ id := 4, type := .stop, stopPrice := 105, quantity := 2 }⟩]

theorem load_save_recovers_requeued : ∃ s : Engine (OrderBook PriceLevel),
    s.book.storedOrders.map Order.quantity = [1, 5] ∧ s.pendingStops.map Order.id = [4] ∧
      Recovers s (load Order.layout (some (save Order.layout s.book s.pendingStops s.sequence))
        .empty [] 0) := by
  obtain ⟨s, rs, hrun, hids, hstops, hb, hs, hr⟩ := Run.exists_of_play AvoidsOwnEntry 50
    requeuesFirst (fun s _ ↦ s.book.storedOrders.map Order.quantity = [1, 5] ∧
      s.pendingStops.map Order.id = [4] ∧ s.book.orderCount < 2 ^ 32 ∧
      s.pendingStops.length < 2 ^ 32 ∧ Restores Order.layout s.book s.pendingStops)
    (by decide +kernel)
  exact ⟨s, hids, hstops, load_save_recovers hrun (by decide) hb hs hr [] 0⟩

/-- Order 2 gains quantity behind order 1, and its dead entry hides the new one. -/
private def losesRecord : List OrderEvent :=
  [.newOrder ⟨{ id := 1, side := .sell, price := 100, quantity := 2 }⟩,
    .newOrder ⟨{ id := 2, side := .sell, price := 100, quantity := 1 }⟩,
    .modifyOrder { orderId := 2, newQuantity := 3 }]

/-- Not every reachable state can be loaded. -/
theorem load_save_fails : ¬∀ (es : List OrderEvent) (s : Engine (OrderBook PriceLevel))
    (rs : List MatchResult), Run Anything es s rs → Fresh es → s.book.orderCount < 2 ^ 32 →
      s.pendingStops.length < 2 ^ 32 → Restores Order.layout s.book s.pendingStops →
      Recovers s (load Order.layout (some (save Order.layout s.book s.pendingStops s.sequence))
        .empty [] 0) := by
  intro hall
  obtain ⟨s, rs, hrun, hb, hs, hr, hbad⟩ := Run.exists_of_play (B := OrderBook PriceLevel)
    Anything 50 losesRecord (fun s _ ↦ s.book.orderCount < 2 ^ 32 ∧
      s.pendingStops.length < 2 ^ 32 ∧ Restores Order.layout s.book s.pendingStops ∧
      (load Order.layout (some (save Order.layout s.book s.pendingStops s.sequence))
        (.empty : OrderBook PriceLevel) [] 0).good = false) (by decide +kernel)
  have hgood := (hall _ _ _ hrun (by decide) hb hs hr).good
  rw [hbad] at hgood
  exact absurd hgood (by decide)

end LobEngine
