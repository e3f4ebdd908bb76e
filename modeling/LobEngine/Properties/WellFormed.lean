import LobEngine.Refinement.Runs
import Mathlib.Data.Set.Card

/-!
# The book stays well formed

Price maps, level queues, identifier map and pending stops agree with one another after every
event of a fresh stream whose modifies keep the place of their order. All of it is read off
the reference book: one order is one list item there.
-/

namespace LobEngine

open PriceLevelOps LawfulPriceLevel BookOps Engine

namespace OrderBook

variable {L : Type} [PriceLevelOps L]

/-- A level lists the identifier among its live ones. -/
def Live (b : OrderBook L) (side : Side) (p : Price) (id : OrderId) : Prop :=
  ∃ l, b.getLevel side p = some l ∧ id ∈ PriceLevelOps.orderIds l

/-- The live identifiers of one side, level by level. -/
def liveIds (b : OrderBook L) (side : Side) : List OrderId :=
  (b.levels side).toList.flatMap fun entry ↦ PriceLevelOps.orderIds entry.2

/-- The prices of the stored orders of one side. -/
def prices (b : OrderBook L) (side : Side) : Set Price :=
  {p | ∃ id o, b.findOrder id = some o ∧ o.side = side ∧ o.price = p}

/-- The structures of a book agree. -/
structure WellFormed (b : OrderBook L) : Prop where
  once : (b.liveIds .buy ++ b.liveIds .sell).Nodup
  placed : ∀ side p id, b.Live side p id →
    ∃ o, b.findOrder id = some o ∧ o.side = side ∧ o.price = p
  housed : ∀ id o, b.findOrder id = some o → b.Live o.side o.price id
  nonempty : ∀ side p l, b.getLevel side p = some l → (PriceLevelOps.empty l).1 = false
  bestBid : ∀ p, b.bestBid = some p ↔ IsGreatest (b.prices .buy) p
  noBid : b.bestBid = none ↔ b.prices .buy = ∅
  bestAsk : ∀ p, b.bestAsk = some p ↔ IsLeast (b.prices .sell) p
  noAsk : b.bestAsk = none ↔ b.prices .sell = ∅
  levelCount : ∀ side, b.levelCount side = (b.prices side).ncard

end OrderBook

namespace Represents

variable {L : Type} [PriceLevelOps L] [LawfulPriceLevel L] {b : OrderBook L}
  {r : ReferenceBook}

/-- A live identifier belongs to the order stored under it, at the place of its level. -/
theorem placed (h : Represents b r) {side : Side} {p : Price} {id : OrderId}
    (hl : b.Live side p id) : ∃ o, b.findOrder id = some o ∧ o.side = side ∧ o.price = p := by
  obtain ⟨l, hg, hid⟩ := hl
  have hlists := h.lists side p
  rw [hg] at hlists
  rw [hlists.2.2.1] at hid
  obtain ⟨o, ho, rfl⟩ := List.mem_map.mp hid
  have hmem := ReferenceBook.mem_atPrice.mp ho
  exact ⟨o, (h.find o.id).trans (h.distinct.findOrder_of_mem hmem.1), hmem.2⟩

/-- An identifier is live in one place only. -/
private theorem live_unique (h : Represents b r) {side side' : Side} {p p' : Price} {id : OrderId}
    (hl : b.Live side p id) (hl' : b.Live side' p' id) : side = side' ∧ p = p' := by
  obtain ⟨o, ho, rfl, rfl⟩ := h.placed hl
  obtain ⟨o', ho', rfl, rfl⟩ := h.placed hl'
  obtain rfl := Option.some.inj (ho.symm.trans ho')
  exact ⟨rfl, rfl⟩

private theorem housed (h : Represents b r) {id : OrderId} {o : Order}
    (ho : b.findOrder id = some o) : b.Live o.side o.price id := by
  obtain ⟨l, hg, -, -, -, hid⟩ := h.level_of_find ho
  exact ⟨l, hg, hid⟩

private theorem level_nonempty (h : Represents b r) {side : Side} {p : Price} {l : L}
    (hg : b.getLevel side p = some l) : Valid l ∧ orderIds l ≠ [] := by
  have hlists := h.lists side p
  rw [hg] at hlists
  refine ⟨hlists.1, ?_⟩
  rw [hlists.2.2.1, ne_eq, List.map_eq_nil_iff]
  exact hlists.2.2.2

/-- The prices of a side are the keys of its map. -/
theorem mem_prices (h : Represents b r) {side : Side} {p : Price} :
    p ∈ b.prices side ↔ p ∈ b.levels side := by
  constructor
  · rintro ⟨id, o, ho, rfl, rfl⟩
    obtain ⟨l, hg, -⟩ := h.housed ho
    have hget : (b.levels o.side)[o.price]? = some l := hg
    rw [Std.ExtTreeMap.mem_iff_isSome_getElem?, hget]
    rfl
  · intro hp
    obtain ⟨l, hg⟩ := Option.isSome_iff_exists.mp (Std.ExtTreeMap.mem_iff_isSome_getElem?.mp hp)
    obtain ⟨id, hid⟩ := List.exists_mem_of_ne_nil _ (h.level_nonempty hg).2
    obtain ⟨o, ho, hs, hpr⟩ := h.placed ⟨l, hg, hid⟩
    exact ⟨id, o, ho, hs, hpr⟩

omit [LawfulPriceLevel L] in
private theorem mem_liveIds (side : Side) (id : OrderId) :
    id ∈ b.liveIds side ↔ ∃ p, b.Live side p id := by
  rw [OrderBook.liveIds, List.mem_flatMap]
  constructor
  · rintro ⟨⟨p, l⟩, hmem, hid⟩
    exact ⟨p, l, Std.ExtTreeMap.mem_toList_iff_getElem?_eq_some.mp hmem, hid⟩
  · rintro ⟨p, l, hg, hid⟩
    exact ⟨(p, l), Std.ExtTreeMap.mem_toList_iff_getElem?_eq_some.mpr hg, hid⟩

private theorem liveIds_nodup (h : Represents b r) (side : Side) : (b.liveIds side).Nodup := by
  rw [OrderBook.liveIds, List.nodup_flatMap]
  constructor
  · rintro ⟨p, l⟩ hmem
    have hg : b.getLevel side p = some l :=
      Std.ExtTreeMap.mem_toList_iff_getElem?_eq_some.mp hmem
    exact nodup (h.level_nonempty hg).1
  · refine List.Pairwise.imp_of_mem ?_ (Std.ExtTreeMap.distinct_keys_toList (t := b.levels side))
    rintro ⟨p, l⟩ ⟨q, m⟩ hp hq hne
    rw [Function.onFun, List.disjoint_left]
    intro id hid hid'
    have hlp : b.Live side p id := ⟨l, Std.ExtTreeMap.mem_toList_iff_getElem?_eq_some.mp hp, hid⟩
    have hlq : b.Live side q id := ⟨m, Std.ExtTreeMap.mem_toList_iff_getElem?_eq_some.mp hq, hid'⟩
    exact hne (Std.LawfulEqCmp.compare_eq_iff_eq.mpr (h.live_unique hlp hlq).2)

/-- The best price is the price of the side that comes first. -/
theorem best_iff (h : Represents b r) (side : Side) (p : Price) :
    (b.bestLevel side).map Prod.fst = some p ↔
      p ∈ b.prices side ∧ ∀ q ∈ b.prices side, (side.cmp p q).isLE = true := by
  simp only [h.mem_prices]
  exact OrderBook.best_iff

private theorem best_none_iff (h : Represents b r) (side : Side) :
    (b.bestLevel side).map Prod.fst = none ↔ b.prices side = ∅ := by
  rw [Option.map_eq_none_iff, OrderBook.bestLevel, Std.ExtTreeMap.first?_eq_none_iff,
    Set.eq_empty_iff_forall_notMem]
  simp only [h.mem_prices, Std.ExtTreeMap.mem_iff_isSome_getElem?, Option.not_isSome_iff_eq_none]

/-- A side has as many levels as its orders have prices. -/
private theorem levelCount_eq (h : Represents b r) (side : Side) :
    b.levelCount side = (b.prices side).ncard := by
  have hkeys : b.prices side = ((b.levels side).keys.toFinset : Set Price) := by
    ext p
    rw [h.mem_prices, List.coe_toFinset, Set.mem_ofPred_eq, Std.ExtTreeMap.mem_keys]
  rw [hkeys, Set.ncard_coe_finset, List.toFinset_card_of_nodup Std.ExtTreeMap.nodup_keys,
    Std.ExtTreeMap.length_keys, OrderBook.levelCount]

theorem wellFormed (h : Represents b r) : b.WellFormed where
  once := by
    rw [List.nodup_append]
    refine ⟨h.liveIds_nodup .buy, h.liveIds_nodup .sell, fun x hx y hy he ↦ ?_⟩
    obtain ⟨p, hp⟩ := (mem_liveIds .buy x).mp hx
    obtain ⟨q, hq⟩ := (mem_liveIds .sell y).mp hy
    exact absurd (h.live_unique hp (he ▸ hq)).1 (by decide)
  placed _ _ _ := h.placed
  housed _ _ := h.housed
  nonempty side p l hg := by
    obtain ⟨hv, hne⟩ := h.level_nonempty hg
    rw [empty_fst hv, List.isEmpty_eq_false_iff]
    exact hne
  bestBid p := by
    refine (h.best_iff .buy p).trans (and_congr_right' (forall₂_congr fun q _ ↦ ?_))
    exact Std.isLE_compare
  noBid := h.best_none_iff .buy
  bestAsk p := by
    refine (h.best_iff .sell p).trans (and_congr_right' (forall₂_congr fun q _ ↦ ?_))
    exact Std.isLE_compare
  noAsk := h.best_none_iff .sell
  levelCount := h.levelCount_eq

end Represents

/-- After every event the book is well formed, no identifier has two entries in a queue, the
pending stops have distinct identifiers, and none of them is in the book. -/
theorem run_wellFormed {es : List OrderEvent} {s : Engine (OrderBook PriceLevel)}
    {rs : List MatchResult} (h : Run KeepsPlace es s rs) (hf : Fresh es) :
    s.book.WellFormed ∧ (∀ side p l, s.book.getLevel side p = some l → l.queue.Nodup) ∧
      (s.pendingStops.map Order.id).Nodup ∧
      ∀ stop ∈ s.pendingStops, s.book.findOrder stop.id = none ∧
        ∀ side p, ¬s.book.Live side p stop.id := by
  obtain ⟨t, -, href⟩ := h.refines (E := fun _ ↦ True) (fun _ hk ↦ .of_keepsPlace hk)
    (fun _ ↦ trivial) hf
  have hrep := href.tracks.represents
  refine ⟨hrep.wellFormed, fun side p l hg ↦ ?_, ?_, fun stop hstop ↦ ?_⟩
  · exact (hrep.level_nonempty hg).1.nodup
  · have hd := href.tracks.distinct
    rwa [filter_tracked_true, ids_outstanding] at hd
  · have hmem : stop.converted ∈ s.outstanding [] := List.mem_map_of_mem hstop
    have hnone := (href.tracks.fits _ hmem rfl).1.1
    rw [converted_id] at hnone
    refine ⟨hnone, fun side p hl ↦ ?_⟩
    obtain ⟨o, ho, -⟩ := hrep.placed hl
    exact absurd (hnone.symm.trans ho) (by simp)

/-- Orders of all five types; the incoming order 5 replenishes the iceberg and triggers the
stop-limit, and the stop waits. -/
private def fiveTypes : List OrderEvent :=
  [.newOrder ⟨{ id := 1, side := .sell, type := .iceberg, price := 100, quantity := 30
                peakQty := 10 }⟩,
    .newOrder ⟨{ id := 2, type := .stopLimit, price := 101, stopPrice := 100, quantity := 5 }⟩,
    .newOrder ⟨{ id := 3, type := .stop, stopPrice := 105, quantity := 5 }⟩,
    .newOrder ⟨{ id := 4, price := 99, quantity := 8 }⟩,
    .newOrder ⟨{ id := 5, price := 100, quantity := 12 }⟩,
    .newOrder ⟨{ id := 6, side := .sell, type := .market, quantity := 2 }⟩,
    .modifyOrder { orderId := 1, newQuantity := 2 }]

theorem run_wellFormed_five_types : ∃ s : Engine (OrderBook PriceLevel),
    (s.pendingStops.map Order.id = [3] ∧ s.book.bestBid = some 99 ∧ s.book.bestAsk = some 100) ∧
      s.book.WellFormed := by
  obtain ⟨s, rs, hrun, hs⟩ := Run.exists_of_play (B := OrderBook PriceLevel) KeepsPlace 50 fiveTypes
    (fun s _ ↦ s.pendingStops.map Order.id = [3] ∧ s.book.bestBid = some 99 ∧
      s.book.bestAsk = some 100) (by decide +kernel)
  exact ⟨s, hs, (run_wellFormed hrun (by decide)).1⟩

end LobEngine
