import LobEngine.Properties.TimePriority

/-!
# Price-time priority

Every fill takes the first order of the best level of its side. Over a run this is price-time
priority: no resting order has a better price than the one that trades, and of the orders that
stood at its price at any earlier moment, those ahead of it have left the book or have been
replenished since.
-/

namespace LobEngine

open BookOps Engine

variable {es es' : List OrderEvent}
  {path path' : List (Config (OrderBook PriceLevel) × Config (OrderBook PriceLevel))}
  {c c' d : Config (OrderBook PriceLevel)}

/-- A passive order is the first of its side. -/
private theorem Config.Moves.adds_first {U : OrderId → Prop} {c d : Config ReferenceBook}
    (ho : Orderly U c) (h : Config.Moves c d) {t : Trade} (ht : c.Adds d t) :
    ∃ o rest, c.engine.book.orders o.side = o :: rest ∧ t.passiveId = o.id ∧ t.price = o.price := by
  obtain ⟨a, o, q, rest, hrest, rfl, -⟩ := h.of_adds ho ht
  exact ⟨o, rest, hrest, rfl, rfl⟩

/-- Let a run of a fresh stream without modifies go from `c` to `c'`, where the next step trades.
The passive order has the best price of its side. If in `c` it did not stand in the front part of
the queue of its price, because it stood behind or had not come yet, then every order of that part
has left the book or has been replenished in between. -/
theorem price_time_priority (h : Walk NoModify .init es path c)
    (hw : Walk NoModify c es' path' c') (hstep : c'.step = .ok (some d))
    (hf : Fresh (es ++ es')) {t : Trade} (ht : c'.Adds d t) :
    ∃ o, c'.engine.book.findOrder t.passiveId = some o ∧ t.price = o.price ∧
      (∀ id x, c'.engine.book.findOrder id = some x → x.side = o.side →
        (o.side.cmp o.price x.price).isLE = true) ∧
      ∀ front back, c.engine.book.orderIds o.side o.price = front ++ back → t.passiveId ∉ front →
        ∀ y ∈ front, (∃ p ∈ path', p.2.engine.book.findOrder y = none) ∨
          ∃ p ∈ path', p.1.Replenishes p.2 y := by
  obtain ⟨c₀, hc, -, -⟩ := h.related .init hf.left
  obtain ⟨c₁, hc', hpass, -⟩ := hw.related hc hf
  obtain ⟨d₁, hmove, hd⟩ := hc'.move hstep
  obtain ⟨o, rest, hrest, hid, hprice⟩ :=
    hmove.adds_first hc'.orderly ((hc'.adds_iff hd t).mp ht)
  refine ⟨o, ?_, hprice, fun id x hx hside ↦ ?_, fun front back hqueue hnot y hy ↦ ?_⟩
  · rw [hid]
    exact (hc'.findOrder_eq o.id).trans
      (hc'.orderly.distinct.findOrder_of_mem (ReferenceBook.mem_of_head hrest).1)
  · obtain ⟨hmem, -⟩ := ReferenceBook.mem_of_findOrder ((hc'.findOrder_eq id).symm.trans hx)
    exact ReferenceBook.best_le hrest (hside ▸ ReferenceBook.mem_orders.mpr ⟨hmem, rfl⟩)
  · obtain ⟨acts, hacts, hleave, hrequeue⟩ := hpass o.side o.price
    have hhead : (RotatingQueue.run acts (front ++ back)).head? = some t.passiveId := by
      rw [← hqueue, ← hacts, hc'.orderIds_eq, ReferenceBook.queueIds,
        ReferenceBook.atPrice_head hrest, hid]
      rfl
    exact (RotatingQueue.ahead_waits hy hnot hhead).imp (hleave y) (hrequeue y)

/-- Two asks at 100, with an iceberg in front of them and an ask at 101. -/
private def queuedAsks : List (Option OrderEvent) :=
  [some (.newOrder ⟨{ id := 1, side := .sell, type := .iceberg, price := 100, quantity := 4
                      peakQty := 2 }⟩), none,
    some (.newOrder ⟨{ id := 2, side := .sell, price := 101, quantity := 1 }⟩), none,
    some (.newOrder ⟨{ id := 3, side := .sell, price := 100, quantity := 1 }⟩), none,
    some (.newOrder ⟨{ id := 4, side := .sell, price := 100, quantity := 5 }⟩), none]

/-- A bid takes what the iceberg shows, then order 3, and goes on to order 4. -/
private def takes : List (Option OrderEvent) :=
  [some (.newOrder ⟨{ id := 5, price := 101, quantity := 7 }⟩), none, none]

private def taken : Trade :=
  { aggressorId := 5, passiveId := 4, price := 100, quantity := 4, aggressorSide := .buy }

theorem price_time_priority_fourth : ∃ (es' : List OrderEvent)
    (path' : List (Config (OrderBook PriceLevel) × Config (OrderBook PriceLevel)))
    (c c' d : Config (OrderBook PriceLevel)), Walk NoModify c es' path' c' ∧ c'.Adds d taken ∧
      c.engine.book.orderIds .sell 100 = [1, 3, 4] ∧
      ∀ y ∈ [1, 3], (∃ p ∈ path', p.2.engine.book.findOrder y = none) ∨
        ∃ p ∈ path', p.1.Replenishes p.2 y := by
  obtain ⟨c, hc, c', hc', d, hd, ⟨o, ho, hside, hprice⟩, hqueue, hadds⟩ :
      ∃ c ∈ (Config.init : Config (OrderBook PriceLevel)).follow queuedAsks, ∃ c' ∈ c.follow takes,
        ∃ d ∈ c'.follow [none],
          (∃ o ∈ c'.engine.book.findOrder 4, o.side = .sell ∧ o.price = 100) ∧
          c.engine.book.orderIds .sell 100 = [1, 3, 4] ∧
          d.result.trades = c'.result.trades ++ [taken] := by
    decide +kernel
  have hstart : Walk NoModify (Config.init : Config (OrderBook PriceLevel)) [] [] .init := .nil
  have hturned : Walk NoModify c [] [] c := .nil
  obtain ⟨path, hw⟩ := hstart.follow (by decide) hc
  obtain ⟨path', hw'⟩ := hturned.follow (by decide) hc'
  obtain ⟨o', ho', -, -, hwaits⟩ :=
    price_time_priority hw hw' (Config.step_of_follow hd) (by decide) hadds
  obtain rfl := Option.some.inj (ho.symm.trans ho')
  rw [hside, hprice] at hwaits
  exact ⟨_, _, c, c', d, hw', hadds, hqueue, hwaits [1, 3] [4] hqueue (by decide)⟩

end LobEngine
