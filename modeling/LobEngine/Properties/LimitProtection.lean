import LobEngine.Properties.LazyDeletion
import LobEngine.Properties.Live

/-!
# Limit protection

`match_limit` compares the limit of the aggressor with the price of a level and trades at the
price of the order that the level yields. On the reference book the two prices are one. The
engine inherits this as long as no modify meets an entry of its own order; where one does, a
level can yield an order that rests at another price.
-/

namespace LobEngine

open BookOps Engine

/-- The order has the terms of a submitted one; a limit that was submitted still binds it. -/
def Backed (os : List Order) (o : Order) : Prop :=
  ∃ x ∈ os, x.id = o.id ∧ x.side = o.side ∧
    (x.canRest = true → o.type ≠ .market ∧ o.price = x.price)

/-- The aggressor of the trade was submitted, and the trade is within its limit, if any. -/
def Protected (os : List Order) (t : Trade) : Prop :=
  ∃ x ∈ os, x.id = t.aggressorId ∧ (x.canRest = true → x.crosses t.price = true)

/-- An order of this side was submitted under the identifier, and the price is within its limit,
if any. -/
def TakesAt (os : List Order) (side : Side) (id : OrderId) (p : Price) : Prop :=
  ∃ x ∈ os, x.id = id ∧ x.side = side ∧ (x.canRest = true → x.crosses p = true)

variable {os os' : List Order} {o x : Order}

theorem Backed.mono (hsub : os ⊆ os') (h : Backed os o) : Backed os' o := by
  obtain ⟨x, hx, hterms⟩ := h
  exact ⟨x, hsub hx, hterms⟩

theorem Protected.mono (hsub : os ⊆ os') {t : Trade} (h : Protected os t) : Protected os' t := by
  obtain ⟨x, hx, hterms⟩ := h
  exact ⟨x, hsub hx, hterms⟩

theorem Backed.descend (h : Backed os x) (hd : o.Descends x) : Backed os o := by
  obtain ⟨y, hy, hid, hside, hlimit⟩ := h
  refine ⟨y, hy, hid.trans hd.id_eq.symm, hside.trans hd.side_eq.symm, fun hr ↦ ?_⟩
  rw [hd.type_eq, hd.price_eq]
  exact hlimit hr

/-- A submitted order backs what enters for it. -/
theorem backed_entering (hx : x ∈ os) (st : OrderStatus) :
    Backed os { x.entering with status := st } := by
  refine ⟨x, hx, x.entering_id.symm, ?_⟩
  cases ht : x.type <;> simp [Order.entering, Order.canRest, Order.converted, splitIceberg, ht]

/-- A backed order takes a price that its match loop accepts. -/
theorem Backed.takes {a : Order} (h : Backed os a) {p : Price} (ht : Config.trades a p = true) :
    TakesAt os a.side a.id p := by
  obtain ⟨x, hx, hid, hside, hlimit⟩ := h
  refine ⟨x, hx, hid, hside, fun hr ↦ ?_⟩
  obtain ⟨hm, hp⟩ := hlimit hr
  have hcross : a.crosses p = true := by simpa [Config.trades, hm] using ht
  rw [Order.crosses, Order.isBuy, Order.isSell, hside, ← hp]
  exact hcross

/-- A trade of a backed order at a price that its match loop accepts. -/
private theorem Backed.protected {a passive : Order} (h : Backed os a)
    (ht : Config.trades a passive.price = true) (q : Quantity) :
    Protected os (fillTrade a passive q) := by
  obtain ⟨x, hx, hid, -, hcross⟩ := h.takes ht
  exact ⟨x, hx, hid, hcross⟩

/-- The invariant of the machine: what is outstanding is backed, what is traded protected. -/
structure Guarded (os : List Order) (c : Config ReferenceBook) : Prop where
  backed : ∀ o ∈ c.engine.outstanding c.stack, Backed os o
  protects : ∀ t ∈ c.result.trades, Protected os t

/-- Every move keeps the machine guarded. -/
theorem Guarded.moves {U : OrderId → Prop} {c d : Config ReferenceBook} (ho : Orderly U c)
    (h : Guarded os c) (hm : Config.Moves c d) : Guarded os d := by
  refine ⟨fun o hout ↦ ?_, fun t ht ↦ ?_⟩
  · obtain ⟨x, hx, hd⟩ := hm.outstanding hout
    exact (h.backed x hx).descend hd
  · rcases hm.newTrade ho.distinct with he | ⟨s, a, K, r, passive, q, rfl, -, -, htr, he⟩
    · exact h.protects t (he ▸ ht)
    · rw [he, List.mem_append, List.mem_singleton] at ht
      rcases ht with ht | rfl
      · exact h.protects t ht
      · exact (h.backed a List.mem_cons_self).protected htr q

/-- Every event starts guarded. -/
private theorem guarded_start {t : Engine ReferenceBook} {e : OrderEvent}
    (h : ∀ o ∈ t.outstanding [], Backed os o) (he : e.orders ⊆ os) :
    Guarded os (.start t e) := by
  refine ⟨fun o ho ↦ ?_, fun tr htr ↦ ?_⟩
  · rcases outstanding_start ho with ho | ⟨x, st, hx, rfl⟩
    · exact h o ho
    · apply backed_entering
      exact he (mem_orders_of_handed hx)
  · rw [start_trades] at htr
    exact absurd htr List.not_mem_nil

/-- On a fresh run of the reference engine no trade is worse than the limit of its aggressor. -/
private theorem Run.guarded {Ok : Engine ReferenceBook → OrderEvent → Prop} {es : List OrderEvent}
    {t : Engine ReferenceBook} {rs : List MatchResult} (h : Run Ok es t rs) (hf : Fresh es) :
    (∀ o ∈ t.outstanding [], Backed (submittedOrders es) o) ∧
      ∀ tr ∈ rs.flatMap MatchResult.trades, Protected (submittedOrders es) tr := by
  induction h with
  | nil => exact ⟨fun o ho ↦ absurd ho List.not_mem_nil, fun tr ht ↦ absurd ht List.not_mem_nil⟩
  | @snoc es e t t' rs r hrun hok hs ih =>
    obtain ⟨hback, hprot⟩ := ih hf.left
    rw [submittedOrders_append, submittedOrders_singleton]
    have hold : submittedOrders es ⊆ submittedOrders es ++ e.orders := List.subset_append_left _ _
    have hnew : e.orders ⊆ submittedOrders es ++ e.orders := List.subset_append_right _ _
    have hg : Guarded (submittedOrders es ++ e.orders) ⟨t', [], r⟩ :=
      hrun.submit_induction hf hs
        (fun _ ↦ guarded_start (fun o ho ↦ (hback o ho).mono hold) hnew)
        fun _ _ ho h hm ↦ h.moves ho hm
    refine ⟨hg.backed, fun tr htr ↦ ?_⟩
    rw [List.flatMap_append, List.flatMap_singleton, List.mem_append] at htr
    rcases htr with htr | htr
    · exact (hprot tr htr).mono hold
    · exact hg.protects tr htr

/-- On a fresh run in which no modify meets an entry of its own order, no trade is worse than
the limit of its aggressor. -/
theorem run_protects_limits {es : List OrderEvent} {s : Engine (OrderBook PriceLevel)}
    {rs : List MatchResult} (h : Run AvoidsOwnEntry es s rs) (hf : Fresh es) {t : Trade}
    (ht : t ∈ rs.flatMap MatchResult.trades) {o : Order} (ho : o ∈ submittedOrders es)
    (hid : o.id = t.aggressorId)
    (htype : o.type = .limit ∨ o.type = .stopLimit ∨ o.type = .iceberg) :
    (o.side = .buy → t.price ≤ o.price) ∧ (o.side = .sell → o.price ≤ t.price) := by
  obtain ⟨t', ht', -⟩ := h.refines (E := fun _ ↦ True) (fun href he ↦ he.lands href)
    (fun _ ↦ trivial) hf
  obtain ⟨x, hx, hxid, hcross⟩ := (ht'.guarded hf).2 t ht
  obtain rfl : x = o := List.inj_on_of_nodup_map hf hx ho (hxid.trans hid.symm)
  have hr : x.canRest = true := by
    rcases htype with h | h | h <;> simp [Order.canRest, h]
  refine ⟨fun hs ↦ ?_, fun hs ↦ ?_⟩
  · simpa [Order.crosses_buy hs] using hcross hr
  · simpa [Order.crosses_sell hs] using hcross hr

/-- Order 1 is requeued at a new price and back, after its dead entry at 100 was drained; then
order 4 takes both orders at 100. -/
private def comesBack : List OrderEvent :=
  [.newOrder ⟨{ id := 1, side := .sell, price := 100, quantity := 10 }⟩,
    .newOrder ⟨{ id := 2, side := .sell, price := 100, quantity := 5 }⟩,
    .modifyOrder { orderId := 1, newPrice := 105 },
    .modifyOrder { orderId := 1, newPrice := 100 },
    .newOrder ⟨{ id := 4, type := .iceberg, price := 103, quantity := 12, peakQty := 12 }⟩]

theorem run_protects_limits_requeued : ∃ (s : Engine (OrderBook PriceLevel))
    (rs : List MatchResult), Run AvoidsOwnEntry comesBack s rs ∧
      (rs.flatMap MatchResult.trades).map Trade.passiveId = [2, 1] ∧
      ∀ t ∈ rs.flatMap MatchResult.trades, t.aggressorId = 4 → t.price ≤ 103 := by
  obtain ⟨s, rs, hrun, hp⟩ := Run.exists_of_play AvoidsOwnEntry 50 comesBack
    (fun _ rs ↦ (rs.flatMap MatchResult.trades).map Trade.passiveId = [2, 1]) (by decide +kernel)
  refine ⟨s, rs, hrun, hp, fun t ht hid ↦ ?_⟩
  exact (run_protects_limits hrun (by decide) ht
    (o := { id := 4, type := .iceberg, price := 103, quantity := 12, peakQty := 12 })
    (by decide) hid.symm (by decide)).1 rfl

/-- Two dead entries of order 1 at 100 share one mark; when the first is drained the second
comes back to life and stands for the order, which by then rests at 105. -/
private def movesAway : List OrderEvent :=
  [.newOrder ⟨{ id := 2, side := .sell, price := 100, quantity := 10 }⟩,
    .newOrder ⟨{ id := 1, side := .sell, price := 100, quantity := 10 }⟩,
    .modifyOrder { orderId := 1, newPrice := 101 },
    .modifyOrder { orderId := 1, newPrice := 100 },
    .modifyOrder { orderId := 1, newPrice := 105 },
    .newOrder ⟨{ id := 3, price := 100, quantity := 15 }⟩]

/-- A buy order limited to 100 trades at 105. -/
theorem limit_not_protected : ¬∀ (es : List OrderEvent) (s : Engine (OrderBook PriceLevel))
    (rs : List MatchResult), Run Anything es s rs → Fresh es →
      ∀ t ∈ rs.flatMap MatchResult.trades, ∀ o ∈ submittedOrders es, o.id = t.aggressorId →
        (o.type = .limit ∨ o.type = .stopLimit ∨ o.type = .iceberg) →
        (o.side = .buy → t.price ≤ o.price) ∧ (o.side = .sell → o.price ≤ t.price) := by
  intro hall
  obtain ⟨s, rs, hrun, hp⟩ := Run.exists_of_play (B := OrderBook PriceLevel) Anything 50 movesAway
    (fun _ rs ↦ ∃ t ∈ rs.flatMap MatchResult.trades, t.aggressorId = 3 ∧ t.price = 105)
    (by decide +kernel)
  obtain ⟨t, ht, hid, hprice⟩ := hp
  have hlimit := (hall _ _ _ hrun (by decide) t ht { id := 3, price := 100, quantity := 15 }
    (by decide) hid.symm (by decide)).1 rfl
  rw [hprice] at hlimit
  exact absurd hlimit (by decide)

end LobEngine
