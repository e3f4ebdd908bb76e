import LobEngine.Properties.Ledger
import LobEngine.Properties.LimitProtection
import LobEngine.Properties.WellFormed
import LobEngine.Refinement.Sessions

/-!
# Published market data is faithful

An event names the two orders of a trade by side only, and a converted stop changes its type
and price on the way. Every live order is backed by a submitted one, so both parties of a trade
were submitted with their sides, and its price is within their limits. The closing event
describes the book that the message leaves.
-/

namespace LobEngine

open BookOps Engine

/-! ### Both parties of a trade -/

/-- The buying order of a trade. -/
def Trade.buyer (t : Trade) : OrderId :=
  if t.aggressorSide = .buy then t.aggressorId else t.passiveId

/-- The selling order of a trade. -/
def Trade.seller (t : Trade) : OrderId :=
  if t.aggressorSide = .buy then t.passiveId else t.aggressorId

/-- Both parties of a trade were submitted with their sides, and its price is within their
limits. -/
structure Fair (os : List Order) (t : Trade) : Prop where
  buyer : TakesAt os .buy t.buyer t.price
  seller : TakesAt os .sell t.seller t.price

variable {os os' : List Order} {o : Order}

/-- A backed order takes its own price. -/
private theorem Backed.takes_own (h : Backed os o) : TakesAt os o.side o.id o.price := by
  obtain ⟨x, hx, hid, hside, hlimit⟩ := h
  refine ⟨x, hx, hid, hside, fun hr ↦ ?_⟩
  rw [(hlimit hr).2]
  cases hs : x.side with
  | buy => simp [Order.crosses_buy hs]
  | sell => simp [Order.crosses_sell hs]

/-- A fill of two backed orders of opposite sides is fair. -/
private theorem fair_fillTrade {a passive : Order} (ha : Backed os a) (hp : Backed os passive)
    (hside : passive.side = a.side.opposite) (ht : Config.trades a passive.price = true)
    (q : Quantity) : Fair os (fillTrade a passive q) := by
  have hactive := ha.takes ht
  have hresting := hp.takes_own
  rw [hside] at hresting
  cases hs : a.side with
  | buy =>
    have hagg : (fillTrade a passive q).aggressorSide = .buy := by
      simp [fillTrade, Order.isBuy, hs]
    rw [hs] at hactive hresting
    constructor
    · rw [Trade.buyer, if_pos hagg]
      exact hactive
    · rw [Trade.seller, if_pos hagg]
      exact hresting
  | sell =>
    have hagg : ¬(fillTrade a passive q).aggressorSide = .buy := by
      simp [fillTrade, Order.isBuy, hs]
    rw [hs] at hactive hresting
    constructor
    · rw [Trade.buyer, if_neg hagg]
      exact hresting
    · rw [Trade.seller, if_neg hagg]
      exact hactive

/-- The invariant of the machine: what is live is backed, what is traded is fair. -/
structure Faithful (os : List Order) (c : Config ReferenceBook) : Prop where
  backed : ∀ o ∈ c.live, Backed os o
  fair : ∀ t ∈ c.result.trades, Fair os t

/-- Every move keeps the machine faithful. -/
theorem Faithful.moves {U : OrderId → Prop} {c d : Config ReferenceBook} (ho : Orderly U c)
    (h : Faithful os c) (hm : Config.Moves c d) : Faithful os d := by
  constructor
  · intro o hl
    obtain ⟨x, hx, hd⟩ := hm.live ho hl
    exact (h.backed x hx).descend hd
  · intro t ht
    rcases hm.newTrade ho.distinct with he | ⟨s, a, K, r, passive, q, rfl, hmem, hside, htr, he⟩
    · exact h.fair t (he ▸ ht)
    · rw [he, List.mem_append, List.mem_singleton] at ht
      rcases ht with ht | rfl
      · exact h.fair t ht
      · have ha := h.backed a (List.mem_append_right _ List.mem_cons_self)
        have hp := h.backed passive (List.mem_append_left _ hmem)
        exact fair_fillTrade ha hp hside htr q

/-- Every event but a modify starts faithful. -/
private theorem faithful_start {t : Engine ReferenceBook} {e : OrderEvent} (hm : NoModify e)
    {r : MatchResult} (h : ∀ o ∈ Config.live ⟨t, [], r⟩, Backed os o) (he : e.orders ⊆ os) :
    Faithful os (.start t e) := by
  constructor
  · intro o hl
    rcases live_start hm hl with hl | ⟨x, st, hx, rfl⟩
    · exact h o hl
    · apply backed_entering
      exact he (mem_orders_of_handed hx)
  · intro tr htr
    rw [start_trades] at htr
    exact absurd htr List.not_mem_nil

section Run

variable {es : List OrderEvent} {e : OrderEvent} {t t' : Engine ReferenceBook}
  {rs : List MatchResult} {r r' : MatchResult}

/-- One event of a fresh run without modifies. -/
private theorem Run.faithful_submit (h : Run (fun _ ↦ NoModify) es t rs) (hf : Fresh (es ++ [e]))
    (hback : ∀ o ∈ Config.live ⟨t, [], r⟩, Backed (submittedOrders es) o) (hm : NoModify e)
    (hs : Submits t e t' r') : Faithful (submittedOrders (es ++ [e])) ⟨t', [], r'⟩ := by
  rw [submittedOrders_append, submittedOrders_singleton]
  have hold : submittedOrders es ⊆ submittedOrders es ++ e.orders := List.subset_append_left _ _
  have hnew : e.orders ⊆ submittedOrders es ++ e.orders := List.subset_append_right _ _
  apply h.submit_induction hf hs
  · intro _
    exact faithful_start hm (fun o ho ↦ (hback o ho).mono hold) hnew
  · intro _ _ ho hc hmove
    exact hc.moves ho hmove

/-- On a fresh run without modifies every live order is backed. -/
theorem Run.backed (h : Run (fun _ ↦ NoModify) es t rs) (hf : Fresh es) :
    ∀ o ∈ Config.live ⟨t, [], {}⟩, Backed (submittedOrders es) o := by
  induction h with
  | nil => exact fun o ho ↦ absurd ho List.not_mem_nil
  | snoc hrun hm hs ih => exact (hrun.faithful_submit hf (ih hf.left) hm hs).backed

end Run

theorem FromMessage.noModify {e : OrderEvent} (h : FromMessage e) : NoModify e := by
  obtain ⟨msg, now, rfl⟩ := h
  unfold OrderMessage.event
  split <;> trivial

/-! ### Events -/

/-- An order of this side was submitted under the identifier, and if it has a limit, the price is
no worse. -/
def Party (msgs : List OrderMessage) (side : Side) (id : OrderId) (p : Price) : Prop :=
  ∃ x ∈ newOrders msgs, x.orderId = id ∧ x.side = side ∧
    (x.type = .limit ∨ x.type = .stopLimit ∨ x.type = .iceberg →
      match side with
      | .buy => p ≤ x.price
      | .sell => x.price ≤ p)

/-- The event quotes the book: its best prices, zero for an empty side, and the numbers of its
prices. -/
structure Quotes (b : OrderBook PriceLevel) (e : BookUpdatedEvent) : Prop where
  bid : IsGreatest (b.prices .buy) e.bestBid ∨ b.prices .buy = ∅ ∧ e.bestBid = 0
  ask : IsLeast (b.prices .sell) e.bestAsk ∨ b.prices .sell = ∅ ∧ e.bestAsk = 0
  bidLevels : e.bidLevels = (b.prices .buy).ncard
  askLevels : e.askLevels = (b.prices .sell).ncard

/-- What takes a price among the orders of the messages is a party. -/
private theorem TakesAt.party {msgs : List OrderMessage} {es : List OrderEvent}
    (hes : EventsOf msgs es)
    {side : Side} {id : OrderId} {p : Price} (h : TakesAt (submittedOrders es) side id p) :
    Party msgs side id p := by
  obtain ⟨o, ho, hid, hside, hcross⟩ := h
  obtain ⟨x, hx, now, rfl⟩ := hes.exists_message ho
  refine ⟨x, hx, hid, hside, fun htype ↦ ?_⟩
  have hr : (x.order now).canRest = true := by
    rcases htype with h | h | h <;> simp [Order.canRest, OrderMessage.order, h]
  have hp := hcross hr
  cases side with
  | buy =>
    rw [Order.crosses_buy hside] at hp
    exact of_decide_eq_true hp
  | sell =>
    rw [Order.crosses_sell hside] at hp
    exact of_decide_eq_true hp

/-- The closing event quotes a well-formed book. -/
private theorem quotes_bookEvent {b : OrderBook PriceLevel} (h : b.WellFormed) (msg : OrderMessage)
    (ts : Timestamp) : Quotes b (ExchangeManager.bookEvent msg ts b) where
  bid := by
    cases hb : b.bestBid with
    | none => exact .inr ⟨h.noBid.mp hb, by simp [ExchangeManager.bookEvent, hb]⟩
    | some p =>
      left
      have hp : (ExchangeManager.bookEvent msg ts b).bestBid = p := by
        simp [ExchangeManager.bookEvent, hb]
      rw [hp]
      exact (h.bestBid p).mp hb
  ask := by
    cases hb : b.bestAsk with
    | none => exact .inr ⟨h.noAsk.mp hb, by simp [ExchangeManager.bookEvent, hb]⟩
    | some p =>
      left
      have hp : (ExchangeManager.bookEvent msg ts b).bestAsk = p := by
        simp [ExchangeManager.bookEvent, hb]
      rw [hp]
      exact (h.bestAsk p).mp hb
  bidLevels := h.levelCount .buy
  askLevels := h.levelCount .sell

/-- A trade event of an answer is that of a trade of the result. -/
private theorem ExchangeManager.trade_of_mem {ts : Timestamp} {msg : OrderMessage} {r : MatchResult}
    {b : OrderBook PriceLevel} {e : TradeExecutedEvent}
    (h : .tradeExecuted e ∈ translateResult ts msg r b) :
    ∃ t ∈ r.trades, e = tradeEvent msg ts t := by
  simp only [translateResult, List.mem_append, List.mem_map, List.mem_singleton] at h
  rcases h with (((⟨_, _, h⟩ | ⟨_, _, h⟩) | ⟨t, ht, h⟩) | h) | h
  · exact absurd h (by simp)
  · exact absurd h (by simp)
  · exact ⟨t, ht, (ExchangeEvent.tradeExecuted.inj h).symm⟩
  · split at h
    · exact absurd (List.mem_singleton.mp h) (by simp)
    · exact absurd h List.not_mem_nil
  · exact absurd h (by simp)

/-- A message with an identifier of its own is answered; every trade it reports is between orders
submitted for its symbol on the reported sides, at a price no worse than their limits, and the
answer of a known symbol closes with a quote of the book that the message leaves. -/
theorem market_data_faithful {msgs : List OrderMessage} {m : ExchangeManager}
    {outs : List (List ExchangeEvent)} (h : Session (fun _ _ ↦ True) msgs m outs)
    {msg : OrderMessage} (hd : DistinctIds (msgs ++ [msg])) (now ts : Timestamp) :
    ∃ m' out, m.Answers now ts msg m' out ∧
      (∀ e, .tradeExecuted e ∈ out → e.symbol = msg.symbol ∧
        Party (messagesFor e.symbol (msgs ++ [msg])) .buy e.buyOrderId e.price ∧
        Party (messagesFor e.symbol (msgs ++ [msg])) .sell e.sellOrderId e.price) ∧
      ∀ s', m'.engine? msg.symbol = some s' → ∃ events e, out = events ++ [.bookUpdated e] ∧
        e.symbol = msg.symbol ∧ Quotes s'.book e := by
  cases hi : m.index[msg.symbol]? with
  | none =>
    refine ⟨m, [], ExchangeManager.answers_unknown hi, fun e he ↦ absurd he List.not_mem_nil, ?_⟩
    intro s' hs'
    rw [ExchangeManager.engine?, hi] at hs'
    exact absurd hs' (by simp)
  | some i =>
    obtain ⟨es, rs, t, hrun, href, hf, hes⟩ := h.refines hd hi now
    obtain ⟨s', t', r, hs, ht, href', hans⟩ := href.answers hf hi ts
    have hrun' : Run (fun _ ↦ NoModify) es t rs := hrun.mono fun _ _ ↦ FromMessage.noModify
    have hm : NoModify (msg.event now) := FromMessage.noModify ⟨msg, now, rfl⟩
    have hfaith := hrun'.faithful_submit hf (hrun'.backed hf.left) hm ht
    have hes' : EventsOf (messagesFor msg.symbol (msgs ++ [msg])) (es ++ [msg.event now]) := by
      rw [messagesFor_append, if_pos rfl]
      exact hes.snoc msg now
    refine ⟨_, _, hans, fun e he ↦ ?_, fun s'' hs'' ↦ ?_⟩
    · obtain ⟨tr, htr, rfl⟩ := ExchangeManager.trade_of_mem he
      have hfair := hfaith.fair tr htr
      exact ⟨rfl, hfair.buyer.party hes', hfair.seller.party hes'⟩
    · have hindex : (m.setEngine i s').index[msg.symbol]? = some i := hi
      rw [ExchangeManager.engine?, hindex, Option.map_some, ExchangeManager.engineAt_setEngine,
        if_pos rfl] at hs''
      obtain rfl := Option.some.inj hs''
      exact ⟨_, _, rfl, rfl, quotes_bookEvent href'.tracks.represents.wellFormed msg ts⟩

/-- Two orders to sell and a stop-limit order that the first trade triggers. -/
private def offersAndStop : List OrderMessage :=
  [{ orderId := 1, symbol := "STOCK_2", side := .sell, quantity := 2, price := 100 },
    { orderId := 2, symbol := "STOCK_2", side := .sell, quantity := 5, price := 101 },
    { orderId := 3, symbol := "STOCK_2", type := .stopLimit, quantity := 3, price := 102
      stopPrice := 100 }]

/-- The order that takes the first offer. -/
private def takesFirst : OrderMessage :=
  { orderId := 4, symbol := "STOCK_2", quantity := 2, price := 100 }

/-- The trade that the stop makes is between two orders of earlier messages. -/
theorem market_data_faithful_cascade : ∃ (m m' : ExchangeManager) (out : List ExchangeEvent)
    (e : TradeExecutedEvent), m.Answers 0 0 takesFirst m' out ∧ .tradeExecuted e ∈ out ∧
      e.buyOrderId = 3 ∧ e.sellOrderId = 2 ∧
      Party (messagesFor e.symbol (offersAndStop ++ [takesFirst])) .buy e.buyOrderId e.price ∧
      Party (messagesFor e.symbol (offersAndStop ++ [takesFirst])) .sell e.sellOrderId e.price := by
  obtain ⟨m, outs, hrun, a, ha, hmem⟩ := Session.exists_of_serve (fun _ _ ↦ True) 50
    offersAndStop (fun m ↦ ∃ a ∈ (m.process 50 0 0 takesFirst).toOption,
      ExchangeEvent.tradeExecuted { symbol := "STOCK_2", buyOrderId := 3, sellOrderId := 2
                                    price := 101, quantity := 3 } ∈ a.2) (by decide +kernel)
  obtain ⟨m', out, hans, htrades, -⟩ :=
    market_data_faithful hrun (by decide : DistinctIds (offersAndStop ++ [takesFirst])) 0 0
  obtain ⟨rfl, rfl⟩ := Prod.mk.inj (hans.only 50 a (eq_ok_of_toOption ha))
  obtain ⟨-, hbuy, hsell⟩ := htrades _ hmem
  exact ⟨m, a.1, a.2, _, hans, hmem, rfl, rfl, hbuy, hsell⟩

end LobEngine
