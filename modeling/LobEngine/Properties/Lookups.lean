import LobEngine.Gateway.Session
import LobEngine.Refinement.Runs

/-!
# The matching loops find their orders

Neither the gateway nor the engine checks identifiers. The engine meets no missing order and no
empty level as long as no order that may come to rest is submitted under an identifier that is
still in use where it would rest. A market order or a stop may carry any identifier.
-/

namespace LobEngine

open BookOps Engine

/-- If the order of a message can come to rest, its identifier is not that of an order in the
book or of a pending stop-limit, and owns no entry, dead or alive, in the queue of the level
that the order would join. -/
def IdFree (m : ExchangeManager) (msg : OrderMessage) : Prop :=
  msg.action = .newOrder → (msg.order 0).canRest = true → ∀ s ∈ m.engine? msg.symbol,
    s.book.findOrder msg.orderId = none ∧
      (∀ stop ∈ s.pendingStops, stop.type ≠ .stop → stop.id ≠ msg.orderId) ∧
      ∀ l ∈ s.book.getLevel msg.side msg.price, msg.orderId ∉ l.queue

instance (m : ExchangeManager) (msg : OrderMessage) : Decidable (IdFree m msg) :=
  inferInstanceAs (Decidable (_ → _ → _))

/-- The engine has room for every order that may come to rest. -/
def Roomy (s : Engine (OrderBook PriceLevel)) : Prop :=
  ∃ r, Tracks false (fun _ ↦ True) s.book (s.outstanding []) r

private theorem canRest_converted {stop : Order} (h : stop.converted.canRest = true) :
    stop.type ≠ .stop := by
  intro ht
  rw [Order.converted, if_pos ht] at h
  exact absurd h (by simp [Order.canRest])

/-- A message whose identifier is free is an event that a roomy engine admits. -/
theorem IdFree.admits {m : ExchangeManager} {msg : OrderMessage} (h : IdFree m msg)
    {i : Fin instrumentCount} (hi : m.index[msg.symbol]? = some i) (now : Timestamp) :
    Admits false (fun _ ↦ True) (m.engineAt i) (msg.event now) := by
  unfold OrderMessage.event
  split
  · trivial
  · next ha =>
    intro hr
    have hs : m.engineAt i ∈ m.engine? msg.symbol := by
      rw [ExchangeManager.engine?, hi]
      rfl
    obtain ⟨hfind, hstops, hqueue⟩ := h ha hr _ hs
    refine ⟨⟨hfind, fun _ ⟨l, hl, hid⟩ ↦ hqueue l hl hid⟩, trivial, fun stop hstop ht ↦ ?_⟩
    exact hstops stop hstop (canRest_converted ht)

/-- One message. -/
theorem Roomy.submits {m : ExchangeManager} {msg : OrderMessage} (h : IdFree m msg)
    {i : Fin instrumentCount} (hi : m.index[msg.symbol]? = some i) (now : Timestamp)
    (hr : Roomy (m.engineAt i)) :
    ∃ s' r, Submits (m.engineAt i) (msg.event now) s' r ∧ Roomy s' := by
  obtain ⟨r, htracks⟩ := hr
  obtain ⟨s', r', res, hs, -, htracks'⟩ := Related.submits htracks (h.admits hi now)
  exact ⟨s', res, hs, r', htracks'⟩

/-- Every engine of a session with free identifiers is roomy. -/
private theorem Session.roomy {msgs : List OrderMessage} {m : ExchangeManager}
    {outs : List (List ExchangeEvent)} (h : Session IdFree msgs m outs)
    (i : Fin instrumentCount) : Roomy (m.engineAt i) := by
  refine h.engine_induction ⟨_, Tracks.init false _⟩ (fun hfree hi hr hs ↦ ?_) i
  obtain ⟨s'', r'', hs', hr'⟩ := hr.submits hfree hi _
  rw [(hs.unique hs').1]
  exact hr'

/-- In a session with free identifiers the next such message is answered, and whatever the fuel
its processing meets neither an empty level nor a missing order. -/
theorem session_finds_orders {msgs : List OrderMessage} {m : ExchangeManager}
    {outs : List (List ExchangeEvent)} (h : Session IdFree msgs m outs) {msg : OrderMessage}
    (hfree : IdFree m msg) (now ts : Timestamp) :
    (∀ fuel f, m.process fuel now ts msg = .error f → f = .outOfFuel) ∧
      ∃ N, ∀ fuel, N < fuel → ∃ m' out, m.process fuel now ts msg = .ok (m', out) := by
  refine ⟨fun fuel f hf ↦ ?_, ?_⟩
  · obtain ⟨i, hi, he⟩ := ExchangeManager.process_error hf
    obtain ⟨s', r, hs, -⟩ := (h.roomy i).submits hfree hi now
    exact hs.error he
  · cases hi : m.index[msg.symbol]? with
    | none => exact ⟨0, fun fuel _ ↦ ⟨m, [], by simp only [ExchangeManager.process, hi]⟩⟩
    | some i =>
      obtain ⟨s', r, hs, -⟩ := (h.roomy i).submits hfree hi now
      obtain ⟨N, hN⟩ := hs.eventually
      refine ⟨N, fun fuel hfuel ↦ ?_⟩
      obtain ⟨m', hm'⟩ : ∃ m', m.process fuel now ts msg = .ok (m', _) :=
        ExchangeManager.process_of_submit hi (hN fuel hfuel)
      exact ⟨m', _, hm'⟩

/-- Two sell orders and the cancel of the first, whose identifier is used again at once. -/
private def usedAgain : List OrderMessage :=
  [{ orderId := 1, symbol := "STOCK_1", side := .sell, quantity := 10, price := 100 },
    { orderId := 2, symbol := "STOCK_1", side := .sell, quantity := 10, price := 101 },
    { orderId := 1, symbol := "STOCK_1", action := .cancelOrder },
    { orderId := 1, symbol := "STOCK_1", side := .sell, quantity := 10, price := 100 }]

/-- A market order under the identifier of a resting order. -/
private def marketTwice : OrderMessage :=
  { orderId := 2, symbol := "STOCK_1", type := .market, quantity := 20 }

theorem session_finds_orders_used_again : ∃ (m : ExchangeManager)
    (outs : List (List ExchangeEvent)), Session IdFree usedAgain m outs ∧
      ∃ N, ∀ fuel, N < fuel → ∃ m' out, m.process fuel 0 0 marketTwice = .ok (m', out) := by
  obtain ⟨m, outs, hrun, hfree⟩ := Session.exists_of_serve IdFree 50 usedAgain
    (fun m ↦ IdFree m marketTwice) (by decide +kernel)
  exact ⟨m, outs, hrun, (session_finds_orders hrun hfree 0 0).2⟩

/-- Two orders under one identifier: filling the first erases the entry of the second in the
identifier map as well. -/
private def sameId : List OrderMessage :=
  [{ orderId := 1, symbol := "STOCK_1", side := .sell, quantity := 10, price := 100 },
    { orderId := 1, symbol := "STOCK_1", side := .sell, quantity := 10, price := 101 }]

/-- Identifiers that are used freely lead the match loop to a missing order. -/
theorem missing_order_reached : ¬∀ (msgs : List OrderMessage) (m : ExchangeManager)
    (outs : List (List ExchangeEvent)), Session (fun _ _ ↦ True) msgs m outs →
      ∀ (msg : OrderMessage) (fuel : Nat) (now ts : Timestamp) (f : Fault),
        m.process fuel now ts msg = .error f → f = .outOfFuel := by
  intro hall
  obtain ⟨m, outs, hrun, hmiss⟩ := Session.exists_of_serve (fun _ _ ↦ True) 50 sameId
    (fun m ↦ ((m.process 50 0 0 marketTwice).map fun _ ↦ ()) = .error .missingOrder)
    (by decide +kernel)
  cases hp : m.process 50 0 0 marketTwice with
  | ok a =>
    rw [hp] at hmiss
    exact absurd hmiss (by simp [Except.map])
  | error f =>
    rw [hp] at hmiss
    obtain rfl : f = .missingOrder := Except.error.inj hmiss
    exact absurd (hall _ _ _ hrun _ _ _ _ _ hp) (by decide)

end LobEngine
