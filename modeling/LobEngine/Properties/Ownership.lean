import LobEngine.Properties.Verdicts

/-!
# Whose rejections are whose

`translate_result` stamps every rejection with the client of the message that is processed. The
order that is rejected may be another client's: a stop that the message triggers, or an order that
the message asks to cancel. So every rejection reaches the client who submitted the order as long as
what rests opposite covers the stops of other clients that a message may trigger, and nobody asks to
cancel an order of another client that neither waits nor rests.
-/

namespace LobEngine

open BookOps Engine

/-- Whoever submitted the order for the symbol is the client. -/
def SubmittedBy (msgs : List OrderMessage) (symbol : String) (clientId : UInt64) (id : OrderId) :
    Prop :=
  ∀ x ∈ newOrders (messagesFor symbol msgs), x.orderId = id → x.clientId = clientId

instance (msgs : List OrderMessage) (symbol : String) (clientId : UInt64) (id : OrderId) :
    Decidable (SubmittedBy msgs symbol clientId id) := inferInstanceAs (Decidable (∀ x ∈ _, _ → _))

/-- What rests opposite covers the stops of other clients that a new order may trigger, and an
order to be cancelled that neither waits nor rests is the client's own. -/
def Speaks (woken : OrderId → Bool) (msgs : List OrderMessage)
    (s : Engine (OrderBook PriceLevel)) (msg : OrderMessage) (now : Timestamp) : Prop :=
  (msg.action = .newOrder → (sceneOf OrderBook.storedOrders s (msg.order now)).Closed woken ∧
    ∀ x ∈ (sceneOf OrderBook.storedOrders s (msg.order now)).movers woken, x.type = .market →
      (sceneOf OrderBook.storedOrders s (msg.order now)).Covers woken x.side ∨
        SubmittedBy (msgs ++ [msg]) msg.symbol msg.clientId x.id) ∧
  (msg.action = .cancelOrder → (∃ stop ∈ s.pendingStops, stop.id = msg.orderId) ∨
    (∃ o ∈ s.book.findOrder msg.orderId, o.isResting = true) ∨
      SubmittedBy (msgs ++ [msg]) msg.symbol msg.clientId msg.orderId)

instance (woken : OrderId → Bool) (msgs : List OrderMessage) (s : Engine (OrderBook PriceLevel))
    (msg : OrderMessage) (now : Timestamp) : Decidable (Speaks woken msgs s msg now) :=
  inferInstanceAs (Decidable (_ ∧ _))

/-- The message speaks for its clients, if some set of stops holds all that it may trigger. -/
def SpeaksFor (msgs : List OrderMessage) (m : ExchangeManager) (msg : OrderMessage)
    (now : Timestamp) : Prop :=
  ∀ s ∈ m.engine? msg.symbol, ∃ woken, Speaks woken msgs s msg now

/-- If the event rejects an order that was submitted, it carries the client who submitted it. -/
def ExchangeEvent.ReachesOwner (msgs : List OrderMessage) : ExchangeEvent → Prop
  | .orderRejected e => SubmittedBy msgs e.symbol e.clientId e.orderId
  | .orderAccepted _ | .orderCanceled _ | .tradeExecuted _ | .bookUpdated _ | .snapshot _ => True

instance (msgs : List OrderMessage) : DecidablePred (ExchangeEvent.ReachesOwner msgs)
  | .orderRejected e => inferInstanceAs (Decidable (SubmittedBy msgs e.symbol e.clientId e.orderId))
  | .orderAccepted _ | .orderCanceled _ | .tradeExecuted _ | .bookUpdated _ | .snapshot _ =>
    .isTrue trivial

/-- Every rejection of an answer reaches the client who submitted the order. -/
def RightClients (msgs : List OrderMessage) (out : List ExchangeEvent) : Prop :=
  ∀ ev ∈ out, ev.ReachesOwner msgs

instance (msgs : List OrderMessage) (out : List ExchangeEvent) :
    Decidable (RightClients msgs out) := inferInstanceAs (Decidable (∀ ev ∈ out, _))

/-- A session whose condition may look back at the messages so far. -/
inductive Conversation
    (Ok : List OrderMessage → ExchangeManager → OrderMessage → Timestamp → Prop) :
    List OrderMessage → ExchangeManager → List (List ExchangeEvent) → Prop
  | nil : Conversation Ok [] .init []
  | snoc {msgs : List OrderMessage} {msg : OrderMessage} {m m' : ExchangeManager}
      {outs : List (List ExchangeEvent)} {out : List ExchangeEvent} {fuel : Nat}
      {now ts : Timestamp} : Conversation Ok msgs m outs → Ok msgs m msg now →
      m.process fuel now ts msg = .ok (m', out) →
      Conversation Ok (msgs ++ [msg]) m' (outs ++ [out])

theorem Conversation.length_eq
    {Ok : List OrderMessage → ExchangeManager → OrderMessage → Timestamp → Prop}
    {msgs : List OrderMessage} {m : ExchangeManager} {outs : List (List ExchangeEvent)}
    (h : Conversation Ok msgs m outs) : outs.length = msgs.length := by
  induction h with
  | nil => rfl
  | snoc _ _ _ ih => rw [List.length_append, List.length_append, ih]; rfl

theorem Conversation.session
    {Ok : List OrderMessage → ExchangeManager → OrderMessage → Timestamp → Prop}
    {msgs : List OrderMessage} {m : ExchangeManager} {outs : List (List ExchangeEvent)}
    (h : Conversation Ok msgs m outs) : Session (fun _ _ ↦ True) msgs m outs := by
  induction h with
  | nil => exact .nil
  | snoc _ _ hp ih => exact ih.snoc trivial hp

/-- A cancel is rejected only where the order neither waits nor rests. -/
private theorem Submits.rejects_cancel {s s' : Engine (OrderBook PriceLevel)} {e : CancelOrderEvent}
    {r : MatchResult} (h : Submits s (.cancelOrder e) s' r) {id : OrderId} (hrej : r.Rejects id) :
    id = e.orderId ∧ (∀ stop ∈ s.pendingStops, stop.id ≠ e.orderId) ∧
      ∀ o, s.book.findOrder e.orderId = some o → o.isResting = false := by
  have hcancelled (q : Quantity) : ¬(cancelled e.orderId q e.timestamp).Rejects id := by
    simp [MatchResult.Rejects, cancelled]
  have hstart := Config.starts s (.cancelOrder e)
  rw [h.of_idle rfl] at hstart
  cases hstart with
  | stopCancelled => exact absurd hrej (hcancelled _)
  | orderCancelled => exact absurd hrej (hcancelled _)
  | @cancelRejected _ reason hp hr =>
    obtain ⟨rej, hmem, rfl⟩ := hrej
    obtain rfl := List.mem_singleton.mp hmem
    refine ⟨rfl, fun stop hstop hid ↦ ?_, hr⟩
    exact absurd (List.find?_eq_none.mp hp stop hstop) (by simp [hid])

/-- The rejections of one message that speaks for its clients reach the right ones. -/
private theorem Session.rightClients {msgs : List OrderMessage} {m m' : ExchangeManager}
    {outs : List (List ExchangeEvent)} (h : Session (fun _ _ ↦ True) msgs m outs)
    {msg : OrderMessage} (hd : DistinctIds (msgs ++ [msg])) {fuel : Nat} {now ts : Timestamp}
    {out : List ExchangeEvent} (hp : m.process fuel now ts msg = .ok (m', out))
    (hok : SpeaksFor msgs m msg now) : RightClients (msgs ++ [msg]) out := by
  rcases ExchangeManager.process_ok hp with ⟨-, -, rfl⟩ | ⟨i, s', r, hi, hs, -, rfl⟩
  · exact fun ev hev ↦ absurd hev List.not_mem_nil
  have hsub : Submits (m.engineAt i) (msg.event now) s' r := ⟨fuel, hs⟩
  have hengine : m.engine? msg.symbol = some (m.engineAt i) := by
    rw [ExchangeManager.engine?, hi]
    rfl
  obtain ⟨woken, hok⟩ := hok _ hengine
  have hown : ∀ rej ∈ r.rejections,
      SubmittedBy (msgs ++ [msg]) msg.symbol msg.clientId rej.orderId := by
    intro rej hrej
    cases ha : msg.action with
    | newOrder =>
      obtain ⟨hz, hcovers⟩ := hok.1 ha
      have hevent := msg.event_of_newOrder ha now
      obtain ⟨es, rs, t, hrun, href, hf, -⟩ := h.refines hd hi now
      obtain ⟨_, t', _, hsub', htsub, -, -⟩ := href.answers hf hi ts
      obtain ⟨rfl, rfl⟩ := hsub'.unique hsub
      obtain ⟨x, hx, ht, hid, hnot⟩ :=
        href.refused hrun (hevent ▸ hf) (hevent ▸ htsub) hz rej hrej
      rw [← hid]
      exact (hcovers x hx ht).resolve_left hnot
    | cancelOrder =>
      rw [msg.event_of_cancelOrder ha now] at hsub
      obtain ⟨hid, hstops, hresting⟩ := hsub.rejects_cancel ⟨rej, hrej, rfl⟩
      rw [hid]
      rcases hok.2 ha with ⟨stop, hstop, hsid⟩ | ⟨o, ho, hr⟩ | hsubmitted
      · exact absurd hsid (hstops stop hstop)
      · exact absurd (hr.symm.trans (hresting o ho)) (by decide)
      · exact hsubmitted
  intro ev hev
  simp only [ExchangeManager.translateResult, List.mem_append, List.mem_map,
    List.mem_singleton] at hev
  rcases hev with (((⟨rej, hrej, rfl⟩ | ⟨rep, -, rfl⟩) | ⟨trade, -, rfl⟩) | hev) | rfl
  · exact hown rej hrej
  · trivial
  · trivial
  · split at hev
    · rw [List.mem_singleton.mp hev]
      trivial
    · exact absurd hev List.not_mem_nil
  · trivial

/-- In a conversation with distinct identifiers, every message of which speaks for its clients,
every rejection reaches the client who submitted the order. -/
theorem rejections_reach_owner {msgs : List OrderMessage} {m : ExchangeManager}
    {outs : List (List ExchangeEvent)} (h : Conversation SpeaksFor msgs m outs)
    (hd : DistinctIds msgs) :
    ∀ k out, outs[k]? = some out → RightClients (msgs.take (k + 1)) out := by
  induction h with
  | nil => exact fun k out hk ↦ absurd hk (by simp)
  | @snoc msgs msg m m' outs out fuel now ts hconv hok hp ih =>
    have hlen := hconv.length_eq
    intro k out' hk
    rcases Nat.lt_trichotomy k outs.length with hlt | rfl | hgt
    · rw [List.getElem?_append_left hlt] at hk
      rw [List.take_append_of_le_length (by omega)]
      exact ih hd.left k out' hk
    · rw [List.getElem?_concat_length] at hk
      obtain rfl := Option.some.inj hk
      rw [hlen, List.take_of_length_le (by rw [List.length_append, List.length_singleton])]
      exact hconv.session.rightClients hd hp hok
    · rw [List.getElem?_eq_none (by rw [List.length_append, List.length_singleton]; omega)] at hk
      exact absurd hk (by simp)

/-- A stop of client 8 that the first trade triggers. -/
private def waitingStop : OrderMessage :=
  { orderId := 2, clientId := 8, symbol := "STOCK_1", type := .stop, quantity := 5,
    stopPrice := 100 }

/-- An order to sell. -/
private def offer : OrderMessage :=
  { orderId := 1, clientId := 7, symbol := "STOCK_1", side := .sell, quantity := 2, price := 100 }

/-- An order of the given client that takes the offer. -/
private def taker (clientId : UInt64) : OrderMessage :=
  { orderId := 3, clientId := clientId, symbol := "STOCK_1", quantity := 2, price := 100 }

/-- Client 8 triggers its own stop, which is rejected. -/
theorem rejections_reach_owner_own_stop : ∃ (m : ExchangeManager)
    (outs : List (List ExchangeEvent)), (∃ ev ∈ outs.flatten, ev.rejects 2 = true) ∧
      Conversation SpeaksFor [offer, waitingStop, taker 8] m outs ∧ ∀ k out,
        outs[k]? = some out → RightClients ([offer, waitingStop, taker 8].take (k + 1)) out := by
  let speaks (msgs : List OrderMessage) (m : ExchangeManager) (msg : OrderMessage) : Prop :=
    ∀ s ∈ m.engine? msg.symbol, Speaks (fun _ ↦ true) msgs s msg 0
  obtain ⟨a, ha, b, hb, c, hc, hev, hok₁, hok₂, hok₃⟩ :
      ∃ a ∈ (ExchangeManager.init.process 50 0 0 offer).toOption,
        ∃ b ∈ (a.1.process 50 0 0 waitingStop).toOption,
          ∃ c ∈ (b.1.process 50 0 0 (taker 8)).toOption,
            (∃ ev ∈ [a.2, b.2, c.2].flatten, ev.rejects 2 = true) ∧ speaks [] .init offer ∧
              speaks [offer] a.1 waitingStop ∧ speaks [offer, waitingStop] b.1 (taker 8) := by
    decide +kernel
  have hspeaks {msgs : List OrderMessage} {m : ExchangeManager} {msg : OrderMessage}
      (h : speaks msgs m msg) : SpeaksFor msgs m msg 0 := fun s hs ↦ ⟨_, h s hs⟩
  have hrun : Conversation SpeaksFor [offer, waitingStop, taker 8] c.1 [a.2, b.2, c.2] :=
    ((Conversation.nil.snoc (hspeaks hok₁) (eq_ok_of_toOption ha)).snoc (hspeaks hok₂)
      (eq_ok_of_toOption hb)).snoc (hspeaks hok₃) (eq_ok_of_toOption hc)
  exact ⟨c.1, [a.2, b.2, c.2], hev, hrun, rejections_reach_owner hrun (by decide)⟩

/-- The rejection of the stop goes to the client whose order triggered it. -/
theorem rejection_reaches_stranger : ¬∀ (msgs : List OrderMessage) (m : ExchangeManager)
    (outs : List (List ExchangeEvent)), Session (fun _ _ ↦ True) msgs m outs → DistinctIds msgs →
      ∀ k out, outs[k]? = some out → RightClients (msgs.take (k + 1)) out := by
  intro hall
  obtain ⟨a, ha, b, hb, c, hc, hwrong⟩ :
      ∃ a ∈ (ExchangeManager.init.process 50 0 0 offer).toOption,
        ∃ b ∈ (a.1.process 50 0 0 waitingStop).toOption,
          ∃ c ∈ (b.1.process 50 0 0 (taker 9)).toOption,
            ¬RightClients [offer, waitingStop, taker 9] c.2 := by decide +kernel
  have hrun : Session (fun _ _ ↦ True) [offer, waitingStop, taker 9] c.1 [a.2, b.2, c.2] :=
    ((Session.nil.snoc trivial (eq_ok_of_toOption ha)).snoc trivial (eq_ok_of_toOption hb)).snoc
      trivial (eq_ok_of_toOption hc)
  exact hwrong (hall _ _ _ hrun (by decide) 2 c.2 rfl)

end LobEngine
