import LobEngine.Gateway.Session

/-!
# The messages for one symbol

Every symbol has an engine of its own, which no message for another symbol reaches. What a
session does for a symbol is what the messages for that symbol do to one engine.
-/

namespace LobEngine

open Engine

/-- The messages for a symbol. -/
def messagesFor (sym : String) (msgs : List OrderMessage) : List OrderMessage :=
  msgs.filter (·.symbol == sym)

/-- The messages that submit an order. -/
def newOrders (msgs : List OrderMessage) : List OrderMessage := msgs.filter (·.action == .newOrder)

/-- No two orders for one symbol carry one identifier. -/
def DistinctIds (msgs : List OrderMessage) : Prop :=
  ∀ sym, ((newOrders (messagesFor sym msgs)).map OrderMessage.orderId).Nodup

instance (msgs : List OrderMessage) : Decidable (DistinctIds msgs) :=
  decidable_of_iff (∀ sym ∈ msgs.map OrderMessage.symbol,
    ((newOrders (messagesFor sym msgs)).map OrderMessage.orderId).Nodup) (by
      refine ⟨fun h sym ↦ ?_, fun h sym _ ↦ h sym⟩
      by_cases hsym : sym ∈ msgs.map OrderMessage.symbol
      · exact h sym hsym
      · have hnil : messagesFor sym msgs = [] := by
          apply List.filter_eq_nil_iff.mpr
          intro msg hmsg he
          exact hsym (eq_of_beq he ▸ List.mem_map_of_mem hmsg)
        rw [hnil]
        exact List.nodup_nil)

/-- The symbol an event is about. -/
def ExchangeEvent.symbol : ExchangeEvent → String
  | .orderAccepted e => e.symbol
  | .orderRejected e => e.symbol
  | .orderCanceled e => e.symbol
  | .tradeExecuted e => e.symbol
  | .bookUpdated e => e.symbol
  | .snapshot e => e.symbol

/-- The events about a symbol. -/
def eventsFor (sym : String) (outs : List (List ExchangeEvent)) : List ExchangeEvent :=
  outs.flatten.filter (·.symbol == sym)

/-- Messages for one symbol given to a new engine: the engine reached and the answers. -/
inductive Dealing :
    List OrderMessage → Engine (OrderBook PriceLevel) → List (List ExchangeEvent) → Prop
  | nil : Dealing [] .init []
  | snoc {msgs : List OrderMessage} {msg : OrderMessage} {s s' : Engine (OrderBook PriceLevel)}
      {outs : List (List ExchangeEvent)} {r : MatchResult} {now ts : Timestamp} :
      Dealing msgs s outs → Submits s (msg.event now) s' r →
      Dealing (msgs ++ [msg]) s' (outs ++ [ExchangeManager.translateResult ts msg r s'.book])

/-! ### Routing -/

namespace ExchangeManager

/-- A new manager finds a position under its own symbol only. -/
private theorem symbolAt_of_index {sym : String} {i : Fin instrumentCount}
    (h : init.index[sym]? = some i) : symbolAt i = sym := by
  have hfold (is : List (Fin instrumentCount)) (index : Std.ExtTreeMap String (Fin instrumentCount))
      (h : (is.foldl (fun index i ↦ index.insert (symbolAt i) i) index)[sym]? = some i) :
      index[sym]? = some i ∨ symbolAt i = sym := by
    induction is generalizing index with
    | nil => exact .inl h
    | cons j is ih =>
      rcases ih _ h with h | h
      · rw [Std.ExtTreeMap.getElem?_insert] at h
        split at h
        · next hj =>
          obtain rfl := Option.some.inj h
          exact .inr (Std.LawfulEqOrd.eq_of_compare hj)
        · exact .inl h
      · exact .inr h
  exact (hfold _ _ h).resolve_left (by simp)

variable {msg : OrderMessage} {ts : Timestamp} {r : MatchResult} {book : OrderBook PriceLevel}

/-- Every event of an answer is about the symbol of the message. -/
theorem symbol_of_mem_translateResult {ev : ExchangeEvent}
    (h : ev ∈ translateResult ts msg r book) : ev.symbol = msg.symbol := by
  simp only [translateResult, List.mem_append, List.mem_map, List.mem_singleton] at h
  rcases h with (((⟨rej, -, rfl⟩ | ⟨rep, -, rfl⟩) | ⟨trade, -, rfl⟩) | h) | rfl
  · rfl
  · rfl
  · rfl
  · split at h
    · rw [List.mem_singleton.mp h]
      rfl
    · exact absurd h List.not_mem_nil
  · rfl

end ExchangeManager

section Session

variable {Ok : ExchangeManager → OrderMessage → Prop} {msgs : List OrderMessage}
  {m : ExchangeManager} {outs : List (List ExchangeEvent)}

/-- The index never changes. -/
theorem Session.index (h : Session Ok msgs m outs) : m.index = ExchangeManager.init.index := by
  induction h with
  | nil => rfl
  | snoc _ _ hp ih =>
    rcases ExchangeManager.process_ok hp with ⟨-, rfl, -⟩ | ⟨i, s', r, -, -, rfl, -⟩
    · exact ih
    · exact ih

/-- In a session one position serves one symbol. -/
private theorem Session.symbol_inj (h : Session Ok msgs m outs) {sym sym' : String}
    {i : Fin instrumentCount} (hi : m.index[sym]? = some i) (hi' : m.index[sym']? = some i) :
    sym = sym' := by
  rw [h.index] at hi hi'
  exact (ExchangeManager.symbolAt_of_index hi).symm.trans (ExchangeManager.symbolAt_of_index hi')

theorem messagesFor_append (sym : String) (msgs : List OrderMessage) (msg : OrderMessage) :
    messagesFor sym (msgs ++ [msg]) =
      messagesFor sym msgs ++ if msg.symbol = sym then [msg] else [] := by
  rw [messagesFor, List.filter_append, ← messagesFor]
  by_cases h : msg.symbol = sym
  · rw [if_pos h, List.filter_cons_of_pos (by simpa using h), List.filter_nil]
  · rw [if_neg h, List.filter_cons_of_neg (by simpa using h), List.filter_nil]

/-- The events that an answer adds to those about a symbol. -/
theorem eventsFor_append (sym : String) (outs : List (List ExchangeEvent))
    {out : List ExchangeEvent} {sym' : String} (h : ∀ ev ∈ out, ev.symbol = sym') :
    eventsFor sym (outs ++ [out]) = eventsFor sym outs ++ if sym' = sym then out else [] := by
  unfold eventsFor
  rw [List.flatten_append, List.flatten_singleton, List.filter_append]
  congr 1
  split
  · next hsym =>
    rw [List.filter_eq_self]
    intro ev hev
    rw [h ev hev, hsym, beq_self_eq_true]
  · next hsym =>
    rw [List.filter_eq_nil_iff]
    intro ev hev he
    exact hsym ((h ev hev).symm.trans (eq_of_beq he))

/-- What a session does for a symbol is what the messages for it do to one engine. -/
theorem Session.dealing (h : Session Ok msgs m outs) {sym : String} {i : Fin instrumentCount}
    (hi : m.index[sym]? = some i) :
    ∃ answers, Dealing (messagesFor sym msgs) (m.engineAt i) answers ∧
      eventsFor sym outs = answers.flatten := by
  induction h with
  | nil =>
    refine ⟨[], ?_, rfl⟩
    have hinit : ExchangeManager.init.engineAt i = Engine.init := by
      simp [ExchangeManager.engineAt, ExchangeManager.init]
    rw [hinit]
    exact .nil
  | @snoc msgs msg m m' outs out fuel now ts hrun _ hp ih =>
    rw [messagesFor_append]
    rcases ExchangeManager.process_ok hp with ⟨hnone, rfl, rfl⟩ | ⟨j, s', r, hj, hs, rfl, rfl⟩
    · have hne : ¬msg.symbol = sym := by
        rintro rfl
        exact absurd (hnone.symm.trans hi) (by simp)
      obtain ⟨answers, hdeal, hev⟩ := ih hi
      have hnil : ∀ ev ∈ ([] : List ExchangeEvent), ev.symbol = msg.symbol := by simp
      rw [if_neg hne, List.append_nil, eventsFor_append sym outs hnil, if_neg hne, List.append_nil]
      exact ⟨answers, hdeal, hev⟩
    · obtain ⟨answers, hdeal, hev⟩ := ih hi
      rw [ExchangeManager.engineAt_setEngine,
        eventsFor_append sym outs fun _ ↦ ExchangeManager.symbol_of_mem_translateResult]
      by_cases hsym : msg.symbol = sym
      · subst hsym
        obtain rfl : j = i := Option.some.inj (hj.symm.trans hi)
        rw [if_pos rfl, if_pos rfl, if_pos rfl, hev]
        refine ⟨answers ++ [ExchangeManager.translateResult ts msg r s'.book],
          hdeal.snoc ⟨fuel, hs⟩, ?_⟩
        rw [List.flatten_append, List.flatten_singleton]
      · have hne : ¬j = i := by
          rintro rfl
          exact hsym (hrun.symbol_inj hj hi)
        rw [if_neg hsym, if_neg hne, if_neg hsym, List.append_nil, List.append_nil]
        exact ⟨answers, hdeal, hev⟩

end Session

/-! ### The events of a symbol -/

/-- The events are those of the messages, at some readings of the clock. -/
def EventsOf (msgs : List OrderMessage) (es : List OrderEvent) : Prop :=
  List.Forall₂ (fun msg e ↦ ∃ now, e = OrderMessage.event msg now) msgs es

namespace EventsOf

variable {msgs : List OrderMessage} {es : List OrderEvent}

theorem snoc (h : EventsOf msgs es) (msg : OrderMessage) (now : Timestamp) :
    EventsOf (msgs ++ [msg]) (es ++ [msg.event now]) :=
  List.rel_append h (.cons ⟨now, rfl⟩ .nil)

/-- The events submit what the messages submit. -/
theorem submittedIds_eq (h : EventsOf msgs es) :
    submittedIds es = (newOrders msgs).map OrderMessage.orderId := by
  induction h with
  | nil => rfl
  | @cons msg e msgs es he _ ih =>
    obtain ⟨now, rfl⟩ := he
    have hcons : submittedIds (msg.event now :: es) =
        (msg.event now).orders.map Order.id ++ submittedIds es := by
      rw [submittedIds, submittedOrders, List.flatMap_cons, List.map_append]
      rfl
    rw [hcons, ih]
    unfold newOrders
    cases ha : msg.action with
    | newOrder =>
      rw [List.filter_cons_of_pos (by rw [ha]; rfl), List.map_cons, OrderMessage.event, ha]
      rfl
    | cancelOrder =>
      rw [List.filter_cons_of_neg (by rw [ha]; decide), OrderMessage.event, ha]
      rfl

/-- A submitted order is the order of a message. -/
theorem exists_message (h : EventsOf msgs es) {o : Order} (ho : o ∈ submittedOrders es) :
    ∃ msg ∈ newOrders msgs, ∃ now, o = msg.order now := by
  induction h with
  | nil => exact absurd ho List.not_mem_nil
  | @cons msg e msgs es he _ ih =>
    obtain ⟨now, rfl⟩ := he
    rw [submittedOrders, List.flatMap_cons, List.mem_append] at ho
    rcases ho with ho | ho
    · cases ha : msg.action with
      | newOrder =>
        refine ⟨msg, List.mem_filter.mpr ⟨List.mem_cons_self, by simp [ha]⟩, now, ?_⟩
        simpa [OrderMessage.event, ha, OrderEvent.orders] using ho
      | cancelOrder => exact absurd ho (by simp [OrderMessage.event, ha, OrderEvent.orders])
    · obtain ⟨msg', hmsg', now', rfl⟩ := ih ho
      have hsub : newOrders msgs ⊆ newOrders (msg :: msgs) := by
        intro x hx
        obtain ⟨hx, ha⟩ := List.mem_filter.mp hx
        exact List.mem_filter.mpr ⟨List.mem_cons_of_mem msg hx, ha⟩
      exact ⟨msg', hsub hmsg', now', rfl⟩

end EventsOf

theorem OrderMessage.event_of_newOrder (msg : OrderMessage) (ha : msg.action = .newOrder)
    (now : Timestamp) : msg.event now = .newOrder ⟨msg.order now⟩ := by
  rw [event, ha]

theorem OrderMessage.event_of_cancelOrder (msg : OrderMessage) (ha : msg.action = .cancelOrder)
    (now : Timestamp) :
    msg.event now = .cancelOrder { orderId := msg.orderId, timestamp := msg.timestamp } := by
  rw [event, ha]

/-- The event is that of a message. -/
def FromMessage (e : OrderEvent) : Prop :=
  ∃ (msg : OrderMessage) (now : Timestamp), e = msg.event now

theorem FromMessage.keepsPlace {e : OrderEvent} (h : FromMessage e)
    (s : Engine (OrderBook PriceLevel)) : KeepsPlace s e := by
  obtain ⟨msg, now, rfl⟩ := h
  unfold OrderMessage.event
  split <;> trivial

/-- Dealing with messages is a run over their events. -/
theorem Dealing.run {msgs : List OrderMessage} {s : Engine (OrderBook PriceLevel)}
    {outs : List (List ExchangeEvent)} (h : Dealing msgs s outs) :
    ∃ es rs, Run (fun _ ↦ FromMessage) es s rs ∧ EventsOf msgs es := by
  induction h with
  | nil => exact ⟨[], [], .nil, .nil⟩
  | @snoc msgs msg s s' outs r now ts _ hs ih =>
    obtain ⟨es, rs, hrun, hes⟩ := ih
    exact ⟨_, _, hrun.snoc ⟨msg, now, rfl⟩ hs, hes.snoc msg now⟩

end LobEngine
