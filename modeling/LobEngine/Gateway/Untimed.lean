import LobEngine.Engine.Equivariance
import LobEngine.Gateway.Dealing

/-!
# Timestamps play no part

Orders carry a timestamp "for time priority", but no comparison of the engine reads it: priority
is the place in a queue. Messages that differ in their timestamps only are dealt with alike, at
any readings of the clock.
-/

namespace LobEngine

open Engine

/-- The message without its timestamp. -/
def OrderMessage.untimed (msg : OrderMessage) : OrderMessage := { msg with timestamp := 0 }

/-- The event without its timestamp. -/
def ExchangeEvent.untimed : ExchangeEvent → ExchangeEvent
  | .orderAccepted e => .orderAccepted { e with timestamp := 0 }
  | .orderRejected e => .orderRejected { e with timestamp := 0 }
  | .orderCanceled e => .orderCanceled { e with timestamp := 0 }
  | .tradeExecuted e => .tradeExecuted { e with timestamp := 0 }
  | .bookUpdated e => .bookUpdated { e with timestamp := 0 }
  | .snapshot e => .snapshot { e with timestamp := 0 }

/-- Two engines agree in their books and pending stops, apart from timestamps. -/
structure Engine.Alike (s t : Engine (OrderBook PriceLevel)) : Prop where
  book : s.book.recast .untimed = t.book.recast .untimed
  stops : s.pendingStops.map (Order.recast .untimed) = t.pendingStops.map (Order.recast .untimed)

/-- The event of a message, without timestamps, is that of the message without its timestamp. -/
private theorem OrderMessage.event_untimed (msg : OrderMessage) (now : Timestamp) :
    (msg.event now).recast .untimed = msg.untimed.event 0 := by
  unfold OrderMessage.event OrderMessage.untimed
  cases msg.action <;> rfl

/-- A level has no timestamps. -/
private theorem OrderBook.levels_untimed (b : OrderBook PriceLevel) (side : Side) :
    (b.recast .untimed).levels side = b.levels side := by
  apply Std.ExtTreeMap.ext_getElem?
  intro p
  have h := OrderBook.getLevel_recast (φ := .untimed) b side p
  refine Eq.trans h ?_
  change (b.getLevel side p).map (PriceLevel.recast .untimed) = b.getLevel side p
  cases b.getLevel side p <;> rfl

namespace ExchangeManager

private theorem bookEvent_untimed (msg : OrderMessage) (ts : Timestamp) (b : OrderBook PriceLevel) :
    { bookEvent msg ts b with timestamp := 0 } = bookEvent msg.untimed 0 (b.recast .untimed) := by
  have hbid : (b.recast .untimed).bestBid = b.bestBid := by
    unfold OrderBook.bestBid OrderBook.bestLevel
    rw [OrderBook.levels_untimed]
  have hask : (b.recast .untimed).bestAsk = b.bestAsk := by
    unfold OrderBook.bestAsk OrderBook.bestLevel
    rw [OrderBook.levels_untimed]
  have hcount (side : Side) : (b.recast .untimed).levelCount side = b.levelCount side := by
    unfold OrderBook.levelCount
    rw [OrderBook.levels_untimed]
  have hspread : (b.recast .untimed).spread = b.spread := by
    unfold OrderBook.spread
    rw [hbid, hask]
  unfold bookEvent
  rw [hbid, hask, hspread, hcount, hcount]
  rfl

private theorem tradeEvent_untimed (msg : OrderMessage) (ts : Timestamp) (t : Trade) :
    { tradeEvent msg ts t with timestamp := 0 } =
      tradeEvent msg.untimed 0 (t.recast .untimed) := by
  have hside : (t.recast .untimed).aggressorSide = t.aggressorSide := by
    change t.aggressorSide.recast .untimed = t.aggressorSide
    cases t.aggressorSide <;> rfl
  unfold tradeEvent
  rw [hside]
  rfl

/-- An answer without timestamps is an answer at time zero. -/
private theorem translateResult_untimed (ts : Timestamp) (msg : OrderMessage) (r : MatchResult)
    (b : OrderBook PriceLevel) : (translateResult ts msg r b).map ExchangeEvent.untimed =
      translateResult 0 msg.untimed (r.recast .untimed) (b.recast .untimed) := by
  have hrejections : (r.rejections.map fun rej ↦ ExchangeEvent.orderRejected
      (rejectedEvent msg ts rej)).map ExchangeEvent.untimed =
      (r.recast .untimed).rejections.map fun rej ↦ .orderRejected
        (rejectedEvent msg.untimed 0 rej) := by
    change _ = (r.rejections.map _).map _
    rw [List.map_map, List.map_map]
    rfl
  have hreports : ((r.reports.filter (·.status = .cancelled)).map fun rep ↦
      ExchangeEvent.orderCanceled (canceledEvent msg ts rep)).map ExchangeEvent.untimed =
      ((r.recast .untimed).reports.filter (·.status = .cancelled)).map fun rep ↦
        .orderCanceled (canceledEvent msg.untimed 0 rep) := by
    change _ = ((r.reports.map _).filter _).map _
    rw [List.filter_map, List.map_map, List.map_map]
    rfl
  have htrades : (r.trades.map fun trade ↦ ExchangeEvent.tradeExecuted
      (tradeEvent msg ts trade)).map ExchangeEvent.untimed =
      (r.recast .untimed).trades.map fun trade ↦ .tradeExecuted
        (tradeEvent msg.untimed 0 trade) := by
    change _ = (r.trades.map _).map _
    rw [List.map_map, List.map_map]
    apply List.map_congr_left
    intro t _
    exact congrArg ExchangeEvent.tradeExecuted (tradeEvent_untimed msg ts t)
  have haccepted : (if msg.action = .newOrder ∧ r.rejections = [] then
      [ExchangeEvent.orderAccepted (acceptedEvent msg ts)] else []).map ExchangeEvent.untimed =
      if msg.untimed.action = .newOrder ∧ (r.recast .untimed).rejections = [] then
        [.orderAccepted (acceptedEvent msg.untimed 0)] else [] := by
    have hnone : (r.recast .untimed).rejections = [] ↔ r.rejections = [] := List.map_eq_nil_iff
    simp only [hnone]
    change _ = if msg.action = .newOrder ∧ r.rejections = [] then _ else _
    split <;> rfl
  have hbook : ExchangeEvent.untimed (.bookUpdated (bookEvent msg ts b)) =
      .bookUpdated (bookEvent msg.untimed 0 (b.recast .untimed)) :=
    congrArg ExchangeEvent.bookUpdated (bookEvent_untimed msg ts b)
  unfold translateResult
  rw [List.map_append, List.map_append, List.map_append, List.map_append, hrejections, hreports,
    htrades, haccepted, List.map_singleton, hbook]

end ExchangeManager

/-- Engines that are alike deal alike with events that differ in their timestamps only. -/
theorem Submits.alike {s t s' : Engine (OrderBook PriceLevel)} {e e' : OrderEvent} {r : MatchResult}
    (hs : Submits s e s' r) (h : s.Alike t) (he : e.recast .untimed = e'.recast .untimed) :
    ∃ t' q, Submits t e' t' q ∧ r.recast .untimed = q.recast .untimed ∧ s'.Alike t' := by
  have himage : s.Image (OrderBook.morphism .untimed)
      { s with book := s.book.recast .untimed
               pendingStops := s.pendingStops.map (Order.recast .untimed) } := ⟨rfl, rfl⟩
  obtain ⟨u, hu, hleft⟩ := hs.recast himage
  rw [he] at hu
  obtain ⟨t', q, ht, hres, hright⟩ := Submits.of_recast (f := OrderBook.morphism .untimed)
    ⟨h.book, h.stops⟩ hu
  exact ⟨t', q, ht, hres, hleft.book.symm.trans hright.book, hleft.stops.symm.trans hright.stops⟩

namespace Dealing

variable {msgs msgs' : List OrderMessage} {msg : OrderMessage}
  {s t : Engine (OrderBook PriceLevel)} {outs outs' : List (List ExchangeEvent)}

/-- The last message of a dealing. -/
private theorem of_snoc (h : Dealing (msgs ++ [msg]) s outs) : ∃ s₀ outs₀ r now ts,
    Dealing msgs s₀ outs₀ ∧ Submits s₀ (msg.event now) s r ∧
      outs = outs₀ ++ [ExchangeManager.translateResult ts msg r s.book] := by
  generalize hsnoc : msgs ++ [msg] = ms at h
  cases h with
  | nil => exact absurd hsnoc (by simp)
  | snoc hdeal hs =>
    obtain ⟨rfl, hmsg⟩ := List.append_inj' hsnoc rfl
    obtain rfl := List.singleton_inj.mp hmsg
    exact ⟨_, _, _, _, _, hdeal, hs, rfl⟩

/-- The first part of a dealing. -/
theorem left (h : Dealing (msgs ++ msgs') s outs) : ∃ s₀ outs₀, Dealing msgs s₀ outs₀ := by
  induction msgs' using List.reverseRecOn generalizing s outs with
  | nil =>
    rw [List.append_nil] at h
    exact ⟨s, outs, h⟩
  | append_singleton msgs' msg ih =>
    rw [← List.append_assoc] at h
    obtain ⟨s₀, outs₀, r, now, ts, hdeal, -⟩ := h.of_snoc
    exact ih hdeal

/-- Messages that differ in their timestamps only are dealt with alike. -/
theorem alike (h : Dealing msgs s outs) (h' : Dealing msgs' t outs')
    (hm : msgs.map OrderMessage.untimed = msgs'.map OrderMessage.untimed) : s.Alike t ∧
      outs.map (List.map ExchangeEvent.untimed) = outs'.map (List.map ExchangeEvent.untimed) := by
  induction h generalizing msgs' t outs' with
  | nil =>
    obtain rfl := List.map_eq_nil_iff.mp hm.symm
    generalize hnil : ([] : List OrderMessage) = ms at h'
    cases h' with
    | nil => exact ⟨⟨rfl, rfl⟩, rfl⟩
    | snoc => exact absurd hnil (by simp)
  | @snoc msgs msg s s' outs r now ts _ hs ih =>
    rw [List.map_append] at hm
    obtain ⟨msgs₁, last, rfl, hinit, hlast⟩ := List.map_eq_append_iff.mp hm.symm
    obtain ⟨msg₁, rfl, hmsg⟩ := List.map_eq_singleton_iff.mp hlast
    obtain ⟨t₀, outs₀, q, now', ts', hdeal, ht, rfl⟩ := h'.of_snoc
    obtain ⟨halike, houts⟩ := ih hdeal hinit.symm
    have hevent : (msg.event now).recast .untimed = (msg₁.event now').recast .untimed := by
      rw [OrderMessage.event_untimed, OrderMessage.event_untimed, hmsg]
    obtain ⟨t', q', ht', hres, halike'⟩ := hs.alike halike hevent
    obtain ⟨rfl, rfl⟩ := ht'.unique ht
    refine ⟨halike', ?_⟩
    rw [List.map_append, List.map_append, houts]
    simp only [List.map_cons, List.map_nil]
    rw [ExchangeManager.translateResult_untimed, ExchangeManager.translateResult_untimed, hmsg,
      hres, halike'.book]

/-- A message that another dealing has next is accepted. -/
theorem next (h : Dealing msgs s outs) (h' : Dealing msgs' t outs')
    (hpre : (msgs' ++ [msg]).map OrderMessage.untimed <+: msgs.map OrderMessage.untimed)
    (now : Timestamp) : ∃ t' q, Submits t (msg.event now) t' q := by
  obtain ⟨rest, hrest⟩ := hpre
  obtain ⟨first, rest', rfl, hfirst, -⟩ := List.map_eq_append_iff.mp hrest.symm
  rw [List.map_append] at hfirst
  obtain ⟨msgs₁, last, rfl, hinit, hlast⟩ := List.map_eq_append_iff.mp hfirst
  obtain ⟨msg₁, rfl, hmsg⟩ := List.map_eq_singleton_iff.mp hlast
  obtain ⟨s₁, outs₁, hleft⟩ := h.left
  obtain ⟨s₀, outs₀, r, now', ts, hdeal, hs, -⟩ := hleft.of_snoc
  have hevent : (msg₁.event now').recast .untimed = (msg.event now).recast .untimed := by
    rw [OrderMessage.event_untimed, OrderMessage.event_untimed, hmsg]
  obtain ⟨t', q, ht, -⟩ := hs.alike (hdeal.alike h' hinit).1 hevent
  exact ⟨t', q, ht⟩

end Dealing

end LobEngine
