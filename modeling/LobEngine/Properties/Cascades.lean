import LobEngine.Properties.Live

/-!
# Cascades end and leave a chronological record

However deeply stops trigger one another, an event ends: `submit` is the total function that
`Engine.run` computes by recursion on the moves of the machine. The results of the nested calls
are spliced so that the trades and the rejections of the event are those of the ghost log, in the
order in which they happened.
-/

namespace LobEngine

open BookOps Engine Stepper

/-! ### Termination -/

section Total

variable {B : Type} [BookOps B]

/-- Every path of the machine from the start of the event is finite. -/
def Ends (s : Engine B) (e : OrderEvent) : Prop := Acc (Next Config.step) (Config.start s e)

/-- `submit` as a total function: no fuel, well-founded recursion on the moves to come. -/
def Engine.run (s : Engine B) (e : OrderEvent) (h : Ends s e) :
    Except Fault (Engine B × MatchResult) :=
  (outcome Config.step ⟨.start s e, h⟩).map fun c ↦ (c.engine, c.result)

variable {s s' : Engine B} {e : OrderEvent} {r : MatchResult}

private theorem Submits.ends (h : Submits s e s' r) : Ends s e := by
  obtain ⟨n, hn⟩ := submits_iff.mp h
  exact hn.acc

/-- Where the event ends, the total function returns what `submit` returns. -/
theorem Submits.run (h : Submits s e s' r) (hends : Ends s e) : s.run e hends = .ok (s', r) := by
  obtain ⟨n, hn⟩ := submits_iff.mp h
  rw [Engine.run, hn.outcome hends]
  rfl

end Total

section Reachable

variable {es : List OrderEvent} {s : Engine (OrderBook PriceLevel)} {rs : List MatchResult}
  {e : OrderEvent}

/-- An event of a fresh stream whose modifies keep the place of their order is accepted. -/
private theorem Run.accepts (h : Run KeepsPlace es s rs) (hf : Fresh (es ++ [e]))
    (hk : KeepsPlace s e) : ∃ s' r, Submits s e s' r := by
  obtain ⟨t, -, href⟩ := h.refines (E := fun _ ↦ True) (fun _ hk ↦ .of_keepsPlace hk)
    (fun _ ↦ trivial) hf.left
  obtain ⟨s', -, r, hs, -, -⟩ := href.submits hf (.of_keepsPlace hk)
  exact ⟨s', r, hs⟩

/-- Every event of such a stream ends. The total function returns a result, and `submit` returns
the same one on all fuel from some amount on. -/
theorem cascade_ends (h : Run KeepsPlace es s rs) (hf : Fresh (es ++ [e]))
    (hk : KeepsPlace s e) : ∃ (hends : Ends s e) (s' : Engine (OrderBook PriceLevel))
      (r : MatchResult), s.run e hends = .ok (s', r) ∧
        ∃ N, ∀ fuel, N < fuel → s.submit fuel e = .ok (s', r) := by
  obtain ⟨s', r, hs⟩ := h.accepts hf hk
  exact ⟨hs.ends, s', r, hs.run hs.ends, hs.eventually⟩

/-- A resting order of quantity 0 and two stops. The next event fills quantity 0 at 100, which
converts stop 3; the trade of stop 3 at 101 converts stop 4. -/
private def cascadeStream : List OrderEvent :=
  [.newOrder ⟨{ id := 1, side := .sell, type := .iceberg, price := 100, quantity := 5 }⟩,
    .newOrder ⟨{ id := 2, side := .sell, price := 101, quantity := 10 }⟩,
    .newOrder ⟨{ id := 4, type := .stop, stopPrice := 101, quantity := 3 }⟩,
    .newOrder ⟨{ id := 3, type := .stopLimit, price := 102, stopPrice := 100, quantity := 2 }⟩]

private def cascadeEvent : OrderEvent := .newOrder ⟨{ id := 5, price := 101, quantity := 4 }⟩

theorem cascade_ends_sample : ∃ (s : Engine (OrderBook PriceLevel)) (hends : Ends s cascadeEvent)
    (s' : Engine (OrderBook PriceLevel)) (r : MatchResult),
    s.pendingStops.length = 2 ∧ s.run cascadeEvent hends = .ok (s', r) := by
  obtain ⟨s, rs, hrun, hstops⟩ := Run.exists_of_play (B := OrderBook PriceLevel) KeepsPlace 50
    cascadeStream (fun s _ ↦ s.pendingStops.length = 2) (by decide +kernel)
  obtain ⟨hends, s', r, hr, -⟩ := cascade_ends hrun (e := cascadeEvent) (by decide) trivial
  exact ⟨s, hends, s', r, hstops, hr⟩

end Reachable

/-! ### The record of an event -/

/-- The fills of a stretch of the ghost log. -/
def fillsOf (log : List GhostEvent) : List Trade :=
  log.filterMap fun
    | .fill trade => some trade
    | _ => none

/-- The rejections of a stretch of the ghost log. -/
def exhaustionsOf (log : List GhostEvent) : List Rejection :=
  log.filterMap fun
    | .exhausted rejection => some rejection
    | _ => none

/-- The price of the last trade, or the old price if there is none. -/
def lastPrice (p : Price) (trades : List Trade) : Price :=
  (trades.getLast?.map Trade.price).getD p

@[simp] theorem lastPrice_nil (p : Price) : lastPrice p [] = p := rfl

@[simp] theorem lastPrice_concat (p : Price) (ts : List Trade) (t : Trade) :
    lastPrice p (ts ++ [t]) = t.price := by
  rw [lastPrice, List.getLast?_concat]
  rfl

private theorem lastPrice_append (p : Price) (ts us : List Trade) :
    lastPrice p (ts ++ us) = lastPrice (lastPrice p ts) us := by
  induction us using List.reverseRecOn with
  | nil => rw [List.append_nil, lastPrice_nil]
  | append_singleton us u _ => rw [← List.append_assoc, lastPrice_concat, lastPrice_concat]

/-- From `c` to `d` the ghost log grows by `g`, and the result by what `g` records. -/
structure Records {B : Type} [BookOps B] (c d : Config B) (g : List GhostEvent) : Prop where
  ghost : d.engine.ghost = c.engine.ghost ++ g
  trades : d.result.trades = c.result.trades ++ fillsOf g
  rejections : d.result.rejections = c.result.rejections ++ exhaustionsOf g
  last : lastTradePrice d.engine.book = lastPrice (lastTradePrice c.engine.book) (fillsOf g)

@[simp] theorem evaluate_ghost {B : Type} [BookOps B] (c : Config B) :
    (Config.evaluate c).engine.ghost = c.engine.ghost := by
  rw [Config.evaluate]
  split
  · rfl
  · split <;> rfl

namespace Records

variable {B : Type} [BookOps B] {c d k : Config B} {g g' : List GhostEvent}

/-- Nothing is logged and nothing returned. -/
theorem silent (hg : d.engine.ghost = c.engine.ghost) (hr : d.result = c.result)
    (hl : lastTradePrice d.engine.book = lastTradePrice c.engine.book) : Records c d [] where
  ghost := by rw [hg, List.append_nil]
  trades := by rw [hr]; exact (List.append_nil _).symm
  rejections := by rw [hr]; exact (List.append_nil _).symm
  last := hl

theorem trans (h : Records c d g) (h' : Records d k g') : Records c k (g ++ g') where
  ghost := by rw [h'.ghost, h.ghost, List.append_assoc]
  trades := by rw [h'.trades, h.trades, fillsOf, fillsOf, fillsOf, List.filterMap_append,
    List.append_assoc]
  rejections := by rw [h'.rejections, h.rejections, exhaustionsOf, exhaustionsOf, exhaustionsOf,
    List.filterMap_append, List.append_assoc]
  last := by rw [h'.last, h.last, ← lastPrice_append, fillsOf, fillsOf, fillsOf,
    List.filterMap_append]

/-- Starting the evaluation of stops records nothing. -/
theorem evaluate (h : Records c d g) : Records c (Config.evaluate d) g where
  ghost := by rw [evaluate_ghost, h.ghost]
  trades := by rw [evaluate_result, h.trades]
  rejections := by rw [evaluate_result, h.rejections]
  last := by rw [evaluate_book, h.last]

end Records

section Steps

variable {L : Type} [PriceLevelOps L] {c d : Config (OrderBook L)}
  {s s' : Engine (OrderBook L)} {e : OrderEvent} {r : MatchResult}

private theorem records_settle (s : Engine (OrderBook L)) (a a' : Order) (K : List Frame)
    (r : MatchResult) : Records ⟨s, .matching a :: K, r⟩ ⟨Config.settle s a', K, r⟩ [] := by
  rcases Config.settle_eq s a' with h | h
  · rw [h]
    exact .silent rfl rfl rfl
  · rw [h]
    exact .silent rfl rfl (lastTradePrice_insertOrder s.book a')

/-- Every move records what it does. -/
private theorem records_of_moves (h : Config.Moves c d) : ∃ g, Records c d g := by
  cases h with
  | filled => exact ⟨[], records_settle _ _ _ _ _⟩
  | uncrossed => exact ⟨[], records_settle _ _ _ _ _⟩
  | unopposed => exact ⟨[], records_settle _ _ _ _ _⟩
  | @exhausted s a K r =>
    exact ⟨[.exhausted (exhaustion a)], rfl, (List.append_nil _).symm, rfl, rfl⟩
  | @fill s a passive K r p key book book' q _ _ _ _ _ hs =>
    apply Exists.intro [.fill (fillTrade a passive q)]
    apply Records.evaluate
    exact ⟨rfl, rfl, (List.append_nil _).symm, lastTradePrice_settlePassive hs⟩
  | evaluated => exact ⟨[], .silent rfl rfl rfl⟩
  | @triggered s p stop working K r =>
    exact ⟨[.triggered stop], rfl, (List.append_nil _).symm, (List.append_nil _).symm, rfl⟩
  | kept => exact ⟨[], .silent rfl rfl rfl⟩

/-- Submitting an order records at most its conversion. -/
private theorem records_enter (s : Engine (OrderBook L)) (o : Order) (K : List Frame)
    (r : MatchResult) : ∃ g, Records ⟨s, K, r⟩ (.enter s o K r) g := by
  have hstop : ∃ g, Records ⟨s, K, r⟩
      (if s.immediatelyTriggered o.accepted then .enterConverted s o.accepted K r
        else ⟨{ s with pendingStops := s.pendingStops ++ [o.accepted] }, K, r⟩) g := by
    split
    · exact ⟨[.triggered o.accepted], rfl, (List.append_nil _).symm, (List.append_nil _).symm,
        rfl⟩
    · exact ⟨[], .silent rfl rfl rfl⟩
  simp only [Config.enter]
  split
  · exact ⟨[], .silent rfl rfl rfl⟩
  · exact ⟨[], .silent rfl rfl rfl⟩
  · exact ⟨[], .silent rfl rfl rfl⟩
  · exact hstop
  · exact hstop

/-- An event that hands over an order starts with an empty record, or with a conversion. -/
private theorem records_start (h : (handed s e).isSome = true) :
    ∃ g, Records ⟨s, [], {}⟩ (.start s e) g := by
  cases e with
  | newOrder e =>
    obtain ⟨g, hg⟩ := records_enter { s with sequence := s.sequence + 1 } e.order [] {}
    exact ⟨g, hg.ghost, hg.trades, hg.rejections, hg.last⟩
  | replaceOrder e =>
    by_cases hh : hasOrder s.book e.oldOrderId = true
    · obtain ⟨g, hg⟩ := records_enter { s with
        sequence := s.sequence + 1
        book := cancelOrder s.book e.oldOrderId } e.newOrder [] {}
      have hl : lastTradePrice (cancelOrder s.book e.oldOrderId) = lastTradePrice s.book :=
        OrderBook.lastTradePrice_cancelOrder _ _
      simp only [Config.start, hh, ↓reduceIte]
      exact ⟨g, hg.ghost, hg.trades, hg.rejections, hl ▸ hg.last⟩
    · exact absurd h (by simp [handed, hh])
  | cancelOrder e => exact absurd h (by simp [handed])
  | modifyOrder e => exact absurd h (by simp [handed])

/-- At most the request itself is refused before any matching. -/
private theorem start_rejections (s : Engine (OrderBook L)) (e : OrderEvent) :
    (Config.start s e).result.rejections.length ≤ 1 := by
  cases e with
  | newOrder e =>
    simp only [Config.start, enter_result]
    exact Nat.zero_le 1
  | cancelOrder e =>
    simp only [Config.start, processCancel]
    split
    · exact Nat.zero_le 1
    · split
      · exact Nat.le_refl 1
      · split
        · exact Nat.zero_le 1
        · exact Nat.le_refl 1
  | modifyOrder e =>
    simp only [Config.start, processModify]
    split
    · exact Nat.le_refl 1
    · split
      · split
        · exact Nat.zero_le 1
        · split <;> exact Nat.zero_le 1
      · exact Nat.le_refl 1
  | replaceOrder e =>
    simp only [Config.start]
    split
    · rw [enter_result]
      exact Nat.zero_le 1
    · exact Nat.le_refl 1

/-- An event that hands over no order ends where it starts, and records nothing. -/
private theorem start_unhanded (h : handed s e = none) : (Config.start s e).stack = [] ∧
    (Config.start s e).engine.ghost = s.ghost ∧
    lastTradePrice (Config.start s e).engine.book = lastTradePrice s.book := by
  have hstart := Config.starts s e
  generalize Config.start s e = c at hstart
  cases hstart with
  | newOrder => exact absurd h (by simp [handed])
  | replaced hh => exact absurd h (by simp [handed, hh])
  | orderCancelled => exact ⟨rfl, rfl, OrderBook.lastTradePrice_cancelOrder _ _⟩
  | requeued =>
    exact ⟨rfl, rfl,
      (lastTradePrice_insertOrder _ _).trans (OrderBook.lastTradePrice_cancelOrder _ _)⟩
  | reduced => exact ⟨rfl, rfl, lastTradePrice_modify _ _ _ _ _ _⟩
  | stopCancelled | cancelRejected | unmodified | replaceRejected => exact ⟨rfl, rfl, rfl⟩

/-- What an event that hands over an order records from its start to its end. -/
theorem Submits.records (h : Submits s e s' r) (hh : (handed s e).isSome = true) :
    ∃ g, Records ⟨s, [], {}⟩ ⟨s', [], r⟩ g := by
  apply h.preserves (P := fun c ↦ ∃ g, Records ⟨s, [], {}⟩ c g)
  · rintro c d ⟨g, hg⟩ hstep
    obtain ⟨g', hg'⟩ := records_of_moves (Config.moves_of_step hstep)
    exact ⟨g ++ g', hg.trans hg'⟩
  · exact records_start hh

end Steps

/-! ### The trade tape -/

section Tape

variable {es : List OrderEvent} {s : Engine (OrderBook PriceLevel)} {rs : List MatchResult}
  {e : OrderEvent}

/-- The trades of an event are the fills that its part `g` of the ghost log records, in the same
order, and the last of them sets the last trade price. The rejections are those of `g`, in the
same order, unless the event is refused before any matching: then nothing is logged and nothing
but the refusal returned. -/
theorem tape_chronological (h : Run KeepsPlace es s rs) (hf : Fresh (es ++ [e]))
    (hk : KeepsPlace s e) : ∃ (s' : Engine (OrderBook PriceLevel)) (r : MatchResult)
      (g : List GhostEvent), Submits s e s' r ∧ s'.ghost = s.ghost ++ g ∧
      r.trades = fillsOf g ∧
      ((handed s e).isSome = true → r.rejections = exhaustionsOf g) ∧
      (handed s e = none → g = [] ∧ r.rejections.length ≤ 1) ∧
      lastTradePrice s'.book = lastPrice (lastTradePrice s.book) r.trades := by
  obtain ⟨s', r, hs⟩ := h.accepts hf hk
  by_cases hh : (handed s e).isSome = true
  · obtain ⟨g, hg⟩ := hs.records hh
    have htrades : r.trades = fillsOf g := hg.trades
    apply Exists.intro s'
    refine ⟨r, g, hs, hg.ghost, htrades, fun _ ↦ hg.rejections, fun hnone ↦ ?_, ?_⟩
    · rw [hnone] at hh
      exact absurd hh (by simp)
    · rw [htrades]
      exact hg.last
  · have hnone : handed s e = none := by simpa using hh
    obtain ⟨hidle, hghost, hlast⟩ := start_unhanded hnone
    have hend := hs.of_idle hidle
    have htrades : r.trades = [] := by
      have := start_trades s e
      rwa [hend] at this
    have hrej : r.rejections.length ≤ 1 := by
      have := start_rejections s e
      rwa [hend] at this
    rw [hend] at hghost hlast
    refine ⟨s', r, [], hs, ?_, htrades, fun h ↦ absurd h hh, fun _ ↦ ⟨rfl, hrej⟩, ?_⟩
    · rw [List.append_nil]
      exact hghost
    · rw [htrades]
      exact hlast

theorem tape_chronological_sample : ∃ (s s' : Engine (OrderBook PriceLevel)) (r : MatchResult)
    (g : List GhostEvent), s.pendingStops.length = 2 ∧ Submits s cascadeEvent s' r ∧
      s'.ghost = s.ghost ++ g ∧ r.trades = fillsOf g := by
  obtain ⟨s, rs, hrun, hstops⟩ := Run.exists_of_play (B := OrderBook PriceLevel) KeepsPlace 50
    cascadeStream (fun s _ ↦ s.pendingStops.length = 2) (by decide +kernel)
  obtain ⟨s', r, g, hs, hg, ht, -⟩ :=
    tape_chronological hrun (e := cascadeEvent) (by decide) trivial
  exact ⟨s, s', r, g, hstops, hs, hg, ht⟩

end Tape

end LobEngine
