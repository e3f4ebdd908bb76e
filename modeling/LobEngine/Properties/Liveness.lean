import LobEngine.Properties.FairStop

/-!
# Nothing waits for ever

In fair executions, also in those in which the service is never stopped and orders keep coming in,
T2 comes to every accepted message, completes its calls, and T3 and T4 pass on every event that
their queues have accepted. Each thread has a count that its steps bring down until the next item
is done, and that the other threads leave alone.
-/

namespace LobEngine

open RingProtocol Interleaving

/-! ### T2 comes to the next message -/

/-- The steps that T2 has to come before it processes the next message. -/
def ExchangePoint.turn : ExchangePoint → Nat
  | .testing => 3
  | .draining | .closing => 2
  | .processing _ | .finishing _ => 1
  | .exited => 0

/-- T2 has left its loop. -/
def ExchangePoint.Closing : ExchangePoint → Prop
  | .closing | .finishing _ | .exited => True
  | .testing | .draining | .processing _ => False

namespace Gateway

variable {k : Fin 32} {w w' : Gateway k} {a : GatewayStep} {n : Nat}

/-- T2 leaves its loop only when the flag is down. -/
private theorem step_closing (h : w.step a = some w') (hw : w.exchanger.Closing → w.running = false)
    (hclosing : w'.exchanger.Closing) : w'.running = false := by
  have hserve {p : ExchangePoint} {msg : OrderMessage} {fuel : Nat} {now ts : Timestamp}
      (hp : p.Closing → w.running = false)
      (h : ({ w with exchanger := p } : Gateway k).process msg fuel now ts = some w') :
      w'.running = false := by
    unfold process at h
    split at h
    · exact absurd h (by simp)
    · obtain rfl := Option.some.inj h
      exact hp hclosing
  cases a with
  | receiver incoming =>
    cases receiverLoop_move h with
    | receive | accept => exact hw hclosing
  | stop =>
    change w.stop = some w' at h
    unfold stop at h
    split at h
    · obtain rfl := Option.some.inj h
      rfl
    · split at h
      · obtain rfl := Option.some.inj h
        exact hw hclosing
      · exact absurd h (by simp)
    · split at h
      · obtain rfl := Option.some.inj h
        exact hw hclosing
      · exact absurd h (by simp)
    · exact absurd h (by simp)
  | exchange fuel now ts =>
    change w.exchangeLoop fuel now ts = some w' at h
    unfold exchangeLoop at h
    split at h
    · obtain rfl := Option.some.inj h
      cases hrun : w.running with
      | true =>
        simp only [hrun] at hclosing
        exact hclosing.elim
      | false => rfl
    · split at h
      · obtain rfl := Option.some.inj h
        exact hclosing.elim
      · obtain rfl := Option.some.inj h
        exact hclosing.elim
    · exact hserve (p := .draining) False.elim h
    · next hpoint =>
      have hrun : w.running = false := hw (by rw [hpoint]; trivial)
      split at h
      · obtain rfl := Option.some.inj h
        exact hrun
      · obtain rfl := Option.some.inj h
        exact hrun
    · next hpoint => exact hserve (fun _ ↦ hw (by rw [hpoint]; trivial)) h
    · exact absurd h (by simp)

/-- The steps of its loop that T2 has to come until it has processed `n` messages. -/
def wait (n : Nat) (w : Gateway k) : Nat := 4 * (n - w.processed.length) + w.exchanger.turn

/-- As long as a message is there, every step of its loop brings T2 nearer. -/
private theorem exchangeLoop_nearer {fuel : Nat} {now ts : Timestamp} (hw : Consistent w)
    (hn : n ≤ w.accepted.length) (hlt : w.processed.length < n)
    (h : w.exchangeLoop fuel now ts = some w') : w'.wait n < w.wait n := by
  have horder := congrArg List.length hw.order
  rw [List.length_append, List.length_append] at horder
  have hserve {p : ExchangePoint} {msg : OrderMessage} (hp : p.turn ≤ 2)
      (hturn : 1 ≤ w.exchanger.turn)
      (h : ({ w with exchanger := p } : Gateway k).process msg fuel now ts = some w') :
      w'.wait n < w.wait n := by
    unfold process at h
    split at h
    · exact absurd h (by simp)
    · obtain rfl := Option.some.inj h
      simp only [wait, List.length_append, List.length_singleton]
      omega
  -- an empty ring would leave nothing to process
  have hpop {msg : Option (OrderMessage × SpscRing OrderMessage k)} (he : w.inbound.pop = msg)
      (hhand : w.exchanger.inHand = []) : msg ≠ none := by
    rintro rfl
    rw [SpscRing.pop_eq_none.mp he, hhand] at horder
    simp only [List.length_nil] at horder
    omega
  have hmove {p q : ExchangePoint} (hpoint : w.exchanger = q) (hpq : p.turn < q.turn)
      {inbound : SpscRing OrderMessage k} :
      ({ w with inbound := inbound, exchanger := p } : Gateway k).wait n < w.wait n := by
    simp only [wait, hpoint]
    omega
  unfold exchangeLoop at h
  split at h
  · next hpoint =>
    obtain rfl := Option.some.inj h
    apply hmove hpoint
    cases w.running <;> decide
  · next hpoint =>
    split at h
    · next he => exact absurd rfl (hpop he (by rw [hpoint]; rfl))
    · obtain rfl := Option.some.inj h
      exact hmove (p := .processing _) hpoint (Nat.lt_succ_self 1)
  · next hpoint => exact hserve le_rfl (by rw [hpoint]; exact le_rfl) h
  · next hpoint =>
    split at h
    · next he => exact absurd rfl (hpop he (by rw [hpoint]; rfl))
    · obtain rfl := Option.some.inj h
      exact hmove (p := .finishing _) hpoint (Nat.lt_succ_self 1)
  · next hpoint => exact hserve le_rfl (by rw [hpoint]; exact le_rfl) h
  · exact absurd h (by simp)

end Gateway

/-! ### T3 and T4 come to the next item -/

namespace EventDispatcher

variable {k : Fin 32} {dump : Json → String} {w w' : EventDispatcher k} {n : Nat}

/-- The steps that T3 has to come before it sends the next message. -/
def turn (w : EventDispatcher k) : Nat :=
  match w.publisher.point with
  | .testing => 7
  | .draining _ => 2 + w.feed.ring.popper.wait
  | .emitting _ _ => 1
  | .exited => 0

/-- The steps that T3 has to come until it has sent `n` messages. -/
def wait (n : Nat) (w : EventDispatcher k) : Nat := 8 * (n - w.sent.length) + w.turn

/-- Outside of a call of `zmq_send` all that was taken has been sent. -/
private theorem Sound.length_sent (h : Sound dump w) (hhand : w.publisher.point.inHand = []) :
    w.sent.length = w.feed.ring.delivered.length := by
  have hsent := congrArg List.length h.sent
  rw [hhand, List.append_nil, List.length_map] at hsent
  exact hsent.symm

/-- As long as an event is there, every step brings T3 nearer to its sending. -/
private theorem Publishes.nearer (hm : w.Publishes dump w') (h : Sound dump w)
    (hn : n ≤ w.feed.ring.accepted.length) (hlt : w.sent.length < n) : w'.wait n < w.wait n := by
  cases hm with
  | test hpoint =>
    have hle := w.feed.ring.popper.wait_le
    simp only [wait, turn, hpoint, Worker.goto_point]
    omega
  | pending hpoint hpop =>
    have hnearer := hpop.pending_nearer
    simp only [wait, turn, hpoint]
    omega
  | empty hpoint hpop =>
    -- the ring would hold nothing
    obtain ⟨q, hq⟩ := h.feed.holds
    have hall := congrArg List.length (hq.pop_empty hpop)
    rw [hq.pop_delivered hpop, hpop.accepted, Result.items, List.append_nil,
      ← h.length_sent (by rw [hpoint]; rfl)] at hall
    omega
  | item hpoint hpop =>
    simp only [wait, turn, hpoint, Worker.goto_point]
    omega
  | @send msg last hpoint =>
    have hle := w.feed.ring.popper.wait_le
    simp only [wait, turn, hpoint, h.emitting hpoint, Worker.goto_point, Bool.false_eq_true,
      ↓reduceIte, List.length_append, List.length_singleton]
    cases last with
    | true | false =>
      simp only [Bool.false_eq_true, ↓reduceIte]
      omega

variable {th : ServiceThread}

/-- The exchange thread and the caller of `stop` leave what T3 has to come. -/
theorem Touches.wait (h : w.Touches dump th w') (hne : th ≠ .publisher) :
    w'.wait n = w.wait n := by
  unfold EventDispatcher.wait turn
  rw [h.point hne]
  cases h with
  | feed hfeed =>
    simp only
    rw [hfeed.popper]
  | publish => exact absurd rfl hne
  | stop => rfl

/-- No event is taken back. -/
theorem Touches.accepted (h : w.Touches dump th w') :
    w.feed.ring.accepted <+: w'.feed.ring.accepted := by
  cases h with
  | feed hfeed => exact hfeed.accepted_prefix
  | stop => exact List.prefix_rfl
  | publish hp =>
    cases hp with
    | test | send => exact List.prefix_rfl
    | pending _ hpop | empty _ hpop | item _ hpop => exact hpop.accepted ▸ List.prefix_rfl

end EventDispatcher

namespace ReplayLogger

variable {k : Fin 32} {w w' : ReplayLogger k} {n : Nat}

/-- The steps that T4 has to come before it appends the next line. -/
def turn (w : ReplayLogger k) : Nat :=
  match w.writer.point with
  | .testing => 7
  | .draining _ => 2 + w.feed.ring.popper.wait
  | .emitting _ _ => 1
  | .exited => 0

/-- The steps that T4 has to come until it has appended `n` lines. -/
def wait (n : Nat) (w : ReplayLogger k) : Nat := 8 * (n - w.file.length) + w.turn

/-- As long as a line is there, every step brings T4 nearer to its appending. -/
private theorem writerLoop_nearer (hw : w.writerLoop = some w') (h : Sound w)
    (hn : n ≤ w.feed.ring.accepted.length) (hlt : w.file.length < n) : w'.wait n < w.wait n := by
  obtain ⟨q, hq⟩ := h.feed.holds
  -- an empty ring would hold nothing
  have hsome {ring : Ring String k} (hpop : w.feed.ring.Pops .releaseFirst ring .empty) :
      False := by
    have hall := congrArg List.length (hq.pop_empty hpop)
    rw [hq.pop_delivered hpop, hpop.accepted, Result.items, List.append_nil, h.file] at hall
    omega
  cases writerLoop_writes hw with
  | test hpoint =>
    have hle := w.feed.ring.popper.wait_le
    simp only [wait, turn, hpoint, Worker.goto_point]
    omega
  | skip hpoint hreleased hempty =>
    rw [h.not_empty hreleased] at hempty
    exact absurd hempty (by decide)
  | line hpoint hreleased =>
    simp only [wait, turn, hpoint, hreleased, Worker.goto_point]
    omega
  | empty hpoint hpop => exact (hsome hpop).elim
  | @advance last ring result hpoint hnot hpop =>
    cases result with
    | pending =>
      have hnearer := hpop.pending_nearer
      simp only [wait, turn, hpoint]
      omega
    | empty => exact (hsome hpop).elim
    | item line => exact absurd (h.items_nil hnot hpop) (by simp [Result.items])
  | @append x last ring line hpoint hpop =>
    have hle := ring.popper.wait_le
    simp only [wait, turn, hpoint, Worker.goto_point, List.length_append, List.length_singleton]
    omega

variable {th : ServiceThread}

/-- The exchange thread and the caller of `stop` leave what T4 has to come. -/
theorem Touches.wait (h : w.Touches th w') (hne : th ≠ .writer) : w'.wait n = w.wait n := by
  unfold ReplayLogger.wait turn
  rw [h.point hne]
  cases h with
  | feed hfeed =>
    simp only
    rw [hfeed.popper]
  | write => exact absurd rfl hne
  | stop => rfl

/-- No line is taken back. -/
theorem Touches.accepted (h : w.Touches th w') :
    w.feed.ring.accepted <+: w'.feed.ring.accepted := by
  cases h with
  | feed hfeed => exact hfeed.accepted_prefix
  | stop => exact List.prefix_rfl
  | write hw =>
    cases writerLoop_writes hw with
    | test | line => exact List.prefix_rfl
    | skip _ _ _ hpop | empty _ hpop | advance _ _ hpop | append _ hpop =>
      exact hpop.accepted ▸ List.prefix_rfl

end ReplayLogger

namespace ExchangeService

variable {i o r : Fin 32} {dump : Json → String} {interval first : Int}
  {w w' : ExchangeService i o r} {a : ServiceStep}

/-! ### What the other threads leave alone -/

/-- T2 forgets nothing that it has produced. -/
private theorem step_produced (h : w.step dump interval a = some w') :
    w.produced <+: w'.produced := by
  cases step_moves h with
  | core | finish | dispatcher | replay => exact List.prefix_rfl
  | answer | snapshots => exact List.prefix_append _ _

/-- A thread that has ended has passed on everything. -/
theorem Consistent.published (h : Consistent dump w)
    (hexited : w.dispatcher.publisher.point = .exited) :
    w.dispatcher.feed.ring.delivered = w.dispatcher.feed.ring.accepted := by
  have hr : w.core.stopper = .returned := by
    by_contra hne
    exact h.dispatcher.publisher.not_exited (h.waiting hne) hexited
  obtain ⟨-, hsettled, -⟩ := h.settled (h.core.returned hr)
  exact hsettled.2 hexited

private theorem Consistent.written (h : Consistent dump w)
    (hexited : w.replay.writer.point = .exited) :
    w.replay.feed.ring.delivered = w.replay.feed.ring.accepted := by
  have hr' : w.dispatcher.publisher.stopper = .returned := by
    by_contra hne
    exact h.replay.writer.not_exited (h.last hne) hexited
  have hr : w.core.stopper = .returned := by
    by_contra hne
    rw [h.waiting hne] at hr'
    exact absurd hr' (by decide)
  obtain ⟨-, -, hsettled⟩ := h.settled (h.core.returned hr)
  exact hsettled.2 hexited

/-- Between its calls T2 has offered to both queues everything that it has produced. -/
theorem Consistent.accounted (h : Consistent dump w) (hb : w.backlog = (0, 0)) :
    Accounted (w.produced.map (serializeEvent dump))
      (w.dispatcher.feed.ring.accepted.map (serializeEvent dump)) w.dispatcher.feed.drops ∧
    Accounted (w.produced.map (serializeEvent dump)) w.replay.feed.ring.accepted
      w.replay.feed.drops := by
  obtain ⟨hcalls, hleft⟩ := Prod.mk.inj hb
  obtain ⟨hreplay, hdispatcher⟩ := Nat.add_eq_zero_iff.mp hleft
  have henqueued := h.enqueued
  have hlogged := h.logged
  rw [List.length_eq_zero_iff.mp hcalls] at henqueued hlogged
  rw [List.flatMap_nil, List.append_nil] at henqueued
  rw [List.flatMap_nil, List.map_nil, List.append_nil] at hlogged
  constructor
  · rw [henqueued]
    exact accounted_offers h.dispatcher.feed (Feed.left_eq_zero.mp hdispatcher) _
  · have haccounts := accounted_offers h.replay.feed (Feed.left_eq_zero.mp hreplay) id
    rw [List.map_id, List.map_id] at haccounts
    rw [hlogged]
    exact haccounts

/-! ### Each thread comes to the next item -/

section Stages

variable {st : ℕ → ExchangeService i o r}

/-- T2 comes to every accepted message, unless it ends. -/
private theorem leadsTo_processed (n : ℕ) (hfair : FairTo dump interval .exchange st)
    (hexec : Execution (step dump interval) st)
    (hlive : ∀ n, Live dump (st n) ∧ DistinctIds (st n).core.accepted) :
    LeadsTo st (fun w ↦ n ≤ w.core.accepted.length)
      fun w ↦ n ≤ w.core.processed.length ∨ w.core.exchanger = .exited := by
  apply hfair.leadsTo below_wf (fun w ↦ (w.core.wait n, w.backlog))
    (I := fun w ↦ Live dump w ∧ DistinctIds w.core.accepted) hexec hlive
  · exact fun w a w' _ hn h ↦ core_lasts (P := fun v ↦ n ≤ v.accepted.length)
      (fun _ _ _ hs hv ↦ hv.trans (Gateway.step_accepted hs).length_le) h hn
  · rintro w ⟨hw, hd⟩ - hnot
    exact exists_step_exchange interval hw.consistent hd (hnot <| .inr ·)
  · rintro w a w' ⟨hw, -⟩ hn hnot h
    have hlt : w.core.processed.length < n := Nat.not_le.mp (hnot <| .inl ·)
    by_cases hth : a.thread = .exchange
    · cases a with
      | exchange x =>
        rcases exchangeLoop_cases h with ⟨hcore, hfalls⟩ | ⟨-, hadvance⟩
        · rw [hcore]
          exact .inl (.right _ hfalls)
        · exact .inl (.left _ _
            (Gateway.exchangeLoop_nearer hw.consistent.core hn hlt (advance_core hadvance)))
      | receiver | publish | write | stop => cases hth
    · refine .inr ⟨?_, hth⟩
      rw [backlog_of_other h hth]
      rcases step_core h with hcore | ⟨b, hb, hcore⟩
      · rw [hcore]
      · rw [← hb] at hth
        obtain ⟨hexchanger, hprocessed⟩ := Gateway.step_exchanger hcore hth
        rw [Gateway.wait, Gateway.wait, hexchanger, hprocessed]

/-- T2 completes its calls. -/
private theorem leadsTo_offered (hfair : FairTo dump interval .exchange st)
    (hexec : Execution (step dump interval) st) (hlive : ∀ n, Live dump (st n)) :
    LeadsTo st (fun _ ↦ True) fun w ↦ w.backlog = (0, 0) := by
  apply hfair.leadsTo falls_wf backlog hexec hlive
  · exact fun _ _ _ _ _ _ ↦ trivial
  · intro w hw _ hnot
    have hne : w.core.exchanger ≠ .exited := by
      intro hexited
      obtain ⟨hcalls, ⟨hfinished, -⟩, hfinished', -⟩ := hw.consistent.settled hexited
      apply hnot
      rw [backlog, hcalls, Feed.left_eq_zero.mpr (by rw [hfinished']; trivial),
        Feed.left_eq_zero.mpr (by rw [hfinished]; trivial)]
      rfl
    -- a call is made without the engine
    refine ⟨.exchange ⟨0, 0, 0, 0, fun _ ↦ 0, .orderAccepted {}, ""⟩, rfl, ?_⟩
    exact hw.consistent.exchangeLoop_isSome hne fun hb ↦ absurd hb hnot
  · intro w a w' _ _ hnot h
    by_cases hth : a.thread = .exchange
    · cases a with
      | exchange x =>
        rcases exchangeLoop_cases h with ⟨-, hfalls⟩ | ⟨hb, -⟩
        · exact .inl hfalls
        · exact absurd hb hnot
      | receiver | publish | write | stop => cases hth
    · exact .inr ⟨backlog_of_other h hth, hth⟩

/-- T3 sends every event that its queue has accepted. -/
private theorem leadsTo_sent (n : ℕ) (hfair : FairTo dump interval .publisher st)
    (hexec : Execution (step dump interval) st) (hlive : ∀ n, Live dump (st n)) :
    LeadsTo st (fun w ↦ n ≤ w.dispatcher.feed.ring.accepted.length)
      fun w ↦ n ≤ w.dispatcher.sent.length := by
  apply hfair.leadsTo Nat.lt_wfRel.wf (fun w ↦ w.dispatcher.wait n) hexec hlive
  · exact fun w a w' _ hn h ↦ dispatcher_lasts (P := fun v ↦ n ≤ v.feed.ring.accepted.length)
      (fun _ _ _ hs hv ↦ hv.trans hs.accepted.length_le) h hn
  · intro w hw hn hnot
    refine ⟨.publish, rfl, ?_⟩
    show (Option.map _ _).isSome
    rw [Option.isSome_map]
    apply EventDispatcher.publisherLoop_isSome
    intro hexited
    rw [← hw.consistent.published hexited,
      ← hw.consistent.dispatcher.length_sent (by rw [hexited]; rfl)] at hn
    exact hnot hn
  · intro w a w' hw hn hnot h
    by_cases hth : a.thread = .publisher
    · cases a with
      | publish =>
        obtain ⟨dispatcher, hdispatcher, rfl⟩ := Option.map_eq_some_iff.mp h
        exact .inl ((EventDispatcher.publisherLoop_publishes hdispatcher).nearer
          hw.consistent.dispatcher hn (Nat.not_le.mp hnot))
      | receiver | exchange | write | stop => cases hth
    · refine .inr ⟨?_, hth⟩
      rcases step_dispatcher h with hsame | htouches
      · rw [hsame]
      · exact htouches.wait hth

/-- T4 appends every line that its queue has accepted. -/
private theorem leadsTo_appended (n : ℕ) (hfair : FairTo dump interval .writer st)
    (hexec : Execution (step dump interval) st) (hlive : ∀ n, Live dump (st n)) :
    LeadsTo st (fun w ↦ n ≤ w.replay.feed.ring.accepted.length)
      fun w ↦ n ≤ w.replay.file.length := by
  apply hfair.leadsTo Nat.lt_wfRel.wf (fun w ↦ w.replay.wait n) hexec hlive
  · exact fun w a w' _ hn h ↦ replay_lasts (P := fun v ↦ n ≤ v.feed.ring.accepted.length)
      (fun _ _ _ hs hv ↦ hv.trans hs.accepted.length_le) h hn
  · intro w hw hn hnot
    refine ⟨.write, rfl, ?_⟩
    show (Option.map _ _).isSome
    rw [Option.isSome_map]
    apply hw.consistent.replay.writerLoop_isSome
    intro hexited
    rw [← hw.consistent.written hexited, hw.consistent.replay.file] at hn
    exact hnot hn
  · intro w a w' hw hn hnot h
    by_cases hth : a.thread = .writer
    · cases a with
      | write =>
        obtain ⟨replay, hreplay, rfl⟩ := Option.map_eq_some_iff.mp h
        exact .inl (ReplayLogger.writerLoop_nearer hreplay hw.consistent.replay hn
          (Nat.not_le.mp hnot))
      | receiver | exchange | publish | stop => cases hth
    · refine .inr ⟨?_, hth⟩
      rcases step_replay h with hsame | htouches
      · rw [hsame]
      · exact htouches.wait hth

end Stages

/-! ### Nothing waits for ever -/

/-- T2 ends only after a call of `stop`. -/
private theorem execution_closing {st : ℕ → ExchangeService i o r}
    (hexec : Execution (step dump interval) st) (hfirst : st 0 = started i o r first) {n : ℕ}
    (hexited : (st n).core.exchanger = .exited) : (st n).core.stopper ≠ .calling := by
  intro hc
  have hclosing : (st n).core.exchanger.Closing → (st n).core.running = false := by
    refine core_stays (P := fun v ↦ v.exchanger.Closing → v.running = false)
      (fun _ _ _ ↦ Gateway.step_closing) hexec (Nat.zero_le n) ?_
    rw [hfirst]
    exact False.elim
  have hrun := hclosing (by rw [hexited]; trivial)
  rw [(execution_live hexec hfirst n).consistent.core.calling hc] at hrun
  exact absurd hrun (by decide)

/-- In every execution that is fair to T2, whatever the other threads do, every accepted message
is processed sooner or later, unless `stop` is called and T2 ends before. -/
theorem messages_processed {st : ℕ → ExchangeService i o r} (hfirst : st 0 = started i o r first)
    (hexec : Execution (step dump interval) st) (hfair : FairTo dump interval .exchange st)
    (hd : ∀ n, DistinctIds (st n).core.accepted) (n : ℕ) :
    ∃ m, n ≤ m ∧ ((st n).core.accepted <+: (st m).core.processed ∨
      (st m).core.exchanger = .exited ∧ (st m).core.stopper ≠ .calling) := by
  have hlive (m : ℕ) : Live dump (st m) ∧ DistinctIds (st m).core.accepted :=
    ⟨execution_live hexec hfirst m, hd m⟩
  obtain ⟨m, hnm, hm⟩ := leadsTo_processed (st n).core.accepted.length hfair hexec hlive n le_rfl
  refine ⟨m, hnm, hm.imp (fun hlength ↦ ?_) fun hexited ↦
    ⟨hexited, execution_closing hexec hfirst hexited⟩⟩
  -- both are first parts of what is accepted by then
  have hprocessed : (st m).core.processed <+: (st m).core.accepted := by
    rw [(hlive m).1.consistent.core.order, List.append_assoc]
    exact List.prefix_append _ _
  exact List.prefix_of_prefix_length_le (accepted_grows hexec hnm) hprocessed hlength

theorem messages_processed_one : ∃ (st : ℕ → ExchangeService 2 1 1) (n m : ℕ),
    (st n).core.accepted.length = 1 ∧ n ≤ m ∧ ((st n).core.accepted <+: (st m).core.processed ∨
      (st m).core.exchanger = .exited ∧ (st m).core.stopper ≠ .calling) := by
  obtain ⟨st, hfirst, hexec, hfair, hdistinct, n, hn⟩ := exists_fair_execution
  obtain ⟨m, hnm, hm⟩ := messages_processed hfirst hexec (hfair _) hdistinct n
  exact ⟨st, n, m, (hn n le_rfl).1, hnm, hm⟩

end ExchangeService

end LobEngine
