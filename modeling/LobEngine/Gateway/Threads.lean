import LobEngine.Gateway.Ending
import LobEngine.Gateway.Service

/-!
# The threads of the service

Which thread takes a step of the service, and what a step of one thread does to the core, to the
dispatcher and to the logger.
-/

namespace LobEngine

open RingProtocol Interleaving

/-- The threads T1, T2, T3 and T4, and the one that calls `stop`. -/
inductive ServiceThread where
  | receiver
  | exchange
  | publisher
  | writer
  | stopper
  deriving DecidableEq

/-- The thread that takes a step. -/
def ServiceStep.thread : ServiceStep → ServiceThread
  | .receiver _ => .receiver
  | .exchange _ => .exchange
  | .publish => .publisher
  | .write => .writer
  | .stop => .stopper

def GatewayStep.thread : GatewayStep → ServiceThread
  | .receiver _ => .receiver
  | .exchange _ _ _ => .exchange
  | .stop => .stopper

namespace EventDispatcher

variable {k : Fin 32} {dump : Json → String} {w w' : EventDispatcher k} {th : ServiceThread}

/-- The steps on the dispatcher by their threads. -/
inductive Touches (dump : Json → String) (w : EventDispatcher k) :
    ServiceThread → EventDispatcher k → Prop
  | feed {feed : Feed ExchangeEvent k} : w.feed.Moves feed →
      Touches dump w .exchange { w with feed := feed }
  | publish {w' : EventDispatcher k} : w.Publishes dump w' → Touches dump w .publisher w'
  | stop {publisher : Worker String} : w.publisher.stop = some publisher →
      Touches dump w .stopper { w with publisher := publisher }

/-- Only the caller of `stop` moves on in `stop`. -/
theorem Touches.stopper (h : w.Touches dump th w') (hne : th ≠ .stopper) :
    w'.publisher.stopper = w.publisher.stopper := by
  cases h with
  | feed => rfl
  | publish hp =>
    cases hp with
    | test | pending | empty | item | send => rfl
  | stop => exact absurd rfl hne

/-- Only the publisher moves on in its loop. -/
theorem Touches.point (h : w.Touches dump th w') (hne : th ≠ .publisher) :
    w'.publisher.point = w.publisher.point := by
  cases h with
  | feed => rfl
  | publish => exact absurd rfl hne
  | stop hs => exact Worker.stop_point hs

/-- The publisher takes no step after its end. -/
theorem Touches.exited (h : w.Touches dump th w') (hexited : w.publisher.point = .exited) :
    w'.publisher.point = .exited := by
  by_cases hth : th = .publisher
  · subst hth
    cases h with
    | publish hp =>
      cases hp with
      | test hpoint | pending hpoint | empty hpoint | item hpoint | send hpoint =>
        exact absurd (hpoint.symm.trans hexited) (by simp)
  · exact (h.point hth).trans hexited

/-- Only the exchange thread moves on in its calls. -/
theorem Touches.left (h : w.Touches dump th w') (hne : th ≠ .exchange) :
    w'.feed.left = w.feed.left := by
  cases h with
  | feed => exact absurd rfl hne
  | stop => rfl
  | publish hp =>
    cases hp with
    | test | send => rfl
    | pending _ hpop | empty _ hpop | item _ hpop => exact Feed.left_pops hpop

end EventDispatcher

namespace ReplayLogger

variable {k : Fin 32} {w w' : ReplayLogger k} {th : ServiceThread}

/-- The steps on the logger by their threads. -/
inductive Touches (w : ReplayLogger k) : ServiceThread → ReplayLogger k → Prop
  | feed {feed : Feed String k} : w.feed.Moves feed → Touches w .exchange { w with feed := feed }
  | write {w' : ReplayLogger k} : w.writerLoop = some w' → Touches w .writer w'
  | stop {writer : Worker Unit} : w.writer.stop = some writer →
      Touches w .stopper { w with writer := writer }

theorem Touches.stopper (h : w.Touches th w') (hne : th ≠ .stopper) :
    w'.writer.stopper = w.writer.stopper := by
  cases h with
  | feed => rfl
  | write hw =>
    cases writerLoop_writes hw with
    | test | skip | line | empty | advance | append => rfl
  | stop => exact absurd rfl hne

theorem Touches.point (h : w.Touches th w') (hne : th ≠ .writer) :
    w'.writer.point = w.writer.point := by
  cases h with
  | feed => rfl
  | write => exact absurd rfl hne
  | stop hs => exact Worker.stop_point hs

theorem Touches.exited (h : w.Touches th w') (hexited : w.writer.point = .exited) :
    w'.writer.point = .exited := by
  by_cases hth : th = .writer
  · subst hth
    cases h with
    | write hw =>
      rw [writerLoop, hexited] at hw
      exact absurd hw (by simp)
  · exact (h.point hth).trans hexited

theorem Touches.left (h : w.Touches th w') (hne : th ≠ .exchange) :
    w'.feed.left = w.feed.left := by
  cases h with
  | feed => exact absurd rfl hne
  | stop => rfl
  | write hw =>
    cases writerLoop_writes hw with
    | test | line => rfl
    | skip _ _ _ hpop | empty _ hpop | advance _ _ hpop | append _ hpop => exact Feed.left_pops hpop

end ReplayLogger

namespace Gateway

variable {k : Fin 32} {w w' : Gateway k} {a : GatewayStep}

/-- Only the receiver moves on in its loop. -/
theorem step_receiver (h : w.step a = some w') (hne : a.thread ≠ .receiver) :
    w'.receiver = w.receiver := by
  cases step_move h with
  | receive | accept => exact absurd rfl hne
  | idle | take | serve | stop => rfl

/-- Only the exchange thread moves on in its loop, and takes messages or processes them. -/
theorem step_exchanger (h : w.step a = some w') (hne : a.thread ≠ .exchange) :
    w'.exchanger = w.exchanger ∧ w'.processed = w.processed := by
  cases step_move h with
  | receive | accept | stop => exact ⟨rfl, rfl⟩
  | idle | take | serve => exact absurd rfl hne

/-- Only the caller of `stop` moves on in `stop`. -/
theorem step_stopper (h : w.step a = some w') (hne : a.thread ≠ .stopper) :
    w'.stopper = w.stopper := by
  cases step_move h with
  | receive | accept | idle | take | serve => rfl
  | stop => exact absurd rfl hne

/-- No message is taken back. -/
theorem step_accepted (h : w.step a = some w') : w.accepted <+: w'.accepted := by
  cases step_move h with
  | receive | idle | take | serve | stop => exact List.prefix_rfl
  | accept => exact List.prefix_append _ _

end Gateway

namespace ExchangeService

variable {i o r : Fin 32} {dump : Json → String} {interval : Int} {w w' : ExchangeService i o r}
  {a : ServiceStep}

/-- A step of the loop, when no snapshot is due. -/
theorem advance_core {x : ExchangeInput} (h : w.advance dump interval x = some w') :
    w.core.exchangeLoop x.fuel x.now x.ts = some w'.core := by
  unfold advance at h
  split at h
  · exact absurd h (by simp)
  · next core hcore =>
    rw [hcore]
    split at h
    · obtain rfl := Option.some.inj h
      rfl
    · obtain rfl := Option.some.inj h
      rfl
    · split at h
      · unfold snapshotIfDue at h
        split at h
        · obtain ⟨snaps, -, rfl⟩ := Option.map_eq_some_iff.mp h
          rfl
        · obtain rfl := Option.some.inj h
          rfl
      · obtain rfl := Option.some.inj h
        rfl
    · split at h
      · exact absurd h (by simp)
      · obtain rfl := Option.some.inj h
        rfl
    · split at h
      · exact absurd h (by simp)
      · obtain rfl := Option.some.inj h
        rfl
    · split at h
      · unfold finish at h
        split at h
        · obtain rfl := Option.some.inj h
          rfl
        · exact absurd h (by simp)
      · obtain rfl := Option.some.inj h
        rfl

/-- What T2 has to come for the calls it has still to make, and in the call it is in. -/
def backlog (w : ExchangeService i o r) : Nat × Nat :=
  (w.calls.length, w.replay.feed.left + w.dispatcher.feed.left)

/-- T2 makes its calls, which brings it nearer to their end, or takes a step of its loop. -/
theorem exchangeLoop_cases {x : ExchangeInput} (h : w.exchangeLoop dump interval x = some w') :
    w'.core = w.core ∧ Falls w'.backlog w.backlog ∨
      w.backlog = (0, 0) ∧ w.advance dump interval x = some w' := by
  unfold exchangeLoop at h
  split at h
  · obtain ⟨replay, hreplay, rfl⟩ := Option.map_eq_some_iff.mp h
    obtain ⟨feed, hfeed, rfl⟩ := Option.map_eq_some_iff.mp hreplay
    exact .inl ⟨rfl, .right _ (Nat.add_lt_add_right (Feed.push_left hfeed) _)⟩
  · next hreplay =>
    split at h
    · obtain ⟨dispatcher, hdispatcher, rfl⟩ := Option.map_eq_some_iff.mp h
      obtain ⟨feed, hfeed, rfl⟩ := Option.map_eq_some_iff.mp hdispatcher
      exact .inl ⟨rfl, .right _ (Nat.add_lt_add_left (Feed.push_left hfeed) _)⟩
    · next hdispatcher =>
      split at h
      · next hcalls =>
        obtain ⟨replay, -, rfl⟩ := Option.map_eq_some_iff.mp h
        refine .inl ⟨rfl, .left _ _ ?_⟩
        rw [hcalls]
        exact Nat.lt_succ_self _
      · next hcalls =>
        obtain ⟨dispatcher, -, rfl⟩ := Option.map_eq_some_iff.mp h
        refine .inl ⟨rfl, .left _ _ ?_⟩
        rw [hcalls]
        exact Nat.lt_succ_self _
      · next hcalls =>
        refine .inr ⟨?_, h⟩
        rw [backlog, hcalls, Feed.left_eq_zero.mpr (not_not.mp hreplay),
          Feed.left_eq_zero.mpr (not_not.mp hdispatcher)]
        rfl

/-- A step of T2 is one of the core or leaves the core alone. -/
theorem exchangeLoop_core {x : ExchangeInput} (h : w.exchangeLoop dump interval x = some w') :
    w'.core = w.core ∨ w.core.exchangeLoop x.fuel x.now x.ts = some w'.core := by
  rcases exchangeLoop_cases h with ⟨hcore, -⟩ | ⟨-, hadvance⟩
  · exact .inl hcore
  · exact .inr (advance_core hadvance)

private theorem advance_queues {x : ExchangeInput} (h : w.advance dump interval x = some w') :
    (w'.dispatcher = w.dispatcher ∨ w.dispatcher.Touches dump .exchange w'.dispatcher) ∧
      (w'.replay = w.replay ∨ w.replay.Touches .exchange w'.replay) := by
  unfold advance at h
  split at h
  · exact absurd h (by simp)
  · split at h
    · obtain rfl := Option.some.inj h
      exact ⟨.inl rfl, .inl rfl⟩
    · obtain rfl := Option.some.inj h
      exact ⟨.inl rfl, .inl rfl⟩
    · split at h
      · unfold snapshotIfDue at h
        split at h
        · obtain ⟨snaps, -, rfl⟩ := Option.map_eq_some_iff.mp h
          exact ⟨.inl rfl, .inl rfl⟩
        · obtain rfl := Option.some.inj h
          exact ⟨.inl rfl, .inl rfl⟩
      · obtain rfl := Option.some.inj h
        exact ⟨.inl rfl, .inl rfl⟩
    · split at h
      · exact absurd h (by simp)
      · obtain rfl := Option.some.inj h
        exact ⟨.inl rfl, .inl rfl⟩
    · split at h
      · exact absurd h (by simp)
      · obtain rfl := Option.some.inj h
        exact ⟨.inl rfl, .inl rfl⟩
    · split at h
      · unfold finish at h
        split at h
        · next hdispatcher hreplay =>
          obtain rfl := Option.some.inj h
          obtain ⟨feed, hfeed, rfl⟩ := Option.map_eq_some_iff.mp hdispatcher
          obtain ⟨feed', hfeed', rfl⟩ := Option.map_eq_some_iff.mp hreplay
          exact ⟨.inr (.feed (Feed.finish_moves hfeed)), .inr (.feed (Feed.finish_moves hfeed'))⟩
        · exact absurd h (by simp)
      · obtain rfl := Option.some.inj h
        exact ⟨.inl rfl, .inl rfl⟩

/-- T2 only feeds the two queues. -/
private theorem exchangeLoop_queues {x : ExchangeInput}
    (h : w.exchangeLoop dump interval x = some w') :
    (w'.dispatcher = w.dispatcher ∨ w.dispatcher.Touches dump .exchange w'.dispatcher) ∧
      (w'.replay = w.replay ∨ w.replay.Touches .exchange w'.replay) := by
  unfold exchangeLoop at h
  split at h
  · obtain ⟨replay, hreplay, rfl⟩ := Option.map_eq_some_iff.mp h
    obtain ⟨feed, hfeed, rfl⟩ := Option.map_eq_some_iff.mp hreplay
    exact ⟨.inl rfl, .inr (.feed (Feed.push_moves hfeed))⟩
  · split at h
    · obtain ⟨dispatcher, hdispatcher, rfl⟩ := Option.map_eq_some_iff.mp h
      obtain ⟨feed, hfeed, rfl⟩ := Option.map_eq_some_iff.mp hdispatcher
      exact ⟨.inr (.feed (Feed.push_moves hfeed)), .inl rfl⟩
    · split at h
      · obtain ⟨replay, hreplay, rfl⟩ := Option.map_eq_some_iff.mp h
        obtain ⟨feed, hfeed, rfl⟩ := Option.map_eq_some_iff.mp hreplay
        exact ⟨.inl rfl, .inr (.feed (Feed.call_moves hfeed))⟩
      · obtain ⟨dispatcher, hdispatcher, rfl⟩ := Option.map_eq_some_iff.mp h
        obtain ⟨feed, hfeed, rfl⟩ := Option.map_eq_some_iff.mp hdispatcher
        exact ⟨.inr (.feed (Feed.call_moves hfeed)), .inl rfl⟩
      · exact advance_queues h

/-- The three stops come one after the other. -/
theorem stop_cases (h : w.stop dump = some w') :
    (w.core.stopper ≠ .returned ∧
      ∃ core, w.core.stop = some core ∧ w' = { w with core := core }) ∨
    (w.core.stopper = .returned ∧ w.dispatcher.publisher.stopper ≠ .returned ∧
      ∃ publisher, w.dispatcher.publisher.stop = some publisher ∧
        w' = { w with dispatcher := { w.dispatcher with publisher := publisher } }) ∨
    (w.core.stopper = .returned ∧ w.dispatcher.publisher.stopper = .returned ∧
      ∃ writer, w.replay.writer.stop = some writer ∧
        w' = { w with replay := { w.replay with writer := writer } }) := by
  unfold stop at h
  split at h
  · next hr hr' =>
    obtain ⟨replay, hreplay, rfl⟩ := Option.map_eq_some_iff.mp h
    obtain ⟨writer, hwriter, rfl⟩ := Option.map_eq_some_iff.mp hreplay
    exact .inr (.inr ⟨hr, hr', writer, hwriter, rfl⟩)
  · next hr hr' =>
    obtain ⟨dispatcher, hdispatcher, rfl⟩ := Option.map_eq_some_iff.mp h
    obtain ⟨publisher, hpublisher, rfl⟩ := Option.map_eq_some_iff.mp hdispatcher
    exact .inr (.inl ⟨hr, (hr' · ), publisher, hpublisher, rfl⟩)
  · next hne _ =>
    obtain ⟨core, hcore, rfl⟩ := Option.map_eq_some_iff.mp h
    refine .inl ⟨fun hr ↦ ?_, core, hcore, rfl⟩
    rw [Gateway.stop, hr] at hcore
    exact absurd hcore (by simp)

/-- What a step does to the core. -/
theorem step_core (h : w.step dump interval a = some w') :
    w'.core = w.core ∨ ∃ b : GatewayStep, b.thread = a.thread ∧ w.core.step b = some w'.core := by
  cases a with
  | receiver incoming =>
    obtain ⟨core, hcore, rfl⟩ := Option.map_eq_some_iff.mp h
    exact .inr ⟨.receiver incoming, rfl, hcore⟩
  | exchange x =>
    rcases exchangeLoop_core h with hcore | hcore
    · exact .inl hcore
    · exact .inr ⟨.exchange x.fuel x.now x.ts, rfl, hcore⟩
  | publish =>
    obtain ⟨dispatcher, -, rfl⟩ := Option.map_eq_some_iff.mp h
    exact .inl rfl
  | write =>
    obtain ⟨replay, -, rfl⟩ := Option.map_eq_some_iff.mp h
    exact .inl rfl
  | stop =>
    rcases stop_cases h with ⟨-, core, hcore, rfl⟩ | ⟨-, -, _, -, rfl⟩ | ⟨-, -, _, -, rfl⟩
    · exact .inr ⟨.stop, rfl, hcore⟩
    · exact .inl rfl
    · exact .inl rfl

/-- What a step does to the dispatcher. -/
theorem step_dispatcher (h : w.step dump interval a = some w') :
    w'.dispatcher = w.dispatcher ∨ w.dispatcher.Touches dump a.thread w'.dispatcher := by
  cases a with
  | receiver incoming =>
    obtain ⟨core, -, rfl⟩ := Option.map_eq_some_iff.mp h
    exact .inl rfl
  | exchange x => exact (exchangeLoop_queues h).1
  | publish =>
    obtain ⟨dispatcher, hdispatcher, rfl⟩ := Option.map_eq_some_iff.mp h
    exact .inr (.publish (EventDispatcher.publisherLoop_publishes hdispatcher))
  | write =>
    obtain ⟨replay, -, rfl⟩ := Option.map_eq_some_iff.mp h
    exact .inl rfl
  | stop =>
    rcases stop_cases h with ⟨-, _, -, rfl⟩ | ⟨-, -, _, hstop, rfl⟩ | ⟨-, -, _, -, rfl⟩
    · exact .inl rfl
    · exact .inr (.stop hstop)
    · exact .inl rfl

/-- What a step does to the logger. -/
theorem step_replay (h : w.step dump interval a = some w') :
    w'.replay = w.replay ∨ w.replay.Touches a.thread w'.replay := by
  cases a with
  | receiver incoming =>
    obtain ⟨core, -, rfl⟩ := Option.map_eq_some_iff.mp h
    exact .inl rfl
  | exchange x => exact (exchangeLoop_queues h).2
  | publish =>
    obtain ⟨dispatcher, -, rfl⟩ := Option.map_eq_some_iff.mp h
    exact .inl rfl
  | write =>
    obtain ⟨replay, hreplay, rfl⟩ := Option.map_eq_some_iff.mp h
    exact .inr (.write hreplay)
  | stop =>
    rcases stop_cases h with ⟨-, _, -, rfl⟩ | ⟨-, -, _, -, rfl⟩ | ⟨-, -, _, hstop, rfl⟩
    · exact .inl rfl
    · exact .inl rfl
    · exact .inr (.stop hstop)

/-- Only T2 has calls to make. -/
theorem step_calls (h : w.step dump interval a = some w') (hne : a.thread ≠ .exchange) :
    w'.calls = w.calls := by
  cases a with
  | receiver | publish | write =>
    obtain ⟨_, -, rfl⟩ := Option.map_eq_some_iff.mp h
    rfl
  | exchange => exact absurd rfl hne
  | stop =>
    rcases stop_cases h with ⟨-, _, -, rfl⟩ | ⟨-, -, _, -, rfl⟩ | ⟨-, -, _, -, rfl⟩ <;> rfl

end ExchangeService

end LobEngine
