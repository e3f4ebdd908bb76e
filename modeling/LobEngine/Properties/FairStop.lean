import LobEngine.Lib.Fairness
import LobEngine.Properties.StopReturns

/-!
# `stop` returns in every fair execution

When every thread that can take a step takes one sooner or later, `stop` does return, whatever the
order of the steps, and the service comes to rest. The threads come to their ends one after the
other: T1, T2, then T3 and then T4.
-/

namespace LobEngine

open RingProtocol Interleaving

/-! ### The steps of `stop` -/

/-- The steps that the caller of `stop` has to come. -/
def StopPoint.left : StopPoint → Nat
  | .calling => 3
  | .joiningReceiver => 2
  | .joiningExchange => 1
  | .returned => 0

def JoinPoint.left : JoinPoint → Nat
  | .calling => 2
  | .joining => 1
  | .returned => 0

theorem Worker.stop_falls {β : Type} {v v' : Worker β} (h : v.stop = some v') :
    v'.stopper.left < v.stopper.left := by
  unfold Worker.stop at h
  split at h
  · next hc =>
    obtain rfl := Option.some.inj h
    rw [hc]
    simp only
    split
    · exact Nat.lt_succ_self 1
    · exact Nat.zero_lt_two
  · next hj _ =>
    obtain rfl := Option.some.inj h
    rw [hj]
    exact Nat.zero_lt_one
  all_goals exact absurd h (by simp)

/-- The call of `stop` on a thread, and its join when the thread has ended. -/
theorem Worker.stop_isSome {β : Type} {v : Worker β} (hne : v.stopper ≠ .returned)
    (h : v.stopper ≠ .calling → v.point = .exited) : v.stop.isSome := by
  unfold Worker.stop
  cases hs : v.stopper with
  | calling => rfl
  | joining =>
    rw [h (by rw [hs]; decide)]
    rfl
  | returned => exact absurd hs hne

/-- A call of `stop` is not taken back. -/
private theorem Worker.stop_called {β : Type} {v v' : Worker β} (h : v.stop = some v') :
    v'.stopper ≠ .calling := by
  intro hc
  have hlt := Worker.stop_falls h
  rw [hc] at hlt
  cases hs : v.stopper with
  | calling | joining | returned =>
    rw [hs] at hlt
    exact absurd hlt (by decide)

namespace Gateway

variable {k : Fin 32} {w w' : Gateway k} {a : GatewayStep}

theorem stop_falls (h : w.stop = some w') : w'.stopper.left < w.stopper.left := by
  unfold stop at h
  split at h
  · next hc =>
    obtain rfl := Option.some.inj h
    rw [hc]
    simp only
    split
    · exact Nat.lt_succ_self 2
    · exact Nat.zero_lt_succ 2
  · next hj =>
    split at h
    · obtain rfl := Option.some.inj h
      rw [hj]
      exact Nat.lt_succ_self 1
    · exact absurd h (by simp)
  · next hj =>
    split at h
    · obtain rfl := Option.some.inj h
      rw [hj]
      exact Nat.zero_lt_one
    · exact absurd h (by simp)
  · exact absurd h (by simp)

theorem stop_isSome (hne : w.stopper ≠ .returned)
    (h : w.stopper ≠ .calling → w.receiver = .exited ∧ w.exchanger = .exited) :
    w.stop.isSome := by
  unfold stop
  cases hs : w.stopper with
  | calling => rfl
  | joiningReceiver =>
    obtain ⟨hreceiver, -⟩ := h (by rw [hs]; decide)
    simp only [hreceiver, ↓reduceIte]
    rfl
  | joiningExchange =>
    obtain ⟨-, hexchanger⟩ := h (by rw [hs]; decide)
    simp only [hexchanger, ↓reduceIte]
    rfl
  | returned => exact absurd hs hne

/-- T1, T2 and the caller of `stop` take no step after their ends. -/
private theorem step_receiver_exited (h : w.step a = some w') (hexited : w.receiver = .exited) :
    w'.receiver = .exited := by
  by_cases hth : a.thread = .receiver
  · cases a with
    | receiver incoming =>
      change w.receiverLoop incoming = _ at h
      unfold receiverLoop at h
      rw [hexited] at h
      exact absurd h (by simp)
    | exchange | stop => exact absurd hth (by simp [GatewayStep.thread])
  · exact (step_receiver h hth).trans hexited

private theorem step_exchanger_exited (h : w.step a = some w') (hexited : w.exchanger = .exited) :
    w'.exchanger = .exited := by
  by_cases hth : a.thread = .exchange
  · cases a with
    | exchange fuel now ts => exact absurd hexited (not_exited_of_step h)
    | receiver | stop => exact absurd hth (by simp [GatewayStep.thread])
  · exact (step_exchanger h hth).1.trans hexited

theorem step_returned (h : w.step a = some w') (hr : w.stopper = .returned) :
    w'.stopper = .returned := by
  by_cases hth : a.thread = .stopper
  · cases a with
    | stop =>
      change w.stop = _ at h
      rw [stop, hr] at h
      exact absurd h (by simp)
    | receiver | exchange => exact absurd hth (by simp [GatewayStep.thread])
  · exact (step_stopper h hth).trans hr

/-- What T2 has to come changes only with T1 and T2. -/
private theorem step_left (h : w.step a = some w') (hne : a.thread ≠ .receiver)
    (hne' : a.thread ≠ .exchange) : w'.left = w.left := by
  cases step_move h with
  | receive | accept => exact absurd rfl hne
  | idle | take | serve => exact absurd rfl hne'
  | stop => rfl

/-- A call of `stop` is not taken back. -/
private theorem step_called (h : w.step a = some w') (hc : w.stopper ≠ .calling) :
    w'.stopper ≠ .calling := by
  cases step_move h with
  | receive | accept | idle | take | serve => exact hc
  | stop hp => exact hp

end Gateway

/-- After the end of the exchange thread the others leave what T3 has to come. -/
theorem EventDispatcher.Touches.rank {k : Fin 32} {dump : Json → String}
    {w w' : EventDispatcher k} {th : ServiceThread} (h : w.Touches dump th w')
    (hne : th ≠ .publisher) (hf : w.feed.feeder = .finished) : w'.rank = w.rank := by
  unfold EventDispatcher.rank EventDispatcher.left
  rw [h.point hne]
  cases h with
  | feed hfeed => exact absurd hf hfeed.not_finished
  | publish => exact absurd rfl hne
  | stop => rfl

theorem ReplayLogger.Touches.rank {k : Fin 32} {w w' : ReplayLogger k} {th : ServiceThread}
    (h : w.Touches th w') (hne : th ≠ .writer) (hf : w.feed.feeder = .finished) :
    w'.rank = w.rank := by
  unfold ReplayLogger.rank ReplayLogger.left
  rw [h.point hne]
  cases h with
  | feed hfeed => exact absurd hf hfeed.not_finished
  | write => exact absurd rfl hne
  | stop => rfl

theorem EventDispatcher.Touches.called {k : Fin 32} {dump : Json → String}
    {w w' : EventDispatcher k} {th : ServiceThread} (h : w.Touches dump th w')
    (hc : w.publisher.stopper ≠ .calling) : w'.publisher.stopper ≠ .calling := by
  by_cases hth : th = .stopper
  · subst hth
    cases h with
    | stop hs => exact Worker.stop_called hs
  · rw [h.stopper hth]
    exact hc

theorem EventDispatcher.Touches.returned {k : Fin 32} {dump : Json → String}
    {w w' : EventDispatcher k} {th : ServiceThread} (h : w.Touches dump th w')
    (hr : w.publisher.stopper = .returned) : w'.publisher.stopper = .returned := by
  by_cases hth : th = .stopper
  · subst hth
    cases h with
    | stop hs =>
      have hlt := Worker.stop_falls hs
      rw [hr] at hlt
      exact absurd hlt (Nat.not_lt_zero _)
  · exact (h.stopper hth).trans hr

theorem ReplayLogger.Touches.called {k : Fin 32} {w w' : ReplayLogger k} {th : ServiceThread}
    (h : w.Touches th w') (hc : w.writer.stopper ≠ .calling) : w'.writer.stopper ≠ .calling := by
  by_cases hth : th = .stopper
  · subst hth
    cases h with
    | stop hs => exact Worker.stop_called hs
  · rw [h.stopper hth]
    exact hc

namespace ExchangeService

variable {i o r : Fin 32} {dump : Json → String} {interval first : Int}
  {w w' : ExchangeService i o r} {a : ServiceStep}

/-! ### What lasts -/

/-- What the steps of the core keep, the steps of the service keep. -/
theorem core_lasts {P : Gateway i → Prop} (hP : ∀ v b v', v.step b = some v' → P v → P v')
    (h : w.step dump interval a = some w') (hw : P w.core) : P w'.core := by
  rcases step_core h with hcore | ⟨b, -, hcore⟩
  · rw [hcore]
    exact hw
  · exact hP _ b _ hcore hw

theorem dispatcher_lasts {P : EventDispatcher o → Prop}
    (hP : ∀ v th v', v.Touches dump th v' → P v → P v')
    (h : w.step dump interval a = some w') (hw : P w.dispatcher) : P w'.dispatcher := by
  rcases step_dispatcher h with hsame | htouches
  · rw [hsame]
    exact hw
  · exact hP _ _ _ htouches hw

theorem replay_lasts {P : ReplayLogger r → Prop} (hP : ∀ v th v', v.Touches th v' → P v → P v')
    (h : w.step dump interval a = some w') (hw : P w.replay) : P w'.replay := by
  rcases step_replay h with hsame | htouches
  · rw [hsame]
    exact hw
  · exact hP _ _ _ htouches hw

section Executions

variable {st : ℕ → ExchangeService i o r} {m n : ℕ}

/-- What the steps of a part keep, an execution keeps. -/
theorem core_stays {P : Gateway i → Prop} (hP : ∀ v b v', v.step b = some v' → P v → P v')
    (hexec : Execution (step dump interval) st) (hmn : m ≤ n) (hm : P (st m).core) :
    P (st n).core :=
  hexec.preserves (P := fun w ↦ P w.core) (fun _ _ _ hv hs ↦ core_lasts hP hs hv) hmn hm

theorem dispatcher_stays {P : EventDispatcher o → Prop}
    (hP : ∀ v th v', v.Touches dump th v' → P v → P v')
    (hexec : Execution (step dump interval) st) (hmn : m ≤ n) (hm : P (st m).dispatcher) :
    P (st n).dispatcher :=
  hexec.preserves (P := fun w ↦ P w.dispatcher)
    (fun _ _ _ hv hs ↦ dispatcher_lasts hP hs hv) hmn hm

theorem replay_stays {P : ReplayLogger r → Prop} (hP : ∀ v th v', v.Touches th v' → P v → P v')
    (hexec : Execution (step dump interval) st) (hmn : m ≤ n) (hm : P (st m).replay) :
    P (st n).replay :=
  hexec.preserves (P := fun w ↦ P w.replay) (fun _ _ _ hv hs ↦ replay_lasts hP hs hv) hmn hm

/-- No message is taken back. -/
theorem accepted_grows (hexec : Execution (step dump interval) st) (hmn : m ≤ n) :
    (st m).core.accepted <+: (st n).core.accepted :=
  core_stays (P := fun v ↦ (st m).core.accepted <+: v.accepted)
    (fun _ _ _ hstep hp ↦ hp.trans (Gateway.step_accepted hstep)) hexec hmn List.prefix_rfl

end Executions

/-! ### Each step of `stop` counts -/

private theorem core_stop_falls (h : w.step dump interval a = some w')
    (hne : w.core.stopper ≠ .returned) : w'.core.stopper.left < w.core.stopper.left ∨
      w'.core.stopper.left = w.core.stopper.left ∧ ¬a.thread = .stopper := by
  by_cases hth : a.thread = .stopper
  · cases a with
    | stop =>
      rcases stop_cases h with ⟨-, core, hcore, rfl⟩ | ⟨hr, -⟩ | ⟨hr, -⟩
      · exact .inl (Gateway.stop_falls hcore)
      · exact absurd hr hne
      · exact absurd hr hne
    | receiver | exchange | publish | write => exact nomatch hth
  · refine .inr ⟨?_, hth⟩
    rcases step_core h with hcore | ⟨b, hb, hcore⟩
    · rw [hcore]
    · rw [← hb] at hth
      rw [Gateway.step_stopper hcore hth]

private theorem publisher_stop_falls (h : w.step dump interval a = some w')
    (hr : w.core.stopper = .returned) (hne : w.dispatcher.publisher.stopper ≠ .returned) :
    w'.dispatcher.publisher.stopper.left < w.dispatcher.publisher.stopper.left ∨
      w'.dispatcher.publisher.stopper.left = w.dispatcher.publisher.stopper.left ∧
        ¬a.thread = .stopper := by
  by_cases hth : a.thread = .stopper
  · cases a with
    | stop =>
      rcases stop_cases h with ⟨hne', -⟩ | ⟨-, -, publisher, hstop, rfl⟩ | ⟨-, hr', -⟩
      · exact absurd hr hne'
      · exact .inl (Worker.stop_falls hstop)
      · exact absurd hr' hne
    | receiver | exchange | publish | write => exact nomatch hth
  · refine .inr ⟨?_, hth⟩
    rcases step_dispatcher h with hsame | htouches
    · rw [hsame]
    · rw [htouches.stopper hth]

private theorem writer_stop_falls (h : w.step dump interval a = some w')
    (hr : w.core.stopper = .returned) (hr' : w.dispatcher.publisher.stopper = .returned) :
    w'.replay.writer.stopper.left < w.replay.writer.stopper.left ∨
      w'.replay.writer.stopper.left = w.replay.writer.stopper.left ∧ ¬a.thread = .stopper := by
  by_cases hth : a.thread = .stopper
  · cases a with
    | stop =>
      rcases stop_cases h with ⟨hne, -⟩ | ⟨-, hne, -⟩ | ⟨-, -, writer, hstop, rfl⟩
      · exact absurd hr hne
      · exact absurd hr' hne
      · exact .inl (Worker.stop_falls hstop)
    | receiver | exchange | publish | write => exact nomatch hth
  · refine .inr ⟨?_, hth⟩
    rcases step_replay h with hsame | htouches
    · rw [hsame]
    · rw [htouches.stopper hth]

/-! ### One thread after the other -/

section Stages

variable {st : ℕ → ExchangeService i o r}

/-- The thread takes a step again and again, or cannot take one. -/
def FairTo (dump : Json → String) (interval : Int) (th : ServiceThread)
    (st : ℕ → ExchangeService i o r) : Prop :=
  WeaklyFair (step dump interval) (fun a ↦ a.thread = th) st

/-- `stop` is called. -/
private theorem leadsTo_called (hfair : FairTo dump interval .stopper st)
    (hexec : Execution (step dump interval) st) :
    LeadsTo st (fun _ ↦ True) fun w ↦ w.core.stopper ≠ .calling := by
  apply hfair.leadsTo Nat.lt_wfRel.wf (fun w ↦ w.core.stopper.left) (I := fun _ ↦ True) hexec
  · exact fun _ ↦ trivial
  · exact fun _ _ _ _ _ _ ↦ trivial
  · intro w _ _ hc
    rw [not_not] at hc
    refine ⟨.stop, rfl, ?_⟩
    show (w.stop dump).isSome
    rw [stop_core (by rw [hc]; decide), Option.isSome_map]
    exact Gateway.stop_isSome (by rw [hc]; decide) fun hne ↦ absurd hc hne
  · intro w a w' _ _ hc h
    rw [not_not] at hc
    exact core_stop_falls h (by rw [hc]; decide)

/-- T1 ends. -/
private theorem leadsTo_received (hfair : FairTo dump interval .receiver st)
    (hexec : Execution (step dump interval) st) (hlive : ∀ n, Live dump (st n)) :
    LeadsTo st (fun w ↦ w.core.stopper ≠ .calling) fun w ↦ w.core.receiver = .exited := by
  apply hfair.leadsTo Nat.lt_wfRel.wf (fun w ↦ w.core.receiver.left) hexec hlive
  · exact fun _ _ _ _ hc h ↦
      core_lasts (P := (·.stopper ≠ .calling)) (fun _ _ _ ↦ Gateway.step_called) h hc
  · intro w _ _ hne
    refine ⟨.receiver none, rfl, ?_⟩
    show (Option.map _ _).isSome
    rw [Option.isSome_map]
    exact Gateway.receiverLoop_isSome none hne
  · intro w a w' hw hc _ h
    by_cases hth : a.thread = .receiver
    · cases a with
      | receiver incoming =>
        obtain ⟨core, hcore, rfl⟩ := Option.map_eq_some_iff.mp h
        exact .inl (Gateway.receiverLoop_falls (hw.lowered.core hc) hcore)
      | exchange | publish | write | stop => exact nomatch hth
    · refine .inr ⟨?_, hth⟩
      rcases step_core h with hcore | ⟨b, hb, hcore⟩
      · rw [hcore]
      · rw [← hb] at hth
        rw [Gateway.step_receiver hcore hth]

/-- The other threads leave the calls of T2 alone. -/
theorem backlog_of_other (h : w.step dump interval a = some w') (hne : a.thread ≠ .exchange) :
    w'.backlog = w.backlog := by
  have hdispatcher : w'.dispatcher.feed.left = w.dispatcher.feed.left := by
    rcases step_dispatcher h with hsame | htouches
    · rw [hsame]
    · exact htouches.left hne
  have hreplay : w'.replay.feed.left = w.replay.feed.left := by
    rcases step_replay h with hsame | htouches
    · rw [hsame]
    · exact htouches.left hne
  rw [backlog, backlog, hdispatcher, hreplay, step_calls h hne]

/-- T3, T4 and the caller of `stop` leave what T2 has to come. -/
private theorem rank_of_other (h : w.step dump interval a = some w') (hne : a.thread ≠ .receiver)
    (hne' : a.thread ≠ .exchange) : w'.rank = w.rank := by
  have hcore : w'.core.left = w.core.left := by
    rcases step_core h with hcore | ⟨b, hb, hcore⟩
    · rw [hcore]
    · rw [← hb] at hne hne'
      exact Gateway.step_left hcore hne hne'
  show (w'.core.left, w'.backlog) = (w.core.left, w.backlog)
  rw [hcore, backlog_of_other h hne']

/-- With distinct identifiers T2 can take a step until it ends. -/
theorem exists_step_exchange (interval : Int) (hw : Consistent dump w)
    (hd : DistinctIds w.core.accepted) (hne : w.core.exchanger ≠ .exited) :
    ∃ a : ServiceStep, a.thread = .exchange ∧ (w.step dump interval a).isSome := by
  obtain ⟨x, w', h⟩ := exists_exchangeLoop interval hw hd hne
  refine ⟨.exchange x, rfl, ?_⟩
  show (w.exchangeLoop dump interval x).isSome
  rw [h]
  rfl

/-- T2 ends. -/
private theorem leadsTo_exchanged (hfair : FairTo dump interval .exchange st)
    (hexec : Execution (step dump interval) st)
    (hlive : ∀ n, Live dump (st n) ∧ DistinctIds (st n).core.accepted) :
    LeadsTo st (fun w ↦ w.core.stopper ≠ .calling ∧ w.core.receiver = .exited)
      fun w ↦ w.core.exchanger = .exited := by
  apply hfair.leadsTo below_wf rank (I := fun w ↦ Live dump w ∧ DistinctIds w.core.accepted)
    hexec hlive
  · intro w a w' _ ⟨hc, hreceiver⟩ h
    exact ⟨core_lasts (P := (·.stopper ≠ .calling)) (fun _ _ _ ↦ Gateway.step_called) h hc,
      core_lasts (P := (·.receiver = .exited)) (fun _ _ _ ↦ Gateway.step_receiver_exited) h
        hreceiver⟩
  · intro w ⟨hw, hd⟩ _ hne
    exact exists_step_exchange interval hw.consistent hd hne
  · intro w a w' ⟨hw, _⟩ ⟨hc, hreceiver⟩ _ h
    cases a with
    | receiver incoming =>
      obtain ⟨core, hcore, -⟩ := Option.map_eq_some_iff.mp h
      unfold Gateway.receiverLoop at hcore
      rw [hreceiver] at hcore
      exact absurd hcore (by simp)
    | exchange x => exact .inl (exchangeLoop_falls (hw.lowered.core hc) h)
    | publish | write | stop =>
      exact .inr ⟨rank_of_other h (fun hth ↦ nomatch hth) (fun hth ↦ nomatch hth),
        (fun hth ↦ nomatch hth)⟩

/-- `stop` joins T1 and T2. -/
private theorem leadsTo_joined (hfair : FairTo dump interval .stopper st)
    (hexec : Execution (step dump interval) st) :
    LeadsTo st (fun w ↦ w.core.receiver = .exited ∧ w.core.exchanger = .exited)
      fun w ↦ w.core.stopper = .returned := by
  apply hfair.leadsTo Nat.lt_wfRel.wf (fun w ↦ w.core.stopper.left) (I := fun _ ↦ True) hexec
  · exact fun _ ↦ trivial
  · intro w a w' _ ⟨hreceiver, hexchanger⟩ h
    exact ⟨core_lasts (P := (·.receiver = .exited)) (fun _ _ _ ↦ Gateway.step_receiver_exited) h
      hreceiver, core_lasts (P := (·.exchanger = .exited))
      (fun _ _ _ ↦ Gateway.step_exchanger_exited) h hexchanger⟩
  · intro w _ hboth hne
    refine ⟨.stop, rfl, ?_⟩
    show (w.stop dump).isSome
    rw [stop_core hne, Option.isSome_map]
    exact Gateway.stop_isSome hne fun _ ↦ hboth
  · exact fun w a w' _ _ hne h ↦ core_stop_falls h hne

/-- `stop` of the dispatcher is called. -/
private theorem leadsTo_publisher_called (hfair : FairTo dump interval .stopper st)
    (hexec : Execution (step dump interval) st) :
    LeadsTo st (fun w ↦ w.core.stopper = .returned)
      fun w ↦ w.dispatcher.publisher.stopper ≠ .calling := by
  apply hfair.leadsTo Nat.lt_wfRel.wf (fun w ↦ w.dispatcher.publisher.stopper.left)
    (I := fun _ ↦ True) hexec
  · exact fun _ ↦ trivial
  · exact fun _ _ _ _ hr h ↦
      core_lasts (P := (·.stopper = .returned)) (fun _ _ _ ↦ Gateway.step_returned) h hr
  · intro w _ hr hc
    rw [not_not] at hc
    refine ⟨.stop, rfl, ?_⟩
    show (w.stop dump).isSome
    rw [stop_dispatcher hr (by rw [hc]; decide), Option.isSome_map]
    exact Worker.stop_isSome (by rw [hc]; decide) fun hne ↦ absurd hc hne
  · intro w a w' _ hr hc h
    rw [not_not] at hc
    exact publisher_stop_falls h hr (by rw [hc]; decide)

/-- T3 ends. -/
private theorem leadsTo_published (hfair : FairTo dump interval .publisher st)
    (hexec : Execution (step dump interval) st) (hlive : ∀ n, Live dump (st n)) :
    LeadsTo st (fun w ↦ w.core.stopper = .returned ∧ w.dispatcher.publisher.stopper ≠ .calling)
      fun w ↦ w.dispatcher.publisher.point = .exited := by
  apply hfair.leadsTo falls_wf (fun w ↦ w.dispatcher.rank) hexec hlive
  · intro w a w' _ ⟨hr, hc⟩ h
    exact ⟨core_lasts (P := (·.stopper = .returned)) (fun _ _ _ ↦ Gateway.step_returned) h hr,
      dispatcher_lasts (P := (·.publisher.stopper ≠ .calling))
        (fun _ _ _ ↦ EventDispatcher.Touches.called) h hc⟩
  · intro w _ _ hne
    refine ⟨.publish, rfl, ?_⟩
    show (Option.map _ _).isSome
    rw [Option.isSome_map]
    exact EventDispatcher.publisherLoop_isSome hne
  · intro w a w' hw ⟨hr, hc⟩ _ h
    by_cases hth : a.thread = .publisher
    · cases a with
      | publish =>
        obtain ⟨dispatcher, hdispatcher, rfl⟩ := Option.map_eq_some_iff.mp h
        exact .inl ((EventDispatcher.publisherLoop_publishes hdispatcher).falls
          hw.consistent.dispatcher (hw.lowered.publisher hc))
      | receiver | exchange | write | stop => exact nomatch hth
    · obtain ⟨-, hsettled, -⟩ := hw.consistent.settled (hw.consistent.core.returned hr)
      refine .inr ⟨?_, hth⟩
      rcases step_dispatcher h with hsame | htouches
      · rw [hsame]
      · exact htouches.rank hth hsettled.1

/-- `stop` joins T3. -/
private theorem leadsTo_publisher_joined (hfair : FairTo dump interval .stopper st)
    (hexec : Execution (step dump interval) st) :
    LeadsTo st (fun w ↦ w.core.stopper = .returned ∧ w.dispatcher.publisher.point = .exited)
      fun w ↦ w.dispatcher.publisher.stopper = .returned := by
  apply hfair.leadsTo Nat.lt_wfRel.wf (fun w ↦ w.dispatcher.publisher.stopper.left)
    (I := fun _ ↦ True) hexec
  · exact fun _ ↦ trivial
  · intro w a w' _ ⟨hr, hexited⟩ h
    exact ⟨core_lasts (P := (·.stopper = .returned)) (fun _ _ _ ↦ Gateway.step_returned) h hr,
      dispatcher_lasts (P := (·.publisher.point = .exited))
        (fun _ _ _ ↦ EventDispatcher.Touches.exited) h hexited⟩
  · intro w _ ⟨hr, hexited⟩ hne
    refine ⟨.stop, rfl, ?_⟩
    show (w.stop dump).isSome
    rw [stop_dispatcher hr hne, Option.isSome_map]
    exact Worker.stop_isSome hne fun _ ↦ hexited
  · exact fun w a w' _ hp hne h ↦ publisher_stop_falls h hp.1 hne

/-- `stop` of the logger is called. -/
private theorem leadsTo_writer_called (hfair : FairTo dump interval .stopper st)
    (hexec : Execution (step dump interval) st) :
    LeadsTo st
      (fun w ↦ w.core.stopper = .returned ∧ w.dispatcher.publisher.stopper = .returned)
      fun w ↦ w.replay.writer.stopper ≠ .calling := by
  apply hfair.leadsTo Nat.lt_wfRel.wf (fun w ↦ w.replay.writer.stopper.left)
    (I := fun _ ↦ True) hexec
  · exact fun _ ↦ trivial
  · intro w a w' _ ⟨hr, hr'⟩ h
    exact ⟨core_lasts (P := (·.stopper = .returned)) (fun _ _ _ ↦ Gateway.step_returned) h hr,
      dispatcher_lasts (P := (·.publisher.stopper = .returned))
        (fun _ _ _ ↦ EventDispatcher.Touches.returned) h hr'⟩
  · intro w _ ⟨hr, hr'⟩ hc
    rw [not_not] at hc
    refine ⟨.stop, rfl, ?_⟩
    show (w.stop dump).isSome
    rw [stop_replay hr hr', Option.isSome_map]
    exact Worker.stop_isSome (by rw [hc]; decide) fun hne ↦ absurd hc hne
  · exact fun w a w' _ hp _ h ↦ writer_stop_falls h hp.1 hp.2

/-- T4 ends. -/
private theorem leadsTo_written (hfair : FairTo dump interval .writer st)
    (hexec : Execution (step dump interval) st) (hlive : ∀ n, Live dump (st n)) :
    LeadsTo st (fun w ↦ w.core.stopper = .returned ∧ w.replay.writer.stopper ≠ .calling)
      fun w ↦ w.replay.writer.point = .exited := by
  apply hfair.leadsTo falls_wf (fun w ↦ w.replay.rank) hexec hlive
  · intro w a w' _ ⟨hr, hc⟩ h
    exact ⟨core_lasts (P := (·.stopper = .returned)) (fun _ _ _ ↦ Gateway.step_returned) h hr,
      replay_lasts (P := (·.writer.stopper ≠ .calling))
        (fun _ _ _ ↦ ReplayLogger.Touches.called) h hc⟩
  · intro w hw _ hne
    refine ⟨.write, rfl, ?_⟩
    show (Option.map _ _).isSome
    rw [Option.isSome_map]
    exact hw.consistent.replay.writerLoop_isSome hne
  · intro w a w' hw ⟨hr, hc⟩ _ h
    by_cases hth : a.thread = .writer
    · cases a with
      | write =>
        obtain ⟨replay, hreplay, rfl⟩ := Option.map_eq_some_iff.mp h
        exact .inl (ReplayLogger.writerLoop_falls hreplay hw.consistent.replay
          (hw.lowered.writer hc))
      | receiver | exchange | publish | stop => exact nomatch hth
    · obtain ⟨-, -, hsettled⟩ := hw.consistent.settled (hw.consistent.core.returned hr)
      refine .inr ⟨?_, hth⟩
      rcases step_replay h with hsame | htouches
      · rw [hsame]
      · exact htouches.rank hth hsettled.1

/-- `stop` joins T4. -/
private theorem leadsTo_writer_joined (hfair : FairTo dump interval .stopper st)
    (hexec : Execution (step dump interval) st) :
    LeadsTo st
      (fun w ↦ (w.core.stopper = .returned ∧ w.dispatcher.publisher.stopper = .returned) ∧
        w.replay.writer.point = .exited)
      fun w ↦ w.replay.writer.stopper = .returned := by
  apply hfair.leadsTo Nat.lt_wfRel.wf (fun w ↦ w.replay.writer.stopper.left)
    (I := fun _ ↦ True) hexec
  · exact fun _ ↦ trivial
  · intro w a w' _ ⟨⟨hr, hr'⟩, hexited⟩ h
    exact ⟨⟨core_lasts (P := (·.stopper = .returned)) (fun _ _ _ ↦ Gateway.step_returned) h hr,
      dispatcher_lasts (P := (·.publisher.stopper = .returned))
        (fun _ _ _ ↦ EventDispatcher.Touches.returned) h hr'⟩,
      replay_lasts (P := (·.writer.point = .exited)) (fun _ _ _ ↦ ReplayLogger.Touches.exited) h
        hexited⟩
  · intro w _ ⟨⟨hr, hr'⟩, hexited⟩ hne
    refine ⟨.stop, rfl, ?_⟩
    show (w.stop dump).isSome
    rw [stop_replay hr hr', Option.isSome_map]
    exact Worker.stop_isSome hne fun _ ↦ hexited
  · exact fun w a w' _ hp _ h ↦ writer_stop_falls h hp.1.1 hp.1.2

end Stages

/-! ### The end -/

/-- When `stop` has returned, no thread can take a step. -/
private theorem at_rest (hw : Live dump w) (hreceiver : w.core.receiver = .exited)
    (hr : w.core.stopper = .returned) (hr' : w.dispatcher.publisher.stopper = .returned)
    (hr'' : w.replay.writer.stopper = .returned) (a : ServiceStep) :
    w.step dump interval a = none := by
  have hexchanger := hw.consistent.core.returned hr
  obtain ⟨hcalls, ⟨hfinished, -⟩, hfinished', -⟩ := hw.consistent.settled hexchanger
  cases a with
  | receiver incoming =>
    show Option.map _ (w.core.receiverLoop incoming) = none
    unfold Gateway.receiverLoop
    rw [hreceiver]
    rfl
  | exchange x =>
    show w.exchangeLoop dump interval x = none
    unfold exchangeLoop
    rw [if_neg, if_neg, hcalls]
    · show w.advance dump interval x = none
      unfold advance Gateway.exchangeLoop
      rw [hexchanger]
    · rw [hfinished]
      exact fun h ↦ h trivial
    · rw [hfinished']
      exact fun h ↦ h trivial
  | publish =>
    show Option.map _ (w.dispatcher.publisherLoop dump) = none
    unfold EventDispatcher.publisherLoop
    rw [hw.consistent.dispatcher.publisher.returned hr']
    rfl
  | write =>
    show Option.map _ w.replay.writerLoop = none
    unfold ReplayLogger.writerLoop
    rw [hw.consistent.replay.writer.returned hr'']
    rfl
  | stop =>
    show w.stop dump = none
    rw [stop_replay hr hr', Worker.stop, hr'']
    rfl

/-- The states of an execution from the start of the service. -/
theorem execution_live {st : ℕ → ExchangeService i o r}
    (hexec : Execution (step dump interval) st) (hfirst : st 0 = started i o r first) (n : ℕ) :
    Live dump (st n) := by
  refine hexec.preserves (fun _ _ _ hv hs ↦ hv.move hs) (Nat.zero_le n) ?_
  rw [hfirst]
  exact live_started dump i o r first

/-- In every execution that is fair to the threads and to the caller of `stop`, whatever the order
of their steps, `stop` returns and the service comes to rest, as long as the accepted orders carry
distinct identifiers. -/
theorem stop_returns {st : ℕ → ExchangeService i o r} (hfirst : st 0 = started i o r first)
    (hexec : Execution (step dump interval) st) (hfair : ∀ th, FairTo dump interval th st)
    (hd : ∀ n, DistinctIds (st n).core.accepted) :
    ∃ n, (st n).replay.writer.stopper = .returned ∧ ∀ m, n ≤ m → st m = st n := by
  have hlive := execution_live hexec hfirst
  -- T1 ends, and then T2
  obtain ⟨n₁, -, hc₁⟩ := leadsTo_called (hfair _) hexec 0 trivial
  obtain ⟨n₂, h₁₂, hreceiver₂⟩ := leadsTo_received (hfair _) hexec hlive n₁ hc₁
  have hc₂ :=
    core_stays (P := (·.stopper ≠ .calling)) (fun _ _ _ ↦ Gateway.step_called) hexec h₁₂ hc₁
  obtain ⟨n₃, h₂₃, hexchanger₃⟩ :=
    leadsTo_exchanged (hfair _) hexec (fun n ↦ ⟨hlive n, hd n⟩) n₂ ⟨hc₂, hreceiver₂⟩
  have hreceiver₃ := core_stays (P := (·.receiver = .exited))
    (fun _ _ _ ↦ Gateway.step_receiver_exited) hexec h₂₃ hreceiver₂
  obtain ⟨n₄, h₃₄, hr₄⟩ := leadsTo_joined (hfair _) hexec n₃ ⟨hreceiver₃, hexchanger₃⟩
  have hreturned {n : ℕ} (hn : n₄ ≤ n) : (st n).core.stopper = .returned :=
    core_stays (P := (·.stopper = .returned)) (fun _ _ _ ↦ Gateway.step_returned) hexec hn hr₄
  -- T3 ends
  obtain ⟨n₅, h₄₅, hc₅⟩ := leadsTo_publisher_called (hfair _) hexec n₄ hr₄
  obtain ⟨n₆, h₅₆, hexited₆⟩ :=
    leadsTo_published (hfair _) hexec hlive n₅ ⟨hreturned h₄₅, hc₅⟩
  have h₄₆ := h₄₅.trans h₅₆
  obtain ⟨n₇, h₆₇, hr₇⟩ :=
    leadsTo_publisher_joined (hfair _) hexec n₆ ⟨hreturned h₄₆, hexited₆⟩
  have h₄₇ := h₄₆.trans h₆₇
  have hpublished {n : ℕ} (hn : n₇ ≤ n) : (st n).dispatcher.publisher.stopper = .returned :=
    dispatcher_stays (P := (·.publisher.stopper = .returned))
      (fun _ _ _ ↦ EventDispatcher.Touches.returned) hexec hn hr₇
  -- T4 ends
  obtain ⟨n₈, h₇₈, hc₈⟩ :=
    leadsTo_writer_called (hfair _) hexec n₇ ⟨hreturned h₄₇, hr₇⟩
  have h₄₈ := h₄₇.trans h₇₈
  obtain ⟨n₉, h₈₉, hexited₉⟩ :=
    leadsTo_written (hfair _) hexec hlive n₈ ⟨hreturned h₄₈, hc₈⟩
  have h₄₉ := h₄₈.trans h₈₉
  have h₇₉ := h₇₈.trans h₈₉
  obtain ⟨n, h₉, hr⟩ := leadsTo_writer_joined (hfair _) hexec n₉
    ⟨⟨hreturned h₄₉, hpublished h₇₉⟩, hexited₉⟩
  refine ⟨n, hr, fun m hnm ↦ ?_⟩
  have hreceiver := core_stays (P := (·.receiver = .exited))
    (fun _ _ _ ↦ Gateway.step_receiver_exited) hexec (h₃₄.trans (h₄₉.trans h₉)) hreceiver₃
  have hend (a : ServiceStep) : (st n).step dump interval a = none :=
    at_rest (hlive n) hreceiver (hreturned (h₄₉.trans h₉)) (hpublished (h₇₉.trans h₉)) hr a
  refine hexec.preserves (P := (· = st n)) (fun v a v' hv hs ↦ ?_) hnm rfl
  rw [hv, hend a] at hs
  exact absurd hs (by simp)

/-- What T2 meets when nothing is due. -/
private def idleInput : ExchangeInput := ⟨50, 0, 7, 0, fun _ ↦ 0, .orderAccepted {}, ""⟩

/-- An order is answered, and `stop` is called. -/
private def servesAndStops : List ServiceStep :=
  [.receiver none,
    .receiver (some { orderId := 1, symbol := "STOCK_1", quantity := 5, price := 100 }),
    .receiver none] ++ List.replicate 29 (.exchange idleInput) ++ [.stop, .receiver none] ++
    List.replicate 3 (.exchange idleInput) ++ [.stop, .stop, .stop] ++
    List.replicate 8 .publish ++ [.stop, .stop] ++ List.replicate 8 .write ++ [.stop]

/-- A fair execution in which an order is answered with two events before the service comes to
rest. -/
theorem exists_fair_execution : ∃ st : ℕ → ExchangeService 2 1 1, st 0 = started 2 1 1 5 ∧
    Execution (step (fun _ ↦ "event") 100) st ∧ (∀ th, FairTo (fun _ ↦ "event") 100 th st) ∧
    (∀ n, DistinctIds (st n).core.accepted) ∧ ∃ n, ∀ m, n ≤ m →
      (st m).core.accepted.length = 1 ∧ (st m).produced.length = 2 := by
  obtain ⟨w, hw, hd, hone, htwo, hreceiver, hr, hr', hr''⟩ : ∃ w ∈
      run (step (fun _ ↦ "event") 100) servesAndStops (started 2 1 1 5),
      DistinctIds w.core.accepted ∧ w.core.accepted.length = 1 ∧ w.produced.length = 2 ∧
      w.core.receiver = .exited ∧ w.core.stopper = .returned ∧
      w.dispatcher.publisher.stopper = .returned ∧
      w.replay.writer.stopper = .returned := by decide +kernel
  have hlive := (live_started (fun _ ↦ "event") 2 1 1 5).path (Path.nil.run hw)
  obtain ⟨st, hfirst, hlast, hexec, hfair⟩ :=
    exists_execution hw (at_rest hlive hreceiver hr hr' hr'')
  refine ⟨st, hfirst, hexec, fun _ ↦ hfair _, fun n ↦ ?_, servesAndStops.length, fun m hm ↦ ?_⟩
  · have hfront := accepted_grows hexec (Nat.le_add_right n servesAndStops.length)
    rw [hlast _ (Nat.le_add_left _ _)] at hfront
    exact hd.sublist hfront.sublist
  · rw [hlast m hm]
    exact ⟨hone, htwo⟩

theorem stop_returns_one : ∃ (st : ℕ → ExchangeService 2 1 1) (n : ℕ), st 0 = started 2 1 1 5 ∧
    (st n).core.accepted.length = 1 ∧ (st n).replay.writer.stopper = .returned := by
  obtain ⟨st, hfirst, hexec, hfair, hdistinct, k, hk⟩ := exists_fair_execution
  obtain ⟨n, hreturned, hrest⟩ := stop_returns hfirst hexec hfair hdistinct
  refine ⟨st, n, hfirst, ?_, hreturned⟩
  rw [← hrest _ (Nat.le_add_right n k)]
  exact (hk _ (Nat.le_add_left k n)).1

end ExchangeService

end LobEngine
