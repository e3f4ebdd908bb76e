import LobEngine.Gateway.EventDispatcher
import LobEngine.Gateway.ReplayLogger
import LobEngine.Gateway.Shutdown

/-!
# The exchange service

`src/gateway/gateway.hpp`, `src/gateway/gateway.cpp`: the gateway together with its event
dispatcher and its replay logger. The exchange thread T2 logs and enqueues every answer and, when
the interval has passed, a snapshot of every instrument; the publisher T3 and the writer T4 empty
the two queues; `stop` joins T1 and T2 and then stops both. The pushes and pops of the two
outbound queues are taken apart into their loads and stores, those of the inbound queue are not.
-/

namespace LobEngine

open RingProtocol Interleaving

/-- A call that T2 makes for an event or a batch. -/
inductive OutboundCall where
  | log (ev : ExchangeEvent)
  | enqueue (evs : List ExchangeEvent)

namespace OutboundCall

def logged : OutboundCall → List ExchangeEvent
  | log ev => [ev]
  | enqueue _ => []

def enqueued : OutboundCall → List ExchangeEvent
  | log _ => []
  | enqueue evs => evs

/-- The calls for the answer to a message; `src/gateway/gateway.cpp:167–170`, `188–191`. -/
def ofAnswer (evs : List ExchangeEvent) : List OutboundCall := evs.map log ++ [enqueue evs]

/-- The calls for a batch of snapshots; `src/gateway/gateway.cpp:176–179`. -/
def ofSnapshots (snaps : List SnapshotEvent) : List OutboundCall :=
  snaps.flatMap fun snap ↦ [log (.snapshot snap), enqueue [.snapshot snap]]

theorem logged_ofAnswer (evs : List ExchangeEvent) : (ofAnswer evs).flatMap logged = evs := by
  rw [ofAnswer, List.flatMap_append, List.flatMap_map]
  show evs.flatMap (fun ev ↦ [ev]) ++ [] = evs
  rw [List.append_nil, List.flatMap_singleton']

theorem enqueued_ofAnswer (evs : List ExchangeEvent) : (ofAnswer evs).flatMap enqueued = evs := by
  rw [ofAnswer, List.flatMap_append, List.flatMap_map, List.flatMap_singleton]
  show evs.flatMap (fun _ ↦ []) ++ evs = evs
  rw [List.flatMap_eq_nil_iff.mpr fun _ _ ↦ rfl, List.nil_append]

theorem logged_ofSnapshots (snaps : List SnapshotEvent) :
    (ofSnapshots snaps).flatMap logged = snaps.map .snapshot := by
  rw [ofSnapshots, List.flatMap_assoc]
  exact List.flatMap_pure_eq_map _ _

theorem enqueued_ofSnapshots (snaps : List SnapshotEvent) :
    (ofSnapshots snaps).flatMap enqueued = snaps.map .snapshot := by
  rw [ofSnapshots, List.flatMap_assoc]
  exact List.flatMap_pure_eq_map _ _

end OutboundCall

/-- What T2 meets in a step: the fuel and the clock for `process`, the clock of the loop and of
the snapshots, and what a slot holds while it is written. -/
structure ExchangeInput where
  fuel : Nat
  now : Timestamp
  ts : Timestamp
  clock : Int
  stamps : Fin instrumentCount → Timestamp
  junkEvent : ExchangeEvent
  junkLine : String

/-- `class Gateway` with all its threads; `src/gateway/gateway.hpp:62–84`. `calls` are those that
T2 has still to make, `produced` records the events it has made them for. -/
structure ExchangeService (i o r : Fin 32) where
  core : Gateway i
  dispatcher : EventDispatcher o
  replay : ReplayLogger r
  calls : List OutboundCall
  nextSnapshot : Int
  produced : List ExchangeEvent

/-- A step of one of the threads. -/
inductive ServiceStep where
  | receiver (incoming : Option OrderMessage)
  | exchange (x : ExchangeInput)
  | publish
  | write
  | stop

namespace ExchangeService

variable {i o r : Fin 32}

/-- The service when `start` returns and the first snapshot is due at `first`;
`src/gateway/gateway.cpp:14–21`, `29–47`, `160–161`. -/
def started (i o r : Fin 32) (first : Int) : ExchangeService i o r where
  core := .started i
  dispatcher := .started o
  replay := .started r
  calls := []
  nextSnapshot := first
  produced := []

/-- T2 has answered a message. -/
def answer (out : List ExchangeEvent) (w : ExchangeService i o r) : ExchangeService i o r :=
  { w with calls := OutboundCall.ofAnswer out, produced := w.produced ++ out }

/-- T2 has found the inbound queue empty; `src/gateway/gateway.cpp:173–181`. -/
def snapshotIfDue (interval : Int) (x : ExchangeInput) (w : ExchangeService i o r) :
    Option (ExchangeService i o r) :=
  if x.clock ≥ w.nextSnapshot then
    (w.core.exchange.snapshotAll x.stamps).map fun snaps ↦
      { w with calls := OutboundCall.ofSnapshots snaps, nextSnapshot := x.clock + interval
               produced := w.produced ++ snaps.map .snapshot }
  else some w

/-- T2 ends. -/
def finish (dump : Json → String) (w : ExchangeService i o r) : Option (ExchangeService i o r) :=
  match w.dispatcher.step dump .finish, w.replay.step dump .finish with
  | some dispatcher, some replay => some { w with dispatcher := dispatcher, replay := replay }
  | _, _ => none

/-- One step of `exchange_loop` between two calls; `src/gateway/gateway.cpp:156–193`. -/
def advance (dump : Json → String) (interval : Int) (x : ExchangeInput)
    (w : ExchangeService i o r) : Option (ExchangeService i o r) :=
  match w.core.exchangeLoop x.fuel x.now x.ts with
  | none => none
  | some core =>
    match w.core.exchanger with
    | .testing | .exited => some { w with core := core }
    | .draining =>
      if core.exchanger = .testing then ({ w with core := core }).snapshotIfDue interval x
      else some { w with core := core }
    | .processing msg | .finishing msg =>
      match w.core.exchange.process x.fuel x.now x.ts msg with
      | .error _ => none
      | .ok (_, out) => some (({ w with core := core }).answer out)
    | .closing =>
      if core.exchanger = .exited then ({ w with core := core }).finish dump
      else some { w with core := core }

/-- One step of T2, which makes one call after the other. -/
def exchangeLoop (dump : Json → String) (interval : Int) (x : ExchangeInput)
    (w : ExchangeService i o r) : Option (ExchangeService i o r) :=
  if ¬w.replay.feed.feeder.Outside then
    (w.replay.step dump (.push x.junkLine)).map fun replay ↦ { w with replay := replay }
  else if ¬w.dispatcher.feed.feeder.Outside then
    (w.dispatcher.step dump (.push x.junkEvent)).map fun dispatcher ↦
      { w with dispatcher := dispatcher }
  else match w.calls with
    | .log ev :: calls =>
      (w.replay.step dump (.log ev)).map fun replay ↦ { w with replay := replay, calls := calls }
    | .enqueue evs :: calls =>
      (w.dispatcher.step dump (.enqueue evs)).map fun dispatcher ↦
        { w with dispatcher := dispatcher, calls := calls }
    | [] => w.advance dump interval x

/-- One step of `Gateway::stop`, which stops the dispatcher after its joins, and then the logger;
`src/gateway/gateway.cpp:56–66`. -/
def stop (dump : Json → String) (w : ExchangeService i o r) : Option (ExchangeService i o r) :=
  match w.core.stopper, w.dispatcher.publisher.stopper with
  | .returned, .returned =>
    (w.replay.step dump .stop).map fun replay ↦ { w with replay := replay }
  | .returned, _ =>
    (w.dispatcher.step dump .stop).map fun dispatcher ↦ { w with dispatcher := dispatcher }
  | _, _ => w.core.stop.map fun core ↦ { w with core := core }

/-- One step of the service. -/
def step (dump : Json → String) (interval : Int) (w : ExchangeService i o r) :
    ServiceStep → Option (ExchangeService i o r)
  | .receiver incoming => (w.core.receiverLoop incoming).map fun core ↦ { w with core := core }
  | .exchange x => w.exchangeLoop dump interval x
  | .publish => (w.dispatcher.step dump .publish).map fun dispatcher ↦
      { w with dispatcher := dispatcher }
  | .write => (w.replay.step dump .write).map fun replay ↦ { w with replay := replay }
  | .stop => w.stop dump

/-! ### What a step does -/

/-- The steps by their effect: T1, T2 or the caller of `stop` moves on and no message is
processed; T2 answers a message, takes snapshots or ends; or one of the outbound queues moves. -/
inductive Moves (dump : Json → String) (w : ExchangeService i o r) : ExchangeService i o r → Prop
  | core {a : GatewayStep} {core : Gateway i} : w.core.step a = some core →
      core.processed = w.core.processed → core.exchange = w.core.exchange →
      (core.exchanger = .exited ↔ w.core.exchanger = .exited) →
      (w.core.stopper = .returned → core.stopper = .returned) → Moves dump w { w with core := core }
  | answer {fuel : Nat} {now ts : Timestamp} {msg : OrderMessage} {core : Gateway i}
      {out : List ExchangeEvent} : w.calls = [] →
      w.core.step (.exchange fuel now ts) = some core → core.exchanger ≠ .exited →
      core.processed = w.core.processed ++ [msg] →
      w.core.exchange.process fuel now ts msg = .ok (core.exchange, out) →
      Moves dump w (({ w with core := core }).answer out)
  | snapshots {fuel : Nat} {now ts : Timestamp} {core : Gateway i} {snaps : List SnapshotEvent}
      {stamps : Fin instrumentCount → Timestamp} {next : Int} : w.calls = [] →
      w.core.step (.exchange fuel now ts) = some core → core.exchanger ≠ .exited →
      core.processed = w.core.processed → core.exchange = w.core.exchange →
      w.core.exchange.snapshotAll stamps = some snaps →
      Moves dump w
        { w with core := core, calls := OutboundCall.ofSnapshots snaps, nextSnapshot := next
                 produced := w.produced ++ snaps.map .snapshot }
  | finish {fuel : Nat} {now ts : Timestamp} {core : Gateway i} {dispatcher : EventDispatcher o}
      {replay : ReplayLogger r} : w.calls = [] →
      w.core.step (.exchange fuel now ts) = some core → core.exchanger = .exited →
      core.processed = w.core.processed → core.exchange = w.core.exchange →
      w.dispatcher.step dump .finish = some dispatcher → w.replay.step dump .finish = some replay →
      Moves dump w { w with core := core, dispatcher := dispatcher, replay := replay }
  | dispatcher {a : DispatcherStep} {dispatcher : EventDispatcher o} {calls : List OutboundCall} :
      w.dispatcher.step dump a = some dispatcher → a ≠ .finish →
      (a = .stop → w.core.stopper = .returned) → (w.calls = [] → calls = []) →
      w.calls.flatMap OutboundCall.enqueued =
        a.enqueued ++ calls.flatMap OutboundCall.enqueued →
      w.calls.flatMap OutboundCall.logged = calls.flatMap OutboundCall.logged →
      Moves dump w { w with dispatcher := dispatcher, calls := calls }
  | replay {a : LoggerStep} {replay : ReplayLogger r} {calls : List OutboundCall} :
      w.replay.step dump a = some replay → a ≠ .finish →
      (a = .stop → w.dispatcher.publisher.stopper = .returned) → (w.calls = [] → calls = []) →
      w.calls.flatMap OutboundCall.enqueued = calls.flatMap OutboundCall.enqueued →
      w.calls.flatMap OutboundCall.logged = a.logged ++ calls.flatMap OutboundCall.logged →
      Moves dump w { w with replay := replay, calls := calls }

variable {dump : Json → String} {interval first : Int} {w w' : ExchangeService i o r}
  {a : ServiceStep} {as : List ServiceStep}

private theorem advance_moves {x : ExchangeInput} (hcalls : w.calls = [])
    (h : w.advance dump interval x = some w') : w.Moves dump w' := by
  unfold advance at h
  split at h
  · exact absurd h (by simp)
  · next core hcore =>
    have hmove := Gateway.exchangeLoop_move hcore
    have hstopper := hmove.exchange_stopper
    have hstep : w.core.step (.exchange x.fuel x.now x.ts) = some core := hcore
    -- a step that is neither an answer, nor a snapshot, nor the end
    have hplain (hhand : w.core.exchanger.inHand = []) (hopen : core.exchanger ≠ .exited) :
        w.Moves dump { w with core := core } := by
      obtain ⟨hprocessed, hexchange⟩ := hmove.keeps hhand
      apply Moves.core hstep hprocessed hexchange
      · exact iff_of_false hopen (Gateway.not_exited_of_step hstep)
      · exact fun hr ↦ hstopper.trans hr
    have hanswer (msg : OrderMessage) (hhand : w.core.exchanger.inHand = [msg])
        (h : (match w.core.exchange.process x.fuel x.now x.ts msg with
          | .error _ => none
          | .ok (_, out) => some (({ w with core := core } : ExchangeService i o r).answer out)) =
            some w') : w.Moves dump w' := by
      split at h
      · exact absurd h (by simp)
      · next hprocess =>
        obtain rfl := Option.some.inj h
        obtain ⟨hprocessed, rfl, hleft⟩ := hmove.serves hhand hprocess
        exact .answer hcalls hstep hleft hprocessed hprocess
    split at h
    · next hpoint =>
      obtain rfl := Option.some.inj h
      apply hplain
      · rw [hpoint]
        rfl
      · intro hexited
        rw [Gateway.exchangeLoop_exited hcore hexited] at hpoint
        exact absurd hpoint (by decide)
    · next hpoint =>
      rw [Gateway.exchangeLoop, hpoint] at hcore
      exact absurd hcore (by simp)
    · next hpoint =>
      have hopen : core.exchanger ≠ .exited := by
        intro hexited
        rw [Gateway.exchangeLoop_exited hcore hexited] at hpoint
        exact absurd hpoint (by decide)
      split at h
      · unfold snapshotIfDue at h
        split at h
        · obtain ⟨snaps, hsnaps, rfl⟩ := Option.map_eq_some_iff.mp h
          obtain ⟨hprocessed, hexchange⟩ := hmove.keeps (by rw [hpoint]; rfl)
          apply Moves.snapshots hcalls hstep hopen
          · exact hprocessed
          · exact hexchange
          · rw [← hexchange]
            exact hsnaps
        · obtain rfl := Option.some.inj h
          exact hplain (by rw [hpoint]; rfl) hopen
      · obtain rfl := Option.some.inj h
        exact hplain (by rw [hpoint]; rfl) hopen
    · next hpoint => exact hanswer _ (by rw [hpoint]; rfl) h
    · next hpoint => exact hanswer _ (by rw [hpoint]; rfl) h
    · next hpoint =>
      split at h
      · next hexited =>
        unfold finish at h
        split at h
        · next hdispatcher hreplay =>
          obtain rfl := Option.some.inj h
          obtain ⟨hprocessed, hexchange⟩ := hmove.keeps (by rw [hpoint]; rfl)
          apply Moves.finish hcalls hstep hexited
          · exact hprocessed
          · exact hexchange
          · exact hdispatcher
          · exact hreplay
        · exact absurd h (by simp)
      · next hopen =>
        obtain rfl := Option.some.inj h
        exact hplain (by rw [hpoint]; rfl) hopen

private theorem exchangeLoop_moves {x : ExchangeInput}
    (h : w.exchangeLoop dump interval x = some w') : w.Moves dump w' := by
  unfold exchangeLoop at h
  split at h
  · obtain ⟨replay, hreplay, rfl⟩ := Option.map_eq_some_iff.mp h
    exact .replay hreplay (by simp) (fun he ↦ nomatch he) id rfl rfl
  · split at h
    · obtain ⟨dispatcher, hdispatcher, rfl⟩ := Option.map_eq_some_iff.mp h
      exact .dispatcher hdispatcher (by simp) (fun he ↦ nomatch he) id rfl rfl
    · split at h
      · next hcalls =>
        obtain ⟨replay, hreplay, rfl⟩ := Option.map_eq_some_iff.mp h
        apply Moves.replay hreplay
        · simp
        · exact fun he ↦ nomatch he
        · simp [hcalls]
        · rw [hcalls]
          rfl
        · rw [hcalls]
          rfl
      · next hcalls =>
        obtain ⟨dispatcher, hdispatcher, rfl⟩ := Option.map_eq_some_iff.mp h
        apply Moves.dispatcher hdispatcher
        · simp
        · exact fun he ↦ nomatch he
        · simp [hcalls]
        · rw [hcalls]
          rfl
        · rw [hcalls]
          rfl
      · next hcalls => exact advance_moves hcalls h

theorem stop_moves (h : w.stop dump = some w') : w.Moves dump w' := by
  unfold stop at h
  split at h
  · next hreturned =>
    obtain ⟨replay, hreplay, rfl⟩ := Option.map_eq_some_iff.mp h
    exact .replay hreplay (by simp) (fun _ ↦ hreturned) id rfl rfl
  · next hreturned _ =>
    obtain ⟨dispatcher, hdispatcher, rfl⟩ := Option.map_eq_some_iff.mp h
    exact .dispatcher hdispatcher (by simp) (fun _ ↦ hreturned) id rfl rfl
  · obtain ⟨core, hcore, rfl⟩ := Option.map_eq_some_iff.mp h
    obtain ⟨hexchanger, hprocessed, hexchange⟩ := (Gateway.stop_move hcore).stop_frame
    apply Moves.core (a := .stop) hcore hprocessed hexchange
    · rw [hexchanger]
    · intro hr
      rw [Gateway.stop, hr] at hcore
      exact absurd hcore (by simp)

theorem step_moves (h : w.step dump interval a = some w') : w.Moves dump w' := by
  cases a with
  | receiver incoming =>
    obtain ⟨core, hcore, rfl⟩ := Option.map_eq_some_iff.mp h
    obtain ⟨hstopper, hexchanger, hprocessed, hexchange⟩ :=
      (Gateway.receiverLoop_move hcore).stopper
    exact .core (a := .receiver incoming) hcore hprocessed hexchange
      (by rw [hexchanger]) fun hr ↦ hstopper.trans hr
  | exchange x => exact exchangeLoop_moves h
  | publish =>
    obtain ⟨dispatcher, hdispatcher, rfl⟩ := Option.map_eq_some_iff.mp h
    exact .dispatcher hdispatcher (by simp) (fun he ↦ nomatch he) id rfl rfl
  | write =>
    obtain ⟨replay, hreplay, rfl⟩ := Option.map_eq_some_iff.mp h
    exact .replay hreplay (by simp) (fun he ↦ nomatch he) id rfl rfl
  | stop => exact stop_moves h

end ExchangeService

end LobEngine
