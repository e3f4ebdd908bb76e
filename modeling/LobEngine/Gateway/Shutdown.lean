import LobEngine.Gateway.Session
import LobEngine.Lib.SpscRing

/-!
# The gateway shuts down

`src/gateway/gateway.hpp`, `src/gateway/gateway.cpp`: the receiver thread T1 fills the inbound
ring, the exchange thread T2 empties it, and the thread that calls `stop` lowers the flag both of
them read and joins T1, then T2. One step is one test of the flag, one receive, one push or pop of
the ring, one call of `process` or one join. What `Gateway::stop` does after the joins, the
snapshots and the queues of the other threads touch neither the flag nor the ring and are left
out.
-/

namespace LobEngine

/-- Where T1 is in `receiver_loop`; `src/gateway/gateway.cpp:116–142`. -/
inductive ReceiverPoint where
  | testing
  | receiving
  | holding (msg : OrderMessage)
  | exited
  deriving DecidableEq

/-- Where T2 is in `exchange_loop`, in its loop or in the final drain;
`src/gateway/gateway.cpp:156–193`. -/
inductive ExchangePoint where
  | testing
  | draining
  | processing (msg : OrderMessage)
  | closing
  | finishing (msg : OrderMessage)
  | exited
  deriving DecidableEq

/-- The message that T2 has taken from the ring and not yet processed. -/
def ExchangePoint.inHand : ExchangePoint → List OrderMessage
  | .processing msg | .finishing msg => [msg]
  | .testing | .draining | .closing | .exited => []

/-- Where the caller of `stop` is; `src/gateway/gateway.cpp:56–63`. -/
inductive StopPoint where
  | calling
  | joiningReceiver
  | joiningExchange
  | returned
  deriving DecidableEq

/-- `class Gateway` while its threads run, with an inbound queue of `2 ^ k` slots;
`src/gateway/gateway.hpp:62–84`. The last three fields record the messages for which
`inbound_push` returned true, those passed to `process`, and the answers. -/
structure Gateway (k : Fin 32) where
  running : Bool
  inbound : SpscRing OrderMessage k
  inboundDrops : UInt64
  exchange : ExchangeManager
  receiver : ReceiverPoint
  exchanger : ExchangePoint
  stopper : StopPoint
  accepted : List OrderMessage
  processed : List OrderMessage
  answers : List (List ExchangeEvent)

/-- A step of one thread, with what it meets: the message that `zmq_msg_recv` and
`deserialize_order` yield, if any, or the fuel and the clock for `process`. -/
inductive GatewayStep where
  | receiver (incoming : Option OrderMessage)
  | exchange (fuel : Nat) (now ts : Timestamp)
  | stop

namespace Gateway

variable {k : Fin 32}

/-- The gateway when `start` has started both threads; `src/gateway/gateway.cpp:31–54`. -/
def started (k : Fin 32) : Gateway k where
  running := true
  inbound := .init k {}
  inboundDrops := 0
  exchange := .init
  receiver := .testing
  exchanger := .testing
  stopper := .calling
  accepted := []
  processed := []
  answers := []

/-- One step of `receiver_loop`. -/
def receiverLoop (w : Gateway k) (incoming : Option OrderMessage) : Option (Gateway k) :=
  match w.receiver with
  | .testing => some { w with receiver := if w.running then .receiving else .exited }
  | .receiving =>
    match incoming with
    | none => some { w with receiver := .testing }
    | some msg =>
      some { w with receiver := if w.exchange.hasSymbol msg.symbol then .holding msg else .testing }
  | .holding msg =>
    match w.inbound.push msg with
    | none => some { w with receiver := .testing, inboundDrops := w.inboundDrops + 1 }
    | some inbound =>
      some { w with receiver := .testing, inbound := inbound, accepted := w.accepted ++ [msg] }
  | .exited => none

/-- `exchange_.process(msg)` on T2; a fault of the engine has no next state. -/
def process (w : Gateway k) (msg : OrderMessage) (fuel : Nat) (now ts : Timestamp) :
    Option (Gateway k) :=
  match w.exchange.process fuel now ts msg with
  | .error _ => none
  | .ok (exchange, out) =>
    some { w with exchange := exchange, processed := w.processed ++ [msg]
                  answers := w.answers ++ [out] }

/-- One step of `exchange_loop`. -/
def exchangeLoop (w : Gateway k) (fuel : Nat) (now ts : Timestamp) : Option (Gateway k) :=
  match w.exchanger with
  | .testing => some { w with exchanger := if w.running then .draining else .closing }
  | .draining =>
    match w.inbound.pop with
    | none => some { w with exchanger := .testing }
    | some (msg, inbound) => some { w with inbound := inbound, exchanger := .processing msg }
  | .processing msg => ({ w with exchanger := .draining } : Gateway k).process msg fuel now ts
  | .closing =>
    match w.inbound.pop with
    | none => some { w with exchanger := .exited }
    | some (msg, inbound) => some { w with inbound := inbound, exchanger := .finishing msg }
  | .finishing msg => ({ w with exchanger := .closing } : Gateway k).process msg fuel now ts
  | .exited => none

/-- One step of the thread that calls `stop`; a join waits for its thread. -/
def stop (w : Gateway k) : Option (Gateway k) :=
  match w.stopper with
  | .calling =>
    some { w with running := false, stopper := if w.running then .joiningReceiver else .returned }
  | .joiningReceiver =>
    if w.receiver = .exited then some { w with stopper := .joiningExchange } else none
  | .joiningExchange =>
    if w.exchanger = .exited then some { w with stopper := .returned } else none
  | .returned => none

/-- One step of the gateway. -/
def step (w : Gateway k) : GatewayStep → Option (Gateway k)
  | .receiver incoming => w.receiverLoop incoming
  | .exchange fuel now ts => w.exchangeLoop fuel now ts
  | .stop => w.stop

/-- Take the steps one after the other. -/
def run : List GatewayStep → Gateway k → Option (Gateway k)
  | [], w => some w
  | a :: as, w => (w.step a).bind (run as)

/-- Steps of the threads in any order, from the start of both threads, every step allowed by `Ok`
when it is taken. -/
inductive Schedule (Ok : Gateway k → GatewayStep → Prop) : List GatewayStep → Gateway k → Prop
  | nil : Schedule Ok [] (started k)
  | snoc {as : List GatewayStep} {a : GatewayStep} {w w' : Gateway k} :
      Schedule Ok as w → Ok w a → w.step a = some w' → Schedule Ok (as ++ [a]) w'

variable {w w' : Gateway k} {as : List GatewayStep} {a : GatewayStep}
  {Ok : Gateway k → GatewayStep → Prop}

/-- Steps that are taken extend a schedule. -/
theorem Schedule.run {bs : List GatewayStep} (h : Schedule (fun _ _ ↦ True) as w)
    (hr : w.run bs = some w') : Schedule (fun _ _ ↦ True) (as ++ bs) w' := by
  induction bs generalizing as w with
  | nil =>
    obtain rfl := Option.some.inj hr
    rwa [List.append_nil]
  | cons b bs ih =>
    obtain ⟨w₁, hb, hbs⟩ := Option.bind_eq_some_iff.mp hr
    have hrest := ih (h.snoc trivial hb) hbs
    rwa [List.append_assoc] at hrest

/-! ### What a step does -/

/-- The steps by their effect: T1 moves on or pushes the message it holds; T2 moves on, takes a
message, or processes the one it has; the caller of `stop` moves on. -/
inductive Move (w : Gateway k) : GatewayStep → Gateway k → Prop
  | receive {incoming : Option OrderMessage} (p : ReceiverPoint) (drops : UInt64) :
      Move w (.receiver incoming) { w with receiver := p, inboundDrops := drops }
  | accept {incoming : Option OrderMessage} {msg : OrderMessage}
      {inbound : SpscRing OrderMessage k} : w.receiver = .holding msg →
      w.inbound.push msg = some inbound →
      Move w (.receiver incoming)
        { w with receiver := .testing, inbound := inbound, accepted := w.accepted ++ [msg] }
  | idle {fuel : Nat} {now ts : Timestamp} {p : ExchangePoint} : w.exchanger ≠ .exited →
      w.exchanger.inHand = [] → p.inHand = [] → (p = .exited → w.inbound.contents = []) →
      Move w (.exchange fuel now ts) { w with exchanger := p }
  | take {fuel : Nat} {now ts : Timestamp} {p : ExchangePoint} {msg : OrderMessage}
      {inbound : SpscRing OrderMessage k} : w.exchanger ≠ .exited →
      w.exchanger.inHand = [] → p.inHand = [msg] → w.inbound.pop = some (msg, inbound) →
      Move w (.exchange fuel now ts) { w with inbound := inbound, exchanger := p }
  | serve {fuel : Nat} {now ts : Timestamp} {p : ExchangePoint} {msg : OrderMessage}
      {exchange : ExchangeManager} {out : List ExchangeEvent} : w.exchanger.inHand = [msg] →
      p.inHand = [] → p ≠ .exited → w.exchange.process fuel now ts msg = .ok (exchange, out) →
      Move w (.exchange fuel now ts)
        { w with exchanger := p, exchange := exchange, processed := w.processed ++ [msg]
                 answers := w.answers ++ [out] }
  | stop {running : Bool} {p : StopPoint} : p ≠ .calling →
      (p = .returned → w.exchanger = .exited ∨ w.stopper = .calling ∧ w.running = false) →
      Move w .stop { w with running := running, stopper := p }

theorem receiverLoop_move {incoming : Option OrderMessage}
    (h : w.receiverLoop incoming = some w') : Move w (.receiver incoming) w' := by
  unfold receiverLoop at h
  split at h
  · obtain rfl := Option.some.inj h
    exact .receive _ _
  · split at h
    · obtain rfl := Option.some.inj h
      exact .receive _ _
    · obtain rfl := Option.some.inj h
      exact .receive _ _
  · next hmsg =>
    split at h
    · obtain rfl := Option.some.inj h
      exact .receive _ _
    · next hpush =>
      obtain rfl := Option.some.inj h
      exact .accept hmsg hpush
  · exact absurd h (by simp)

/-- Popping is the same in the loop and in the final drain. -/
private theorem pop_move {fuel : Nat} {now ts : Timestamp} {p : ExchangePoint}
    {q : OrderMessage → ExchangePoint} (hleft : w.exchanger ≠ .exited)
    (hbefore : w.exchanger.inHand = []) (hp : p.inHand = []) (hq : ∀ msg, (q msg).inHand = [msg])
    (h : (match w.inbound.pop with
      | none => some { w with exchanger := p }
      | some (msg, inbound) => some { w with inbound := inbound, exchanger := q msg }) = some w') :
    Move w (.exchange fuel now ts) w' := by
  split at h
  · next hpop =>
    obtain rfl := Option.some.inj h
    exact .idle hleft hbefore hp fun _ ↦ SpscRing.pop_eq_none.mp hpop
  · next hpop =>
    obtain rfl := Option.some.inj h
    exact .take hleft hbefore (hq _) hpop

private theorem process_move {fuel : Nat} {now ts : Timestamp} {p : ExchangePoint}
    {msg : OrderMessage}
    (hbefore : w.exchanger.inHand = [msg]) (hp : p.inHand = []) (hleft : p ≠ .exited)
    (h : ({ w with exchanger := p } : Gateway k).process msg fuel now ts = some w') :
    Move w (.exchange fuel now ts) w' := by
  unfold process at h
  split at h
  · exact absurd h (by simp)
  · next hprocess =>
    obtain rfl := Option.some.inj h
    exact .serve hbefore hp hleft hprocess

theorem exchangeLoop_move {fuel : Nat} {now ts : Timestamp}
    (h : w.exchangeLoop fuel now ts = some w') : Move w (.exchange fuel now ts) w' := by
  unfold exchangeLoop at h
  split at h
  · next hpoint =>
    obtain rfl := Option.some.inj h
    apply Move.idle
    · simp [hpoint]
    · simp [hpoint, ExchangePoint.inHand]
    · cases w.running <;> rfl
    · cases w.running <;> simp
  · next hpoint =>
    exact pop_move (by simp [hpoint]) (by rw [hpoint]; rfl) rfl (fun _ ↦ rfl) h
  · next hpoint => exact process_move (by rw [hpoint]; rfl) rfl (by decide) h
  · next hpoint =>
    exact pop_move (by simp [hpoint]) (by rw [hpoint]; rfl) rfl (fun _ ↦ rfl) h
  · next hpoint => exact process_move (by rw [hpoint]; rfl) rfl (by decide) h
  · exact absurd h (by simp)

/-- T2 takes no step after its end. -/
theorem not_exited_of_step {fuel : Nat} {now ts : Timestamp}
    (h : w.step (.exchange fuel now ts) = some w') : w.exchanger ≠ .exited := by
  intro hexited
  rw [step, exchangeLoop, hexited] at h
  exact absurd h (by simp)

/-- T2 ends in the final drain. -/
theorem exchangeLoop_exited {fuel : Nat} {now ts : Timestamp}
    (h : w.exchangeLoop fuel now ts = some w') (hexited : w'.exchanger = .exited) :
    w.exchanger = .closing := by
  have hserve {p : ExchangePoint} {msg : OrderMessage} (hp : p ≠ .exited)
      (h : ({ w with exchanger := p } : Gateway k).process msg fuel now ts = some w') : False := by
    unfold process at h
    split at h
    · exact absurd h (by simp)
    · obtain rfl := Option.some.inj h
      exact hp hexited
  unfold exchangeLoop at h
  split at h
  · obtain rfl := Option.some.inj h
    simp only at hexited
    split at hexited
    · exact absurd hexited (by decide)
    · exact absurd hexited (by decide)
  · split at h
    · obtain rfl := Option.some.inj h
      exact absurd hexited (by simp)
    · obtain rfl := Option.some.inj h
      exact absurd hexited (by simp)
  · exact (hserve (by decide) h).elim
  · next hpoint => exact hpoint
  · exact (hserve (by decide) h).elim
  · exact absurd h (by simp)

theorem stop_move (h : w.stop = some w') : Move w .stop w' := by
  unfold stop at h
  split at h
  · next hpoint =>
    obtain rfl := Option.some.inj h
    apply Move.stop
    · cases w.running <;> decide
    · cases w.running with
      | false => exact fun _ ↦ .inr ⟨hpoint, rfl⟩
      | true => exact fun hr ↦ absurd hr (by decide)
  · split at h
    · obtain rfl := Option.some.inj h
      exact .stop (by decide) fun hr ↦ absurd hr (by decide)
    · exact absurd h (by simp)
  · split at h
    · next hexited =>
      obtain rfl := Option.some.inj h
      exact .stop (by decide) fun _ ↦ .inl hexited
    · exact absurd h (by simp)
  · exact absurd h (by simp)

theorem step_move (h : w.step a = some w') : Move w a w' := by
  cases a with
  | receiver incoming => exact receiverLoop_move h
  | exchange fuel now ts => exact exchangeLoop_move h
  | stop => exact stop_move h

/-- A step of T2 with nothing in its hand leaves the engines alone. -/
theorem Move.keeps {fuel : Nat} {now ts : Timestamp} (hm : Move w (.exchange fuel now ts) w')
    (hhand : w.exchanger.inHand = []) :
    w'.processed = w.processed ∧ w'.exchange = w.exchange := by
  cases hm with
  | idle | take => exact ⟨rfl, rfl⟩
  | serve hbefore =>
    rw [hhand] at hbefore
    exact absurd hbefore (by simp)

/-- A step of T2 with a message in its hand processes it. -/
theorem Move.serves {fuel : Nat} {now ts : Timestamp} {msg : OrderMessage} {m : ExchangeManager}
    {out : List ExchangeEvent} (hm : Move w (.exchange fuel now ts) w')
    (hhand : w.exchanger.inHand = [msg]) (hp : w.exchange.process fuel now ts msg = .ok (m, out)) :
    w'.processed = w.processed ++ [msg] ∧ w'.exchange = m ∧ w'.exchanger ≠ .exited := by
  cases hm with
  | idle _ hbefore | take _ hbefore =>
    rw [hbefore] at hhand
    exact absurd hhand (by simp)
  | serve hbefore _ hleft hprocess =>
    obtain ⟨rfl⟩ := List.cons.inj (hbefore.symm.trans hhand)
    obtain ⟨rfl, -⟩ := Prod.mk.inj (Except.ok.inj (hp.symm.trans hprocess))
    exact ⟨rfl, rfl, hleft⟩

/-- The threads leave the caller of `stop` where it is. -/
theorem Move.stopper {incoming : Option OrderMessage} (hm : Move w (.receiver incoming) w') :
    w'.stopper = w.stopper ∧ w'.exchanger = w.exchanger ∧ w'.processed = w.processed ∧
      w'.exchange = w.exchange := by
  cases hm with
  | receive | accept => exact ⟨rfl, rfl, rfl, rfl⟩

theorem Move.exchange_stopper {fuel : Nat} {now ts : Timestamp}
    (hm : Move w (.exchange fuel now ts) w') : w'.stopper = w.stopper := by
  cases hm with
  | idle | take | serve => rfl

/-- T2 leaves T1 and the flag alone. -/
theorem Move.exchange_frame {fuel : Nat} {now ts : Timestamp}
    (hm : Move w (.exchange fuel now ts) w') : w'.running = w.running ∧
      w'.receiver = w.receiver ∧ w'.accepted = w.accepted := by
  cases hm with
  | idle | take | serve => exact ⟨rfl, rfl, rfl⟩

theorem Move.stop_frame (hm : Move w .stop w') : w'.exchanger = w.exchanger ∧
    w'.processed = w.processed ∧ w'.exchange = w.exchange := by
  cases hm with
  | stop => exact ⟨rfl, rfl, rfl⟩

/-! ### Who passes on which message -/

/-- The invariant: no accepted message is lost, doubled or overtaken before T2 has it; `stop` is
called once, and returns when T2 has left its loop. -/
structure Consistent (w : Gateway k) : Prop where
  order : w.accepted = w.processed ++ w.exchanger.inHand ++ w.inbound.contents
  calling : w.stopper = .calling → w.running = true
  returned : w.stopper = .returned → w.exchanger = .exited

theorem consistent_started (k : Fin 32) : Consistent (started k) where
  order := rfl
  calling _ := rfl
  returned h := StopPoint.noConfusion h

theorem Consistent.move (h : Consistent w) (hm : Move w a w') : Consistent w' := by
  have horder := h.order
  cases hm with
  | receive p drops => exact ⟨h.order, h.calling, h.returned⟩
  | @accept _ msg inbound _ hpush =>
    constructor
    · show w.accepted ++ [msg] = w.processed ++ w.exchanger.inHand ++ inbound.contents
      rw [SpscRing.contents_push hpush, ← List.append_assoc, ← horder]
    · exact h.calling
    · exact h.returned
  | idle hleft hbefore hafter =>
    constructor
    · rw [hbefore] at horder
      simpa only [hafter] using horder
    · exact h.calling
    · exact fun hr ↦ absurd (h.returned hr) hleft
  | take hleft hbefore hafter hpop =>
    constructor
    · rw [hbefore, SpscRing.contents_pop hpop, List.append_nil, List.append_cons] at horder
      simpa only [hafter] using horder
    · exact h.calling
    · exact fun hr ↦ absurd (h.returned hr) hleft
  | serve hbefore hafter _ _ =>
    constructor
    · rw [hbefore] at horder
      simpa only [hafter, List.append_nil] using horder
    · exact h.calling
    · intro hr
      rw [h.returned hr] at hbefore
      exact absurd hbefore (by simp [ExchangePoint.inHand])
  | stop hp hreturned =>
    constructor
    · exact horder
    · exact fun hc ↦ absurd hc hp
    · intro hr
      rcases hreturned hr with hexited | ⟨hc, hfalse⟩
      · exact hexited
      · rw [h.calling hc] at hfalse
        exact absurd hfalse (by decide)

theorem Schedule.consistent (h : Schedule Ok as w) : Consistent w := by
  induction h with
  | nil => exact consistent_started k
  | snoc _ _ hs ih => exact ih.move (step_move hs)

/-- In every schedule the inbound ring is a bounded queue, as it is when the loads and stores of
its two threads are steps of their own. -/
theorem Schedule.inbound_run (h : Schedule Ok as w) :
    ∃ ops, BoundedQueue.Run (2 ^ k.val - 1) ops w.inbound.contents ∧
      BoundedQueue.accepted ops = w.accepted := by
  induction h with
  | nil => exact ⟨[], .nil, rfl⟩
  | snoc _ _ hs ih =>
    obtain ⟨ops, hrun, hacc⟩ := ih
    cases step_move hs with
    | receive | idle | serve | stop => exact ⟨ops, hrun, hacc⟩
    | accept _ hpush =>
      refine ⟨_, SpscRing.run_push hrun hpush, ?_⟩
      rw [BoundedQueue.accepted_concat, hacc]
      rfl
    | take _ _ _ hpop =>
      refine ⟨_, SpscRing.run_pop hrun hpop, ?_⟩
      rw [BoundedQueue.accepted_concat, hacc]
      exact List.append_nil _

/-- The processed messages are a session of the exchange manager. -/
theorem Schedule.session (h : Schedule Ok as w) :
    Session (fun _ _ ↦ True) w.processed w.exchange w.answers := by
  induction h with
  | nil => exact .nil
  | snoc _ _ hs ih =>
    cases step_move hs with
    | serve _ _ _ hprocess => exact ih.snoc trivial hprocess
    | receive | accept | idle | take | stop => exact ih

/-! ### Messages that come too late -/

/-- The ring takes no message once T2 has left its loop. -/
def InTime (w : Gateway k) : GatewayStep → Prop
  | .receiver _ => ∀ msg, w.receiver = .holding msg → w.exchanger = .exited →
      w.inbound.used + 1 = 2 ^ k.val
  | .exchange .. | .stop => True

/-- When T2 has left its loop, nothing is in the ring. -/
def Drained (w : Gateway k) : Prop := w.exchanger = .exited → w.inbound.contents = []

/-- T2 has left its loop, and something is in the ring. -/
def Stranded (w : Gateway k) : Prop := w.exchanger = .exited ∧ w.inbound.contents ≠ []

theorem Drained.move (h : Drained w) (hin : InTime w a) (hm : Move w a w') : Drained w' := by
  cases hm with
  | receive | stop => exact h
  | accept hmsg hpush =>
    intro he
    rw [SpscRing.push_eq_none.mpr (hin _ hmsg he)] at hpush
    exact absurd hpush (by simp)
  | idle _ _ _ hempty => exact hempty
  | @take _ _ _ p _ _ _ _ hafter _ =>
    intro he
    obtain rfl : p = .exited := he
    exact absurd hafter (by simp [ExchangePoint.inHand])
  | serve _ _ hleft _ => exact fun he ↦ absurd he hleft

/-- A message that comes too late stays in the ring. -/
theorem Stranded.move (h : Stranded w) (hm : Move w a w') : Stranded w' := by
  obtain ⟨hexited, hfull⟩ := h
  cases hm with
  | receive | stop => exact ⟨hexited, hfull⟩
  | accept _ hpush =>
    constructor
    · exact hexited
    · rw [SpscRing.contents_push hpush]
      simp
  | idle hleft => exact absurd hexited hleft
  | take hleft => exact absurd hexited hleft
  | serve hbefore =>
    rw [hexited] at hbefore
    exact absurd hbefore (by simp [ExchangePoint.inHand])

/-- A step that is not in time pushes a message that nobody takes. -/
private theorem stranded_of_not_inTime (hin : ¬InTime w a) (hs : w.step a = some w') :
    Stranded w' := by
  cases a with
  | receiver incoming =>
    simp only [InTime, not_forall] at hin
    obtain ⟨msg, hmsg, hexited, hroom⟩ := hin
    change w.receiverLoop incoming = some w' at hs
    unfold receiverLoop at hs
    rw [hmsg] at hs
    simp only at hs
    split at hs
    · next hpush => exact absurd (SpscRing.push_eq_none.mp hpush) hroom
    · next hpush =>
      obtain rfl := Option.some.inj hs
      constructor
      · exact hexited
      · rw [SpscRing.contents_push hpush]
        simp
  | exchange fuel now ts => exact absurd trivial hin
  | stop => exact absurd trivial hin

theorem Schedule.drained (h : Schedule InTime as w) : Drained w := by
  induction h with
  | nil => exact fun _ ↦ rfl
  | snoc _ hin hs ih => exact ih.move hin (step_move hs)

/-- Every schedule is in time, or has stranded a message. -/
private theorem Schedule.inTime_or_stranded (h : Schedule (fun _ _ ↦ True) as w) :
    Schedule InTime as w ∨ Stranded w := by
  induction h with
  | nil => exact .inl .nil
  | @snoc as a w w' _ _ hs ih =>
    rcases ih with hin | hstranded
    · by_cases ha : InTime w a
      · exact .inl (hin.snoc ha hs)
      · exact .inr (stranded_of_not_inTime ha hs)
    · exact .inr (hstranded.move (step_move hs))

/-- When `stop` returns, every accepted message has been processed and the ring is empty, exactly
when the ring took no message after T2 had left its loop. -/
theorem shutdown_drains_iff (h : Schedule (fun _ _ ↦ True) as w) (hr : w.stopper = .returned) :
    (w.processed = w.accepted ∧ w.inbound.contents = []) ↔ Schedule InTime as w := by
  have hc := h.consistent
  have hexited := hc.returned hr
  constructor
  · rintro ⟨_, hempty⟩
    rcases h.inTime_or_stranded with hin | hstranded
    · exact hin
    · exact absurd hempty hstranded.2
  · intro hin
    have hempty := hin.drained hexited
    have horder := hc.order
    rw [hexited, hempty] at horder
    simp only [ExchangePoint.inHand, List.append_nil] at horder
    exact ⟨horder.symm, hempty⟩

/-- An order that comes before `stop`, is taken from the ring in the loop and processed. -/
private def timelySteps : List GatewayStep :=
  [.exchange 50 0 0, .receiver none,
    .receiver (some { orderId := 1, symbol := "STOCK_1", quantity := 5, price := 100 }),
    .receiver none, .exchange 50 0 0, .stop, .exchange 50 7 7, .exchange 50 0 0, .receiver none,
    .exchange 50 0 0, .exchange 50 0 0, .stop, .stop]

theorem shutdown_drains_timely : ∃ w : Gateway 2, w.accepted.length = 1 ∧
    Schedule (fun _ _ ↦ True) timelySteps w ∧ w.stopper = .returned ∧
    Schedule InTime timelySteps w := by
  obtain ⟨w, hrun, hone, hreturned, hprocessed, hempty⟩ : ∃ w ∈ run timelySteps (started 2),
      w.accepted.length = 1 ∧ w.stopper = .returned ∧ w.processed = w.accepted ∧
      w.inbound.contents = [] := by decide +kernel
  have h := Schedule.nil.run hrun
  exact ⟨w, hone, h, hreturned, (shutdown_drains_iff h hreturned).mp ⟨hprocessed, hempty⟩⟩

/-- An order that T1 has received when `stop` lowers the flag, and pushes when T2 has gone. -/
private def lateSteps : List GatewayStep :=
  [.receiver none,
    .receiver (some { orderId := 1, symbol := "STOCK_1", quantity := 5, price := 100 }),
    .stop, .exchange 50 0 0, .exchange 50 0 0, .receiver none, .receiver none, .stop, .stop]

/-- An order is accepted and never processed. -/
theorem shutdown_strands : ¬∀ (k : Fin 32) (as : List GatewayStep) (w : Gateway k),
    Schedule (fun _ _ ↦ True) as w → w.stopper = .returned →
      w.processed = w.accepted ∧ w.inbound.contents = [] := by
  intro hall
  obtain ⟨w, hrun, hreturned, hfull⟩ : ∃ w ∈ run lateSteps (started 2),
      w.stopper = .returned ∧ w.inbound.contents ≠ [] := by decide +kernel
  exact hfull (hall 2 lateSteps w (Schedule.nil.run hrun) hreturned).2

end Gateway

end LobEngine
