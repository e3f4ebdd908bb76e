import LobEngine.Gateway.Serializer
import LobEngine.Gateway.Worker
import LobEngine.Lib.Interleaving
import LobEngine.Lib.RingFeed

/-!
# The event dispatcher

`src/gateway/event_dispatcher.hpp`, `src/gateway/event_dispatcher.cpp`: the exchange thread
enqueues events, the publisher thread sends them, and a third thread calls `stop`. One step is one
load or store of a shared variable, one access to a slot, one call of `zmq_send` or one join. The
sockets that `start` opens and `stop` closes are left out.
-/

namespace LobEngine

open RingProtocol Interleaving

/-- `class EventDispatcher` with its three threads, for a queue of `2 ^ k` slots;
`src/gateway/event_dispatcher.hpp:49–60`. `sent` records the messages handed to `zmq_send`. -/
structure EventDispatcher (k : Fin 32) where
  feed : Feed ExchangeEvent k
  publisher : Worker String
  sent : List String

/-- A step of one of the threads. The exchange thread calls `enqueue` with one event or with
several, or ends. -/
inductive DispatcherStep where
  | enqueue (evs : List ExchangeEvent)
  | push (junk : ExchangeEvent)
  | finish
  | publish
  | stop

/-- The events that a step gives to `enqueue`. -/
def DispatcherStep.enqueued : DispatcherStep → List ExchangeEvent
  | .enqueue evs => evs
  | .push _ | .finish | .publish | .stop => []

namespace EventDispatcher

variable {k : Fin 32}

/-- The dispatcher when `start` returns; `src/gateway/event_dispatcher.cpp:11–16`, `24–36`. -/
def started (k : Fin 32) : EventDispatcher k where
  feed := .init k (.orderAccepted {})
  publisher := .started
  sent := []

/-- A call of `enqueue`, which pushes the events one by one;
`src/gateway/event_dispatcher.cpp:59–73`. -/
def enqueue (evs : List ExchangeEvent) (w : EventDispatcher k) : Option (EventDispatcher k) :=
  (w.feed.call evs).map fun feed ↦ { w with feed := feed }

/-- One step of `publisher_loop`; `src/gateway/event_dispatcher.cpp:79–107`. -/
def publisherLoop (dump : Json → String) (w : EventDispatcher k) : Option (EventDispatcher k) :=
  match w.publisher.point with
  | .testing =>
    some { w with publisher := w.publisher.goto (.draining (!w.publisher.running)) }
  | .draining last =>
    match w.feed.pop (.readFirst id) with
    | (feed, .pending) => some { w with feed := feed }
    | (feed, .empty) =>
      some { w with feed := feed
                    publisher := w.publisher.goto (if last then .exited else .testing) }
    | (feed, .item ev) =>
      some { w with feed := feed
                    publisher := w.publisher.goto (.emitting (serializeEvent dump ev) last) }
  | .emitting msg last =>
    some { w with sent := if msg.isEmpty then w.sent else w.sent ++ [msg]
                  publisher := w.publisher.goto (if last then .draining true else .testing) }
  | .exited => none

/-- One step of the dispatcher. -/
def step (dump : Json → String) (w : EventDispatcher k) :
    DispatcherStep → Option (EventDispatcher k)
  | .enqueue evs => w.enqueue evs
  | .push junk => (w.feed.push junk).map fun feed ↦ { w with feed := feed }
  | .finish => w.feed.finish.map fun feed ↦ { w with feed := feed }
  | .publish => w.publisherLoop dump
  | .stop => w.publisher.stop.map fun publisher ↦ { w with publisher := publisher }

/-- The steps of the publisher, one constructor for each. -/
inductive Publishes (dump : Json → String) (w : EventDispatcher k) : EventDispatcher k → Prop
  | test : w.publisher.point = .testing →
      Publishes dump w
        { w with publisher := w.publisher.goto (.draining (!w.publisher.running)) }
  | pending {last : Bool} {ring : Ring ExchangeEvent k} : w.publisher.point = .draining last →
      w.feed.ring.Pops (.readFirst id) ring .pending →
      Publishes dump w { w with feed := { w.feed with ring := ring } }
  | empty {last : Bool} {ring : Ring ExchangeEvent k} : w.publisher.point = .draining last →
      w.feed.ring.Pops (.readFirst id) ring .empty →
      Publishes dump w
        { w with feed := { w.feed with ring := ring }
                 publisher := w.publisher.goto (if last then .exited else .testing) }
  | item {last : Bool} {ring : Ring ExchangeEvent k} {ev : ExchangeEvent} :
      w.publisher.point = .draining last → w.feed.ring.Pops (.readFirst id) ring (.item ev) →
      Publishes dump w
        { w with feed := { w.feed with ring := ring }
                 publisher := w.publisher.goto (.emitting (serializeEvent dump ev) last) }
  | send {msg : String} {last : Bool} : w.publisher.point = .emitting msg last →
      Publishes dump w
        { w with sent := if msg.isEmpty then w.sent else w.sent ++ [msg]
                 publisher := w.publisher.goto (if last then .draining true else .testing) }

/-- The steps by their effect: the exchange thread moves on, with the events that it gives to
`enqueue`, or the publisher or the caller of `stop` does. -/
inductive Moves (dump : Json → String) (w : EventDispatcher k) :
    List ExchangeEvent → EventDispatcher k → Prop
  | feed {feed : Feed ExchangeEvent k} {evs : List ExchangeEvent} : w.feed.Moves feed →
      feed.offered = w.feed.offered ++ evs → Moves dump w evs { w with feed := feed }
  | publish {w' : EventDispatcher k} : w.Publishes dump w' → Moves dump w [] w'
  | stop {publisher : Worker String} : w.publisher.stop = some publisher →
      Moves dump w [] { w with publisher := publisher }

variable {dump : Json → String} {w w' : EventDispatcher k} {a : DispatcherStep}
  {as bs : List DispatcherStep}

theorem publisherLoop_publishes (h : w.publisherLoop dump = some w') : w.Publishes dump w' := by
  unfold publisherLoop at h
  split at h
  · next hpoint =>
    obtain rfl := Option.some.inj h
    exact .test hpoint
  · next hpoint =>
    have hpop := Ring.pop_step (.readFirst id) w.feed.ring
    simp only [Feed.pop] at h
    generalize w.feed.ring.pop (.readFirst id) = out at h hpop
    obtain ⟨ring, a⟩ := out
    cases a with
    | pending =>
      obtain rfl := Option.some.inj h
      exact .pending hpoint hpop
    | empty =>
      obtain rfl := Option.some.inj h
      exact .empty hpoint hpop
    | item ev =>
      obtain rfl := Option.some.inj h
      exact .item hpoint hpop
  · next hpoint =>
    obtain rfl := Option.some.inj h
    exact .send hpoint
  · exact absurd h (by simp)

theorem step_moves (h : w.step dump a = some w') : w.Moves dump a.enqueued w' := by
  cases a with
  | enqueue evs =>
    obtain ⟨feed, hfeed, rfl⟩ := Option.map_eq_some_iff.mp h
    exact .feed (Feed.call_moves hfeed) (Feed.call_offered hfeed)
  | push junk =>
    obtain ⟨feed, hfeed, rfl⟩ := Option.map_eq_some_iff.mp h
    apply Moves.feed (Feed.push_moves hfeed)
    exact (Feed.push_offered hfeed).trans (List.append_nil _).symm
  | finish =>
    obtain ⟨feed, hfeed, rfl⟩ := Option.map_eq_some_iff.mp h
    apply Moves.feed (Feed.finish_moves hfeed)
    exact (Feed.finish_offered hfeed).trans (List.append_nil _).symm
  | publish => exact .publish (publisherLoop_publishes h)
  | stop =>
    obtain ⟨publisher, hstop, rfl⟩ := Option.map_eq_some_iff.mp h
    exact .stop hstop

/-- What a step adds to the offered events. -/
theorem step_offered (h : w.step dump a = some w') :
    w'.feed.offered = w.feed.offered ++ a.enqueued := by
  have hmoves := step_moves h
  generalize a.enqueued = evs at hmoves
  cases hmoves with
  | feed _ hoffered => exact hoffered
  | publish hp =>
    cases hp with
    | test | pending | empty | item | send => exact (List.append_nil _).symm
  | stop => exact (List.append_nil _).symm

/-- Only the caller of `stop` moves on in `stop`. -/
theorem step_stopper (h : w.step dump a = some w') (hne : a ≠ .stop) :
    w'.publisher.stopper = w.publisher.stopper := by
  cases a with
  | enqueue | push | finish =>
    obtain ⟨feed, -, rfl⟩ := Option.map_eq_some_iff.mp h
    rfl
  | publish =>
    cases publisherLoop_publishes h with
    | test | pending | empty | item | send => rfl
  | stop => exact absurd rfl hne

/-- When `stop` has returned it takes no more steps. -/
theorem step_returned (h : w.step dump a = some w') (hr : w.publisher.stopper = .returned) :
    w'.publisher.stopper = .returned := by
  by_cases ha : a = .stop
  · subst ha
    obtain ⟨publisher, hstop, rfl⟩ := Option.map_eq_some_iff.mp h
    rw [Worker.stop, hr] at hstop
    exact absurd hstop (by simp)
  · exact (step_stopper h ha).trans hr

/-- Only the end of the exchange thread ends its feed. -/
theorem step_open (h : w.step dump a = some w') (hne : a ≠ .finish)
    (ho : w.feed.feeder ≠ .finished) : w'.feed.feeder ≠ .finished := by
  cases a with
  | enqueue evs =>
    obtain ⟨feed, hcall, rfl⟩ := Option.map_eq_some_iff.mp h
    exact Feed.call_open hcall
  | push junk =>
    obtain ⟨feed, hpush, rfl⟩ := Option.map_eq_some_iff.mp h
    exact Feed.push_open hpush
  | finish => exact absurd rfl hne
  | publish =>
    cases publisherLoop_publishes h with
    | test | pending | empty | item | send => exact ho
  | stop =>
    obtain ⟨publisher, -, rfl⟩ := Option.map_eq_some_iff.mp h
    exact ho

/-! ### What the publisher sends -/

/-- The invariant: what was taken from the queue has been sent, in order, or is in the hand of the
publisher. -/
structure Sound (dump : Json → String) (w : EventDispatcher k) : Prop where
  feed : w.feed.Sound
  publisher : w.publisher.Sound
  sent : w.feed.ring.delivered.map (serializeEvent dump) = w.sent ++ w.publisher.point.inHand

theorem sound_started (dump : Json → String) (k : Fin 32) : Sound dump (started k) where
  feed := .init k _
  publisher := .started
  sent := rfl

/-- What a step of a pop hands out is all that the publisher has not sent. -/
theorem Sound.popped {last : Bool} {ring : Ring ExchangeEvent k} {d : Discipline ExchangeEvent}
    {r : Result ExchangeEvent} (h : Sound dump w) (hpoint : w.publisher.point = .draining last)
    (hpop : w.feed.ring.Pops d ring r) :
    ring.delivered.map (serializeEvent dump) = w.sent ++ r.items.map (serializeEvent dump) := by
  obtain ⟨q, hq⟩ := h.feed.holds
  have hsent := h.sent
  rw [hpoint] at hsent
  rw [hq.pop_delivered hpop, List.map_append, hsent]
  exact congrArg (· ++ _) (List.append_nil _)

/-- The message in the hand of the publisher was made from an event. -/
theorem Sound.emitting {msg : String} {last : Bool} (h : Sound dump w)
    (hpoint : w.publisher.point = .emitting msg last) : msg.isEmpty = false := by
  have hsent := h.sent
  rw [hpoint] at hsent
  have hmem : msg ∈ w.feed.ring.delivered.map (serializeEvent dump) := by
    rw [hsent]
    exact List.mem_append_right _ List.mem_cons_self
  obtain ⟨ev, -, rfl⟩ := List.mem_map.mp hmem
  exact serializeEvent_isEmpty dump ev

/-- A step of the publisher. -/
theorem Sound.publish (h : Sound dump w) (hm : w.Publishes dump w') : Sound dump w' := by
  have hsent := h.sent
  cases hm with
  | test hpoint =>
    rw [hpoint] at hsent
    constructor
    · exact h.feed
    · exact h.publisher.test hpoint
    · exact hsent
  | pending hpoint hpop =>
    have hpopped := h.popped hpoint hpop
    constructor
    · exact h.feed.pop hpop
    · exact h.publisher
    · simp only [hpoint]
      exact hpopped
  | @empty last ring hpoint hpop =>
    have hpopped := h.popped hpoint hpop
    constructor
    · exact h.feed.pop hpop
    · exact h.publisher.drained hpoint
    · cases last with
      | true | false => exact hpopped
  | item hpoint hpop =>
    have hpopped := h.popped hpoint hpop
    constructor
    · exact h.feed.pop hpop
    · apply h.publisher.advance
      · simp [hpoint]
      · rw [hpoint]
        exact id
    · exact hpopped
  | @send msg last hpoint =>
    have hmsg := h.emitting hpoint
    rw [hpoint] at hsent
    constructor
    · exact h.feed
    · apply h.publisher.advance
      · simp [hpoint]
      · rw [hpoint]
        cases last with
        | true => exact id
        | false => exact fun hlast ↦ hlast.elim
    · simp only [hmsg]
      rw [hsent]
      cases last with
      | true | false => exact (List.append_nil _).symm

theorem Sound.move {evs : List ExchangeEvent} (h : Sound dump w) (hm : w.Moves dump evs w') :
    Sound dump w' := by
  have hsent := h.sent
  cases hm with
  | publish hp => exact h.publish hp
  | feed hfeed =>
    constructor
    · exact h.feed.move hfeed
    · exact h.publisher
    · show List.map _ (Ring.delivered _) = _
      rw [hfeed.delivered]
      exact hsent
  | stop hstop =>
    obtain ⟨hsound, hpoint⟩ := h.publisher.stop hstop
    constructor
    · exact h.feed
    · exact hsound
    · show _ = w.sent ++ WorkerPoint.inHand _
      rw [hpoint]
      exact hsent

theorem path_sound (h : Path (step dump) (started k) as w) : Sound dump w :=
  h.preserves (fun _ _ _ ht hs ↦ ht.move (step_moves hs)) (sound_started dump k)

/-- What is sent was offered, in order. -/
theorem Sound.sent_sublist (h : Sound dump w) :
    w.sent.Sublist (w.feed.offered.map (serializeEvent dump)) := by
  obtain ⟨q, hq⟩ := h.feed.holds
  have hdelivered := hq.delivered_prefix.sublist.trans h.feed.accepted_sublist
  apply List.Sublist.trans _ (hdelivered.map _)
  rw [h.sent]
  exact List.sublist_append_left _ _

/-- The publisher waits for no one: it can take a step until it ends. -/
theorem publisherLoop_isSome (hne : w.publisher.point ≠ .exited) :
    (w.publisherLoop dump).isSome := by
  unfold publisherLoop
  cases hpoint : w.publisher.point with
  | testing | emitting => rfl
  | draining last =>
    simp only
    split
    · rfl
    · rfl
    · rfl
  | exited => exact absurd hpoint hne

/-- The events offered to the queue are those given to `enqueue`. -/
theorem path_offered (h : Path (step dump) (started k) as w) :
    w.feed.offered = as.flatMap DispatcherStep.enqueued := by
  induction h with
  | nil => rfl
  | snoc _ hs ih =>
    rw [List.flatMap_append, List.flatMap_singleton, ← ih]
    have hmoves := step_moves hs
    generalize DispatcherStep.enqueued _ = evs at hmoves ⊢
    cases hmoves with
    | feed _ hoffered => exact hoffered
    | publish hp =>
      cases hp with
      | test | pending | empty | item | send => exact (List.append_nil _).symm
    | stop => exact (List.append_nil _).symm

/-- The exchange thread is gone, and if the publisher is too, it has taken everything. -/
def Settled (w : EventDispatcher k) : Prop :=
  w.feed.feeder = .finished ∧
    (w.publisher.point = .exited → w.feed.ring.delivered = w.feed.ring.accepted)

/-- The exchange thread ends before `stop` is called. -/
theorem Sound.settled (h : Sound dump w) (hc : w.publisher.stopper = .calling)
    (hs : w.step dump .finish = some w') : Settled w' := by
  obtain ⟨feed, hfinish, rfl⟩ := Option.map_eq_some_iff.mp hs
  constructor
  · exact Feed.finish_feeder hfinish
  · exact fun hexited ↦ absurd hexited (h.publisher.not_exited hc)

/-- When both threads are gone, what was accepted has been sent. -/
theorem Settled.sent (h : Settled w) (hw : Sound dump w) (hr : w.publisher.stopper = .returned) :
    w.sent = w.feed.ring.accepted.map (serializeEvent dump) := by
  have hexited := hw.publisher.returned hr
  have hsent := hw.sent
  rw [h.2 hexited, hexited] at hsent
  rw [hsent]
  exact (List.append_nil _).symm

theorem Settled.move {evs : List ExchangeEvent} (h : Settled w) (hw : Sound dump w)
    (hm : w.Moves dump evs w') : Settled w' := by
  obtain ⟨hfinished, hdelivered⟩ := h
  cases hm with
  | feed hfeed => exact absurd hfinished hfeed.not_finished
  | publish hp =>
    cases hp with
    | test | item => exact ⟨hfinished, fun hexited ↦ absurd hexited (by simp)⟩
    | pending hpoint =>
      refine ⟨hfinished, fun hexited ↦ ?_⟩
      exact absurd (hpoint.symm.trans hexited) (by simp)
    | empty hpoint hpop =>
      obtain ⟨q, hq⟩ := hw.feed.holds
      exact ⟨hfinished, fun _ ↦ hq.pop_empty hpop⟩
    | @send msg last hpoint =>
      refine ⟨hfinished, fun hexited ↦ ?_⟩
      cases last with
      | true | false => exact absurd hexited (by simp)
  | stop hstop =>
    refine ⟨hfinished, fun hexited ↦ hdelivered ?_⟩
    rw [← (hw.publisher.stop hstop).2]
    exact hexited

/-- If `stop` is called after the exchange thread has ended, all that was accepted is sent when it
returns. -/
theorem sent_all (h : Path (step dump) (started k) as w) (hf : w.feed.feeder = .finished)
    (hc : w.publisher.stopper = .calling) (h' : Path (step dump) w bs w')
    (hr : w'.publisher.stopper = .returned) :
    w'.feed.feeder = .finished ∧
      w'.sent = w'.feed.ring.accepted.map (serializeEvent dump) := by
  have hw := path_sound h
  have hboth := h'.preserves (P := fun v ↦ Sound dump v ∧ Settled v)
    (fun _ _ _ hv hs ↦ ⟨hv.1.move (step_moves hs), hv.2.move hv.1 (step_moves hs)⟩)
    ⟨hw, hf, fun hexited ↦ absurd hexited (hw.publisher.not_exited hc)⟩
  obtain ⟨hsound, hfinished, hdelivered⟩ := hboth
  have hexited := hsound.publisher.returned hr
  have hsent := hsound.sent
  rw [hdelivered hexited, hexited] at hsent
  constructor
  · exact hfinished
  · rw [hsent]
    exact (List.append_nil _).symm

end EventDispatcher

end LobEngine
