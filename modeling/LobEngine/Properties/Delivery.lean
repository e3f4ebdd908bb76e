import LobEngine.Gateway.Service

/-!
# What the subscribers and the replay log see

The threads of the service, in every interleaving, pass on what one thread alone would have
produced: each queue hands out, in order and once, a part of that, and counts the rest as dropped.
-/

namespace LobEngine

open RingProtocol Interleaving

/-- The service as one thread: messages are processed one by one, with batches of snapshots
between them. The events are all that it produces. -/
inductive Serial : List OrderMessage → ExchangeManager → List ExchangeEvent → Prop
  | nil : Serial [] .init []
  | order {msgs : List OrderMessage} {msg : OrderMessage} {m m' : ExchangeManager}
      {evs out : List ExchangeEvent} {fuel : Nat} {now ts : Timestamp} : Serial msgs m evs →
      m.process fuel now ts msg = .ok (m', out) → Serial (msgs ++ [msg]) m' (evs ++ out)
  | snapshots {msgs : List OrderMessage} {m : ExchangeManager} {evs : List ExchangeEvent}
      {snaps : List SnapshotEvent} {stamps : Fin instrumentCount → Timestamp} :
      Serial msgs m evs → m.snapshotAll stamps = some snaps →
      Serial msgs m (evs ++ snaps.map .snapshot)

/-- The answers of the service are those of a session, in order. -/
theorem Serial.session {msgs : List OrderMessage} {m : ExchangeManager}
    {evs : List ExchangeEvent} (h : Serial msgs m evs) :
    ∃ outs, Session (fun _ _ ↦ True) msgs m outs ∧ outs.flatten.Sublist evs := by
  induction h with
  | nil => exact ⟨[], .nil, List.nil_sublist _⟩
  | order _ hprocess ih =>
    obtain ⟨outs, hsession, hsub⟩ := ih
    refine ⟨_, hsession.snoc trivial hprocess, ?_⟩
    rw [List.flatten_append, List.flatten_singleton]
    exact hsub.append (List.Sublist.refl _)
  | snapshots _ _ ih =>
    obtain ⟨outs, hsession, hsub⟩ := ih
    exact ⟨outs, hsession, hsub.trans (List.sublist_append_left _ _)⟩

namespace ExchangeService

variable {i o r : Fin 32} {dump : Json → String} {interval first : Int}
  {w w' : ExchangeService i o r} {as : List ServiceStep}

/-- The invariant: what T2 has produced has been offered to both queues or is still to be; the
queues are open as long as T2 runs, and stopped after its end. -/
structure Consistent (dump : Json → String) (w : ExchangeService i o r) : Prop where
  core : w.core.Consistent
  dispatcher : w.dispatcher.Sound dump
  replay : w.replay.Sound
  serial : Serial w.core.processed w.core.exchange w.produced
  enqueued : w.produced = w.dispatcher.feed.offered ++ w.calls.flatMap OutboundCall.enqueued
  logged : w.produced.map (serializeEvent dump) = w.replay.feed.offered ++
    (w.calls.flatMap OutboundCall.logged).map (serializeEvent dump)
  waiting : w.core.stopper ≠ .returned → w.dispatcher.publisher.stopper = .calling
  last : w.dispatcher.publisher.stopper ≠ .returned → w.replay.writer.stopper = .calling
  opened : w.core.exchanger ≠ .exited →
    w.dispatcher.feed.feeder ≠ .finished ∧ w.replay.feed.feeder ≠ .finished
  settled : w.core.exchanger = .exited →
    w.calls = [] ∧ w.dispatcher.Settled ∧ w.replay.Settled

theorem consistent_started (dump : Json → String) (i o r : Fin 32) (first : Int) :
    Consistent dump (started i o r first) where
  core := Gateway.consistent_started i
  dispatcher := EventDispatcher.sound_started dump o
  replay := ReplayLogger.sound_started r
  serial := .nil
  enqueued := rfl
  logged := rfl
  waiting _ := rfl
  last _ := rfl
  opened _ := ⟨(fun h ↦ nomatch h), (fun h ↦ nomatch h)⟩
  settled h := nomatch h

/-- T2 has produced events and has still to make the calls for them. -/
private theorem Consistent.produce {fuel : Nat} {now ts : Timestamp} {core : Gateway i}
    {evs : List ExchangeEvent} {calls : List OutboundCall} {next : Int} (h : Consistent dump w)
    (hcalls : w.calls = []) (hstep : w.core.step (.exchange fuel now ts) = some core)
    (hopen : core.exchanger ≠ .exited)
    (hserial : Serial core.processed core.exchange (w.produced ++ evs))
    (henqueued : calls.flatMap OutboundCall.enqueued = evs)
    (hlogged : calls.flatMap OutboundCall.logged = evs) :
    Consistent dump { w with core := core, calls := calls, nextSnapshot := next
                             produced := w.produced ++ evs } := by
  have hmove := Gateway.step_move hstep
  have hbefore := h.enqueued
  have hbefore' := h.logged
  rw [hcalls, List.flatMap_nil, List.append_nil] at hbefore
  rw [hcalls, List.flatMap_nil, List.map_nil, List.append_nil] at hbefore'
  constructor
  · exact h.core.move hmove
  · exact h.dispatcher
  · exact h.replay
  · exact hserial
  · simp only [henqueued]
    rw [hbefore]
  · simp only [hlogged]
    rw [List.map_append, hbefore']
  · intro hne
    apply h.waiting
    rw [← hmove.exchange_stopper]
    exact hne
  · exact h.last
  · exact fun _ ↦ h.opened (Gateway.not_exited_of_step hstep)
  · exact fun hexited ↦ absurd hexited hopen

/-- The dispatcher has moved. -/
private theorem Consistent.dispatch {a : DispatcherStep} {dispatcher : EventDispatcher o}
    {calls : List OutboundCall} (h : Consistent dump w)
    (hstep : w.dispatcher.step dump a = some dispatcher) (hfinish : a ≠ .finish)
    (hstop : a = .stop → w.core.stopper = .returned) (hcalls : w.calls = [] → calls = [])
    (henqueued : w.calls.flatMap OutboundCall.enqueued =
      a.enqueued ++ calls.flatMap OutboundCall.enqueued)
    (hlogged : w.calls.flatMap OutboundCall.logged = calls.flatMap OutboundCall.logged) :
    Consistent dump { w with dispatcher := dispatcher, calls := calls } := by
  have hmoves := EventDispatcher.step_moves hstep
  have hoffered := EventDispatcher.step_offered hstep
  constructor
  · exact h.core
  · exact h.dispatcher.move hmoves
  · exact h.replay
  · exact h.serial
  · simp only
    rw [hoffered, List.append_assoc, ← henqueued]
    exact h.enqueued
  · simp only
    rw [← hlogged]
    exact h.logged
  · intro hne
    have hnot : a ≠ .stop := fun ha ↦ hne (hstop ha)
    exact (EventDispatcher.step_stopper hstep hnot).trans (h.waiting hne)
  · exact fun hne ↦ h.last fun hr ↦ hne (EventDispatcher.step_returned hstep hr)
  · intro hne
    obtain ⟨hdispatcher, hreplay⟩ := h.opened hne
    exact ⟨EventDispatcher.step_open hstep hfinish hdispatcher, hreplay⟩
  · intro hexited
    obtain ⟨hnil, hdispatcher, hreplay⟩ := h.settled hexited
    exact ⟨hcalls hnil, hdispatcher.move h.dispatcher hmoves, hreplay⟩

/-- The logger has moved. -/
theorem Consistent.record {a : LoggerStep} {replay : ReplayLogger r}
    {calls : List OutboundCall} (h : Consistent dump w)
    (hstep : w.replay.step dump a = some replay) (hfinish : a ≠ .finish)
    (hstop : a = .stop → w.dispatcher.publisher.stopper = .returned)
    (hcalls : w.calls = [] → calls = [])
    (henqueued : w.calls.flatMap OutboundCall.enqueued = calls.flatMap OutboundCall.enqueued)
    (hlogged : w.calls.flatMap OutboundCall.logged =
      a.logged ++ calls.flatMap OutboundCall.logged) :
    Consistent dump { w with replay := replay, calls := calls } := by
  have hmoves := ReplayLogger.step_moves hstep
  have hoffered := ReplayLogger.step_offered hstep
  have hbefore := h.logged
  rw [hlogged, List.map_append, ← List.append_assoc, ← hoffered] at hbefore
  constructor
  · exact h.core
  · exact h.dispatcher
  · exact h.replay.move hmoves
  · exact h.serial
  · simp only
    rw [← henqueued]
    exact h.enqueued
  · exact hbefore
  · exact h.waiting
  · intro hne
    have hnot : a ≠ .stop := fun ha ↦ hne (hstop ha)
    exact (ReplayLogger.step_stopper hstep hnot).trans (h.last hne)
  · intro hne
    obtain ⟨hdispatcher, hreplay⟩ := h.opened hne
    exact ⟨hdispatcher, ReplayLogger.step_open hstep hfinish hreplay⟩
  · intro hexited
    obtain ⟨hnil, hdispatcher, hreplay⟩ := h.settled hexited
    exact ⟨hcalls hnil, hdispatcher, hreplay.move h.replay hmoves⟩

/-- T2 has ended. -/
theorem Consistent.finish {fuel : Nat} {now ts : Timestamp} {core : Gateway i}
    {dispatcher : EventDispatcher o} {replay : ReplayLogger r} (h : Consistent dump w)
    (hcalls : w.calls = []) (hstep : w.core.step (.exchange fuel now ts) = some core)
    (hexited : core.exchanger = .exited) (hprocessed : core.processed = w.core.processed)
    (hexchange : core.exchange = w.core.exchange)
    (hdispatcher : w.dispatcher.step dump .finish = some dispatcher)
    (hreplay : w.replay.step dump .finish = some replay) :
    Consistent dump { w with core := core, dispatcher := dispatcher, replay := replay } := by
  have hmove := Gateway.step_move hstep
  have hstopper := hmove.exchange_stopper
  have hcalling := h.waiting fun hr ↦ Gateway.not_exited_of_step hstep (h.core.returned hr)
  have hcalling' : w.replay.writer.stopper = .calling := by
    apply h.last
    rw [hcalling]
    decide
  constructor
  · exact h.core.move hmove
  · exact h.dispatcher.move (EventDispatcher.step_moves hdispatcher)
  · exact h.replay.move (ReplayLogger.step_moves hreplay)
  · simp only
    rw [hprocessed, hexchange]
    exact h.serial
  · simp only
    rw [EventDispatcher.step_offered hdispatcher, show DispatcherStep.finish.enqueued = [] from rfl,
      List.append_nil]
    exact h.enqueued
  · simp only
    rw [ReplayLogger.step_offered hreplay, show LoggerStep.finish.logged = [] from rfl,
      List.map_nil, List.append_nil]
    exact h.logged
  · exact fun _ ↦ (EventDispatcher.step_stopper hdispatcher (by simp)).trans hcalling
  · exact fun _ ↦ (ReplayLogger.step_stopper hreplay (by simp)).trans hcalling'
  · exact fun hne ↦ absurd hexited hne
  · intro _
    exact ⟨hcalls, h.dispatcher.settled hcalling hdispatcher,
      h.replay.settled hcalling' hreplay⟩

theorem Consistent.move (h : Consistent dump w) (hm : w.Moves dump w') : Consistent dump w' := by
  cases hm with
  | core hstep hprocessed hexchange hexited hreturned =>
    constructor
    · exact h.core.move (Gateway.step_move hstep)
    · exact h.dispatcher
    · exact h.replay
    · simp only
      rw [hprocessed, hexchange]
      exact h.serial
    · exact h.enqueued
    · exact h.logged
    · exact fun hne ↦ h.waiting fun hr ↦ hne (hreturned hr)
    · exact h.last
    · exact fun hne ↦ h.opened fun he ↦ hne (hexited.mpr he)
    · exact fun he ↦ h.settled (hexited.mp he)
  | @answer fuel now ts msg core out hcalls hstep hopen hprocessed hprocess =>
    have hserial : Serial core.processed core.exchange (w.produced ++ out) := by
      rw [hprocessed]
      exact h.serial.order hprocess
    exact h.produce hcalls hstep hopen hserial (OutboundCall.enqueued_ofAnswer out)
      (OutboundCall.logged_ofAnswer out)
  | @snapshots fuel now ts core snaps stamps next hcalls hstep hopen hprocessed hexchange hsnaps =>
    have hserial : Serial core.processed core.exchange (w.produced ++ snaps.map .snapshot) := by
      rw [hprocessed, hexchange]
      exact h.serial.snapshots hsnaps
    exact h.produce hcalls hstep hopen hserial (OutboundCall.enqueued_ofSnapshots snaps)
      (OutboundCall.logged_ofSnapshots snaps)
  | finish hcalls hstep hexited hprocessed hexchange hdispatcher hreplay =>
    exact h.finish hcalls hstep hexited hprocessed hexchange hdispatcher hreplay
  | dispatcher hstep hfinish hstop hcalls henqueued hlogged =>
    exact h.dispatch hstep hfinish hstop hcalls henqueued hlogged
  | replay hstep hfinish hstop hcalls henqueued hlogged =>
    exact h.record hstep hfinish hstop hcalls henqueued hlogged

theorem path_consistent (h : Path (step dump interval) (started i o r first) as w) :
    Consistent dump w :=
  h.preserves (fun _ _ _ hv hs ↦ hv.move (step_moves hs)) (consistent_started dump i o r first)

/-- In every interleaving the events that T2 produces are those of one thread that processes the
messages one by one, in the order in which they were received; the messages sent and the lines
logged are a part of these events, in order. -/
theorem service_serial (h : Path (step dump interval) (started i o r first) as w) :
    Serial w.core.processed w.core.exchange w.produced ∧
    w.core.accepted =
      w.core.processed ++ w.core.exchanger.inHand ++ w.core.inbound.contents ∧
    w.dispatcher.sent.Sublist (w.produced.map (serializeEvent dump)) ∧
    w.replay.file.Sublist (w.produced.map (serializeEvent dump)) := by
  have hw := path_consistent h
  refine ⟨hw.serial, hw.core.order, ?_, ?_⟩
  · apply hw.dispatcher.sent_sublist.trans
    rw [hw.enqueued, List.map_append]
    exact List.sublist_append_left _ _
  · apply hw.replay.file_sublist.trans
    rw [hw.logged]
    exact List.sublist_append_left _ _

/-- What T2 meets when nothing is due. -/
private def quietInput : ExchangeInput := ⟨50, 0, 7, 0, fun _ ↦ 0, .orderAccepted {}, ""⟩

private def shortText : Json → String := fun _ ↦ "event"

/-- An order comes in and is answered with two events, of which the queues of one place refuse
the second. -/
private def answersOrder : List ServiceStep :=
  [.receiver none,
    .receiver (some { orderId := 1, symbol := "STOCK_1", quantity := 5, price := 100 }),
    .receiver none] ++ List.replicate 29 (.exchange quietInput)

theorem service_serial_one : ∃ w : ExchangeService 2 1 1, w.produced.length = 2 ∧
    w.dispatcher.sent.length = 1 ∧
    w.dispatcher.sent.Sublist (w.produced.map (serializeEvent shortText)) := by
  obtain ⟨w, hw, hproduced, hsent⟩ : ∃ w ∈ run (step shortText 100)
      (answersOrder ++ List.replicate 6 .publish) (started 2 1 1 5),
      w.produced.length = 2 ∧ w.dispatcher.sent.length = 1 := by decide +kernel
  obtain ⟨-, -, hsub, -⟩ := service_serial (Path.nil.run hw)
  exact ⟨w, hproduced, hsent, hsub⟩

/-- The accounts of a queue: each line was passed on, in order, or it was refused and counted. -/
def Accounted (lines out : List String) (drops : UInt64) : Prop :=
  ∃ verdicts : List (String × Bool), verdicts.map Prod.fst = lines ∧
    (verdicts.filter Prod.snd).map Prod.fst = out ∧
    drops = UInt64.ofNat (verdicts.filter (!·.2)).length

/-- The items of a ring with their answers are the accounts of what was offered to it. -/
theorem accounted_offers {α : Type} {k : Fin 32} {f : Feed α k} (h : f.Sound)
    (hf : f.feeder.Outside) (g : α → String) :
    Accounted (f.offered.map g) (f.ring.accepted.map g) f.drops := by
  obtain ⟨hoffered, hdrops⟩ := h.outside hf
  refine ⟨(BoundedQueue.offers f.ring.history).map (Prod.map g id), ?_, ?_, ?_⟩
  · rw [hoffered, List.map_map, List.map_map]
    rfl
  · rw [Ring.accepted, BoundedQueue.accepted_eq_offers, List.filter_map, List.map_map,
      List.map_map]
    rfl
  · rw [hdrops, Ring.refused, BoundedQueue.refused_eq_offers, List.filter_map, List.length_map,
      List.length_map]
    rfl

/-- When `stop` has returned, all threads have ended, an accepted message was processed unless it
is stranded in the inbound queue, and each event that T2 produced was sent and logged, or refused
by a full queue and counted as dropped there. -/
theorem service_stopped (h : Path (step dump interval) (started i o r first) as w)
    (hr : w.replay.writer.stopper = .returned) :
    w.core.accepted = w.core.processed ++ w.core.inbound.contents ∧
    Accounted (w.produced.map (serializeEvent dump)) w.dispatcher.sent w.dispatcher.feed.drops ∧
    Accounted (w.produced.map (serializeEvent dump)) w.replay.file w.replay.feed.drops := by
  have hw := path_consistent h
  have hdispatcher : w.dispatcher.publisher.stopper = .returned := by
    by_contra hne
    rw [hw.last hne] at hr
    exact absurd hr (by decide)
  have hcore : w.core.stopper = .returned := by
    by_contra hne
    rw [hw.waiting hne] at hdispatcher
    exact absurd hdispatcher (by decide)
  have hexited := hw.core.returned hcore
  obtain ⟨hcalls, hsettled, hsettled'⟩ := hw.settled hexited
  have horder := hw.core.order
  have henqueued := hw.enqueued
  have hlogged := hw.logged
  rw [hexited] at horder
  rw [hcalls, List.flatMap_nil, List.append_nil] at henqueued
  rw [hcalls, List.flatMap_nil, List.map_nil, List.append_nil] at hlogged
  refine ⟨?_, ?_, ?_⟩
  · simpa only [ExchangePoint.inHand, List.append_nil] using horder
  · rw [hsettled.sent hw.dispatcher hdispatcher, henqueued]
    apply accounted_offers hw.dispatcher.feed
    rw [hsettled.1]
    trivial
  · have haccounts := accounted_offers hw.replay.feed (by rw [hsettled'.1]; trivial) id
    rw [List.map_id, List.map_id] at haccounts
    rw [hsettled'.file hw.replay hr, hlogged]
    exact haccounts

/-- `stop` is called when the publisher and the writer have not taken anything yet. -/
private def stopsAll : List ServiceStep :=
  [.stop, .receiver none] ++ List.replicate 3 (.exchange quietInput) ++ [.stop, .stop, .stop] ++
    List.replicate 8 .publish ++ [.stop, .stop] ++ List.replicate 8 .write ++ [.stop]

theorem service_stopped_one : ∃ w : ExchangeService 2 1 1, w.produced.length = 2 ∧
    w.dispatcher.feed.drops = 1 ∧
    Accounted (w.produced.map (serializeEvent shortText)) w.dispatcher.sent
      w.dispatcher.feed.drops := by
  obtain ⟨w, hw, hr, hproduced, hdrops⟩ : ∃ w ∈ run (step shortText 100)
      (answersOrder ++ stopsAll) (started 2 1 1 5), w.replay.writer.stopper = .returned ∧
      w.produced.length = 2 ∧ w.dispatcher.feed.drops = 1 := by decide +kernel
  obtain ⟨-, haccounts, -⟩ := service_stopped (Path.nil.run hw) hr
  exact ⟨w, hproduced, hdrops, haccounts⟩

end ExchangeService

end LobEngine
