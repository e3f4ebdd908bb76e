import LobEngine.Gateway.Serializer
import LobEngine.Gateway.Worker
import LobEngine.Lib.Interleaving
import LobEngine.Lib.RingFeed

/-!
# The replay logger

`src/gateway/replay_logger.hpp`, `src/gateway/replay_logger.cpp`: the exchange thread logs events,
the writer thread appends their lines to the file, and a third thread calls `stop`. The writer
takes a reference to a slot and releases the slot before it reads it. One step is one load or
store of a shared variable, one access to a slot or one join.
-/

namespace LobEngine

open RingProtocol Interleaving

/-- `class ReplayLogger` with its three threads, for a queue of `2 ^ k` slots;
`src/gateway/replay_logger.hpp:49–70`. `file` records the lines appended to the file. -/
structure ReplayLogger (k : Fin 32) where
  feed : Feed String k
  writer : Worker Unit
  file : List String

/-- A step of one of the threads. The exchange thread calls `log` or ends. -/
inductive LoggerStep where
  | log (ev : ExchangeEvent)
  | push (junk : String)
  | finish
  | write
  | stop

/-- The events that a step gives to `log`. -/
def LoggerStep.logged : LoggerStep → List ExchangeEvent
  | .log ev => [ev]
  | .push _ | .finish | .write | .stop => []

namespace ReplayLogger

variable {k : Fin 32}

/-- The logger when `start` returns; `src/gateway/replay_logger.cpp:11–15`, `23–26`. -/
def started (k : Fin 32) : ReplayLogger k where
  feed := .init k ""
  writer := .started
  file := []

/-- A call of `log`, which pushes the line of the event; `src/gateway/replay_logger.cpp:43–54`. -/
def log (dump : Json → String) (ev : ExchangeEvent) (w : ReplayLogger k) :
    Option (ReplayLogger k) :=
  (w.feed.call [serializeEvent dump ev]).map fun feed ↦ { w with feed := feed }

/-- One step of `writer_loop`, which drains the queue in its loop and once more after it;
`src/gateway/replay_logger.cpp:60–82`. The slot is read twice: `line.empty()` reads it at
`draining`, and `file << line` at `emitting`. -/
def writerLoop (w : ReplayLogger k) : Option (ReplayLogger k) :=
  match w.writer.point with
  | .testing => some { w with writer := w.writer.goto (.draining (!w.writer.running)) }
  | .draining last =>
    match w.feed.ring.popper, w.feed.pop .releaseFirst with
    | .released head, (feed, _) =>
      if (w.feed.ring.read head).isEmpty then some { w with feed := feed }
      else some { w with writer := w.writer.goto (.emitting () last) }
    | _, (feed, .empty) =>
      some { w with feed := feed
                    writer := w.writer.goto (if last then .exited else .testing) }
    | _, (feed, _) => some { w with feed := feed }
  | .emitting _ last =>
    match w.feed.pop .releaseFirst with
    | (feed, .item line) =>
      some { w with feed := feed, file := w.file ++ [line]
                    writer := w.writer.goto (.draining last) }
    | _ => none
  | .exited => none

/-- One step of the logger. -/
def step (dump : Json → String) (w : ReplayLogger k) : LoggerStep → Option (ReplayLogger k)
  | .log ev => w.log dump ev
  | .push junk => (w.feed.push junk).map fun feed ↦ { w with feed := feed }
  | .finish => w.feed.finish.map fun feed ↦ { w with feed := feed }
  | .write => w.writerLoop
  | .stop => w.writer.stop.map fun writer ↦ { w with writer := writer }

/-- The steps of the writer, one constructor for each. -/
inductive Writes (w : ReplayLogger k) : ReplayLogger k → Prop
  | test : w.writer.point = .testing →
      Writes w { w with writer := w.writer.goto (.draining (!w.writer.running)) }
  | skip {last : Bool} {head : Cursor k} {ring : Ring String k} {r : Result String} :
      w.writer.point = .draining last → w.feed.ring.popper = .released head →
      (w.feed.ring.read head).isEmpty = true → w.feed.ring.Pops .releaseFirst ring r →
      Writes w { w with feed := { w.feed with ring := ring } }
  | line {last : Bool} {head : Cursor k} :
      w.writer.point = .draining last → w.feed.ring.popper = .released head →
      (w.feed.ring.read head).isEmpty = false →
      Writes w { w with writer := w.writer.goto (.emitting () last) }
  | empty {last : Bool} {ring : Ring String k} : w.writer.point = .draining last →
      w.feed.ring.Pops .releaseFirst ring .empty →
      Writes w
        { w with feed := { w.feed with ring := ring }
                 writer := w.writer.goto (if last then .exited else .testing) }
  | advance {last : Bool} {ring : Ring String k} {r : Result String} :
      w.writer.point = .draining last → (∀ head, w.feed.ring.popper ≠ .released head) →
      w.feed.ring.Pops .releaseFirst ring r →
      Writes w { w with feed := { w.feed with ring := ring } }
  | append {x : Unit} {last : Bool} {ring : Ring String k} {line : String} :
      w.writer.point = .emitting x last → w.feed.ring.Pops .releaseFirst ring (.item line) →
      Writes w
        { w with feed := { w.feed with ring := ring }, file := w.file ++ [line]
                 writer := w.writer.goto (.draining last) }

/-- The steps by their effect: the exchange thread moves on, with the events that it gives to
`log`, or the writer or the caller of `stop` does. -/
inductive Moves (dump : Json → String) (w : ReplayLogger k) :
    List ExchangeEvent → ReplayLogger k → Prop
  | feed {feed : Feed String k} {evs : List ExchangeEvent} : w.feed.Moves feed →
      feed.offered = w.feed.offered ++ evs.map (serializeEvent dump) →
      Moves dump w evs { w with feed := feed }
  | write {w' : ReplayLogger k} : w.Writes w' → Moves dump w [] w'
  | stop {writer : Worker Unit} : w.writer.stop = some writer →
      Moves dump w [] { w with writer := writer }

variable {dump : Json → String} {w w' : ReplayLogger k} {a : LoggerStep} {as bs : List LoggerStep}

theorem writerLoop_writes (h : w.writerLoop = some w') : w.Writes w' := by
  have hpop := Ring.pop_step .releaseFirst w.feed.ring
  unfold writerLoop at h
  simp only [Feed.pop] at h
  generalize w.feed.ring.pop .releaseFirst = out at h hpop
  obtain ⟨ring, r⟩ := out
  split at h
  · next hpoint =>
    obtain rfl := Option.some.inj h
    exact .test hpoint
  · next hpoint =>
    split at h
    · next hreleased heq =>
      obtain ⟨rfl, -⟩ := Prod.mk.inj heq
      split at h
      · next hempty =>
        obtain rfl := Option.some.inj h
        exact .skip hpoint hreleased hempty hpop
      · next hne =>
        obtain rfl := Option.some.inj h
        exact .line hpoint hreleased (Bool.eq_false_iff.mpr hne)
    · next heq _ =>
      obtain ⟨rfl, rfl⟩ := Prod.mk.inj heq
      obtain rfl := Option.some.inj h
      exact .empty hpoint hpop
    · next heq hnot =>
      obtain ⟨rfl, -⟩ := Prod.mk.inj heq
      obtain rfl := Option.some.inj h
      exact .advance hpoint hnot hpop
  · next hpoint =>
    split at h
    · next heq =>
      obtain ⟨rfl, rfl⟩ := Prod.mk.inj heq
      obtain rfl := Option.some.inj h
      exact .append hpoint hpop
    · exact absurd h (by simp)
  · exact absurd h (by simp)

theorem step_moves (h : w.step dump a = some w') : w.Moves dump a.logged w' := by
  cases a with
  | log ev =>
    obtain ⟨feed, hfeed, rfl⟩ := Option.map_eq_some_iff.mp h
    exact .feed (Feed.call_moves hfeed) (Feed.call_offered hfeed)
  | push junk =>
    obtain ⟨feed, hfeed, rfl⟩ := Option.map_eq_some_iff.mp h
    apply Moves.feed (Feed.push_moves hfeed)
    exact (Feed.push_offered hfeed).trans (List.append_nil _).symm
  | finish =>
    obtain ⟨feed, hfeed, rfl⟩ := Option.map_eq_some_iff.mp h
    apply Moves.feed (Feed.finish_moves hfeed)
    exact (Feed.finish_offered hfeed).trans (List.append_nil _).symm
  | write => exact .write (writerLoop_writes h)
  | stop =>
    obtain ⟨writer, hstop, rfl⟩ := Option.map_eq_some_iff.mp h
    exact .stop hstop

/-- What a step adds to the offered lines. -/
theorem step_offered (h : w.step dump a = some w') :
    w'.feed.offered = w.feed.offered ++ a.logged.map (serializeEvent dump) := by
  have hmoves := step_moves h
  generalize a.logged = evs at hmoves
  cases hmoves with
  | feed _ hoffered => exact hoffered
  | write hw =>
    cases hw with
    | test | skip | line | empty | advance | append => exact (List.append_nil _).symm
  | stop => exact (List.append_nil _).symm

/-- Only the caller of `stop` moves on in `stop`. -/
theorem step_stopper (h : w.step dump a = some w') (hne : a ≠ .stop) :
    w'.writer.stopper = w.writer.stopper := by
  cases a with
  | log | push | finish =>
    obtain ⟨feed, -, rfl⟩ := Option.map_eq_some_iff.mp h
    rfl
  | write =>
    cases writerLoop_writes h with
    | test | skip | line | empty | advance | append => rfl
  | stop => exact absurd rfl hne

/-- Only the end of the exchange thread ends its feed. -/
theorem step_open (h : w.step dump a = some w') (hne : a ≠ .finish)
    (ho : w.feed.feeder ≠ .finished) : w'.feed.feeder ≠ .finished := by
  cases a with
  | log ev =>
    obtain ⟨feed, hcall, rfl⟩ := Option.map_eq_some_iff.mp h
    exact Feed.call_open hcall
  | push junk =>
    obtain ⟨feed, hpush, rfl⟩ := Option.map_eq_some_iff.mp h
    exact Feed.push_open hpush
  | finish => exact absurd rfl hne
  | write =>
    cases writerLoop_writes h with
    | test | skip | line | empty | advance | append => exact ho
  | stop =>
    obtain ⟨writer, -, rfl⟩ := Option.map_eq_some_iff.mp h
    exact ho

/-! ### What the writer appends -/

/-- The invariant: the file holds the lines that were read from the queue, in order. -/
structure Sound (w : ReplayLogger k) : Prop where
  feed : w.feed.Sound
  writer : w.writer.Sound
  lines : ∀ line ∈ w.feed.offered, line.isEmpty = false
  order : ∀ head line, w.feed.ring.popper ≠ .holding head line
  slot : ∀ x last, w.writer.point = .emitting x last → ∃ head, w.feed.ring.popper = .released head
  file : w.feed.ring.delivered = w.file

theorem sound_started (k : Fin 32) : Sound (started k) where
  feed := .init k _
  writer := .started
  lines _ h := absurd h List.not_mem_nil
  order _ _ h := nomatch h
  slot _ _ h := nomatch h
  file := rfl

/-- No line is empty, so none is skipped. -/
theorem Sound.not_empty {head : Cursor k} (h : Sound w)
    (hreleased : w.feed.ring.popper = .released head) :
    (w.feed.ring.read head).isEmpty = false := by
  obtain ⟨q, hq⟩ := h.feed.holds
  have hlast := hq.fifo.released_whole head hreleased
  have htaken := List.mem_of_getLast? hlast
  have haccepted := hq.fifo.taken_prefix.subset htaken
  exact h.lines _ (h.feed.mem_offered haccepted)

/-- A step of a pop hands out what the next line of the file is to be. -/
theorem Sound.popped {ring : Ring String k} {d : Discipline String} {r : Result String}
    (h : Sound w) (hpop : w.feed.ring.Pops d ring r) : ring.delivered = w.file ++ r.items := by
  obtain ⟨q, hq⟩ := h.feed.holds
  rw [hq.pop_delivered hpop, h.file]

/-- Before it has released a slot, a pop hands out nothing. -/
theorem Sound.items_nil {ring : Ring String k} {r : Result String} (h : Sound w)
    (hnot : ∀ head, w.feed.ring.popper ≠ .released head)
    (hpop : w.feed.ring.Pops .releaseFirst ring r) : r.items = [] := by
  cases hpop with
  | load | miss | find | release => rfl
  | store hholding => exact absurd hholding (h.order _ _)
  | read hreleased => exact absurd hreleased (hnot _)

/-- A step of the writer. -/
theorem Sound.write (h : Sound w) (hm : w.Writes w') : Sound w' := by
  cases hm with
  | test hpoint =>
    constructor
    · exact h.feed
    · exact h.writer.test hpoint
    · exact h.lines
    · exact h.order
    · exact fun _ _ he ↦ nomatch he
    · exact h.file
  | skip hpoint hreleased hempty =>
    rw [h.not_empty hreleased] at hempty
    exact absurd hempty (by decide)
  | line hpoint hreleased =>
    constructor
    · exact h.feed
    · apply h.writer.advance
      · simp [hpoint]
      · rw [hpoint]
        exact id
    · exact h.lines
    · exact h.order
    · exact fun _ _ _ ↦ ⟨_, hreleased⟩
    · exact h.file
  | @empty last ring hpoint hpop =>
    constructor
    · exact h.feed.pop hpop
    · exact h.writer.drained hpoint
    · exact h.lines
    · exact hpop.not_holding
    · cases last with
      | true | false => exact fun _ _ he ↦ nomatch he
    · exact (h.popped hpop).trans (List.append_nil _)
  | advance hpoint hnot hpop =>
    constructor
    · exact h.feed.pop hpop
    · exact h.writer
    · exact h.lines
    · exact hpop.not_holding
    · exact fun _ _ he ↦ absurd (hpoint.symm.trans he) (by simp)
    · refine (h.popped hpop).trans ?_
      rw [h.items_nil hnot hpop, List.append_nil]
  | append hpoint hpop =>
    constructor
    · exact h.feed.pop hpop
    · apply h.writer.advance
      · simp [hpoint]
      · rw [hpoint]
        exact id
    · exact h.lines
    · exact hpop.not_holding
    · exact fun _ _ he ↦ nomatch he
    · exact h.popped hpop

theorem Sound.move {evs : List ExchangeEvent} (h : Sound w) (hm : w.Moves dump evs w') :
    Sound w' := by
  cases hm with
  | write hw => exact h.write hw
  | feed hfeed hoffered =>
    constructor
    · exact h.feed.move hfeed
    · exact h.writer
    · intro line hline
      rw [hoffered] at hline
      rcases List.mem_append.mp hline with hline | hline
      · exact h.lines line hline
      · obtain ⟨ev, -, rfl⟩ := List.mem_map.mp hline
        exact serializeEvent_isEmpty dump ev
    · rw [hfeed.popper]
      exact h.order
    · rw [hfeed.popper]
      exact h.slot
    · rw [hfeed.delivered]
      exact h.file
  | stop hstop =>
    obtain ⟨hsound, hpoint⟩ := h.writer.stop hstop
    refine { h with writer := hsound, slot := ?_ }
    rw [hpoint]
    exact h.slot

theorem path_sound (h : Path (step dump) (started k) as w) : Sound w :=
  h.preserves (fun _ _ _ ht hs ↦ ht.move (step_moves hs)) (sound_started k)

/-- What is in the file was offered, in order. -/
theorem Sound.file_sublist (h : Sound w) : w.file.Sublist w.feed.offered := by
  obtain ⟨q, hq⟩ := h.feed.holds
  rw [← h.file]
  exact hq.delivered_prefix.sublist.trans h.feed.accepted_sublist

/-- The writer waits for no one: it can take a step until it ends. -/
theorem Sound.writerLoop_isSome (h : Sound w) (hne : w.writer.point ≠ .exited) :
    w.writerLoop.isSome := by
  unfold writerLoop
  cases hpoint : w.writer.point with
  | testing => rfl
  | draining last =>
    simp only
    split
    · split
      · rfl
      · rfl
    · rfl
    · rfl
  | emitting x last =>
    obtain ⟨head, hreleased⟩ := h.slot x last hpoint
    simp only [Feed.pop, Ring.pop, hreleased]
    rfl
  | exited => exact absurd hpoint hne

/-- The lines offered to the queue are those of the logged events. -/
theorem path_offered (h : Path (step dump) (started k) as w) :
    w.feed.offered = (as.flatMap LoggerStep.logged).map (serializeEvent dump) := by
  induction h with
  | nil => rfl
  | snoc _ hs ih =>
    rw [List.flatMap_append, List.map_append, List.flatMap_singleton, ← ih]
    have hmoves := step_moves hs
    generalize LoggerStep.logged _ = evs at hmoves ⊢
    cases hmoves with
    | feed _ hoffered => exact hoffered
    | write hw =>
      cases hw with
      | test | skip | line | empty | advance | append => exact (List.append_nil _).symm
    | stop => exact (List.append_nil _).symm

/-- The exchange thread is gone, and if the writer is too, it has taken everything. -/
def Settled (w : ReplayLogger k) : Prop :=
  w.feed.feeder = .finished ∧
    (w.writer.point = .exited → w.feed.ring.delivered = w.feed.ring.accepted)

/-- The exchange thread ends before `stop` is called. -/
theorem Sound.settled (h : Sound w) (hc : w.writer.stopper = .calling)
    (hs : w.step dump .finish = some w') : Settled w' := by
  obtain ⟨feed, hfinish, rfl⟩ := Option.map_eq_some_iff.mp hs
  constructor
  · exact Feed.finish_feeder hfinish
  · exact fun hexited ↦ absurd hexited (h.writer.not_exited hc)

/-- When both threads are gone, the file holds what was accepted. -/
theorem Settled.file (h : Settled w) (hw : Sound w) (hr : w.writer.stopper = .returned) :
    w.file = w.feed.ring.accepted := by
  rw [← hw.file]
  exact h.2 (hw.writer.returned hr)

theorem Settled.move {evs : List ExchangeEvent} (h : Settled w) (hw : Sound w)
    (hm : w.Moves dump evs w') : Settled w' := by
  obtain ⟨hfinished, hdelivered⟩ := h
  cases hm with
  | feed hfeed => exact absurd hfinished hfeed.not_finished
  | write hwrite =>
    cases hwrite with
    | test | line | append => exact ⟨hfinished, fun hexited ↦ absurd hexited (by simp)⟩
    | skip hpoint | advance hpoint =>
      refine ⟨hfinished, fun hexited ↦ ?_⟩
      exact absurd (hpoint.symm.trans hexited) (by simp)
    | empty hpoint hpop =>
      obtain ⟨q, hq⟩ := hw.feed.holds
      exact ⟨hfinished, fun _ ↦ hq.pop_empty hpop⟩
  | stop hstop =>
    refine ⟨hfinished, fun hexited ↦ hdelivered ?_⟩
    rw [← (hw.writer.stop hstop).2]
    exact hexited

/-- If `stop` is called after the exchange thread has ended, every accepted line is in the file
when it returns. -/
private theorem written_all (h : Path (step dump) (started k) as w) (hf : w.feed.feeder = .finished)
    (hc : w.writer.stopper = .calling) (h' : Path (step dump) w bs w')
    (hr : w'.writer.stopper = .returned) : w'.file = w'.feed.ring.accepted := by
  have hw := path_sound h
  have hboth := h'.preserves (P := fun v ↦ Sound v ∧ Settled v)
    (fun _ _ _ hv hs ↦ ⟨hv.1.move (step_moves hs), hv.2.move hv.1 (step_moves hs)⟩)
    ⟨hw, hf, fun hexited ↦ absurd hexited (hw.writer.not_exited hc)⟩
  obtain ⟨hsound, -, hdelivered⟩ := hboth
  rw [← hsound.file]
  exact hdelivered (hsound.writer.returned hr)

/-- In every interleaving the file holds a prefix of the accepted lines, and no push writes the
slot that the writer has released and not read yet. Between two calls every logged event has been
accepted or counted as dropped. If `stop` is called after the exchange thread has ended, every
accepted line is in the file when it returns. -/
theorem replay_log_exact (h : Path (step dump) (started k) as w) :
    w.file <+: w.feed.ring.accepted ∧
    (∀ head, w.feed.ring.popper = .released head → head ∉ w.feed.ring.pusher.target) ∧
    (w.feed.feeder.Outside →
      (as.flatMap LoggerStep.logged).length =
        w.feed.ring.accepted.length + w.feed.ring.refused.length ∧
      w.feed.drops = UInt64.ofNat w.feed.ring.refused.length) ∧
    ∀ bs w', w.feed.feeder = .finished → w.writer.stopper = .calling →
      Path (step dump) w bs w' → w'.writer.stopper = .returned →
        w'.file = w'.feed.ring.accepted := by
  have hsound := path_sound h
  obtain ⟨q, hq⟩ := hsound.feed.holds
  constructor
  · rw [← hsound.file]
    exact hq.delivered_prefix
  constructor
  · intro head hreleased htarget
    apply hq.apart htarget
    rw [hreleased]
    rfl
  constructor
  · intro houtside
    obtain ⟨hoffered, hdrops⟩ := hsound.feed.outside houtside
    have hlength := congrArg List.length hoffered
    rw [path_offered h, List.length_map, List.length_map, BoundedQueue.length_offers] at hlength
    exact ⟨hlength, hdrops⟩
  · exact fun bs w' hfinished hcalling h' hr ↦ written_all h hfinished hcalling h' hr

/-- What the replay log shows of the cancelled orders below. -/
private def canceledText : Json → String := fun _ ↦
  "\x7b\"order_id\":1,\"remaining_qty\":5,\"symbol\":\"STOCK_1\",\"ts\":0,\"type\":\"CANCELED\"\x7d"

private def canceled : ExchangeEvent :=
  .orderCanceled { symbol := "STOCK_1", orderId := 1, remainingQty := 5 }

/-- In a queue of two slots a second event is logged when the slot of the first one has been
released and not been read; then the exchange thread ends. -/
private def logsTwice : List LoggerStep :=
  [.log canceled] ++ List.replicate 7 (.push "") ++ List.replicate 4 .write ++
    [.log canceled] ++ List.replicate 7 (.push "") ++ [.finish]

private def stops : List LoggerStep :=
  List.replicate 9 .write ++ [.stop] ++ List.replicate 3 .write ++ [.stop]

theorem replay_log_exact_twice : ∃ w w' : ReplayLogger 1, w.feed.ring.taken.length = 1 ∧
    w.file = [] ∧ w'.file.length = 2 ∧ w'.file = w'.feed.ring.accepted := by
  obtain ⟨w, hw, htaken, hfile, hfinished, hcalling, w', hw', hr, htwo⟩ :
      ∃ w ∈ run (step canceledText) logsTwice (started 1), w.feed.ring.taken.length = 1 ∧
        w.file = [] ∧ w.feed.feeder = .finished ∧ w.writer.stopper = .calling ∧
        ∃ w' ∈ run (step canceledText) stops w, w'.writer.stopper = .returned ∧
          w'.file.length = 2 := by
    decide +kernel
  obtain ⟨-, -, -, hwritten⟩ := replay_log_exact (Path.nil.run hw)
  exact ⟨w, w', htaken, hfile, htwo, hwritten _ w' hfinished hcalling (Path.nil.run hw') hr⟩

end ReplayLogger

end LobEngine
