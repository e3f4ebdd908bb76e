import LobEngine.Gateway.EventDispatcher
import LobEngine.Gateway.ReplayLogger
import LobEngine.Gateway.Shutdown

/-!
# Every thread comes to its end

The ends of the receiver, of the exchange thread, of the publisher and of the writer, once the
flag of each is down: what a step does to the steps that the thread has still to come.
-/

namespace LobEngine

open RingProtocol Interleaving

/-! ### The publisher and the writer -/

/-- What a thread that leaves its loop in `last` has to come, besides its pop. -/
def drainBase (last : Bool) : Nat := if last then 1 else 8

namespace EventDispatcher

variable {k : Fin 32} {dump : Json → String} {w w' : EventDispatcher k}

/-- The steps that the publisher has to come, for the items in the queue. -/
def left (w : EventDispatcher k) : Nat :=
  match w.publisher.point with
  | .testing => 7
  | .draining last => drainBase last + w.feed.ring.popper.left
  | .emitting _ last => drainBase last + w.feed.ring.popper.left + 1
  | .exited => 0

def rank (w : EventDispatcher k) : Nat × Nat := (w.feed.ring.held, w.left)

/-- After `stop` has lowered the flag every step brings the publisher nearer to its end. -/
theorem Publishes.falls (hm : w.Publishes dump w') (h : Sound dump w)
    (hrun : w.publisher.running = false) : Falls w'.rank w.rank := by
  obtain ⟨q, hq⟩ := h.feed.holds
  cases hm with
  | test hpoint =>
    apply falls_of_eq rfl
    have hle := w.feed.ring.popper.left_le
    simp only [left, hpoint, hrun, Worker.goto_point, drainBase, Bool.not_false, ↓reduceIte]
    omega
  | pending hpoint hpop =>
    rcases hq.pop_falls hpop with hheld | ⟨hheld, hempty | hleft⟩
    · exact .left _ _ hheld
    · exact absurd hempty (by simp)
    · apply falls_of_eq hheld
      simp only [left, hpoint]
      omega
  | @empty last ring hpoint hpop =>
    rcases hq.pop_falls hpop with hheld | ⟨hheld, -⟩
    · exact .left _ _ hheld
    · apply falls_of_eq hheld
      cases last with
      | true | false =>
        simp only [left, hpoint, Worker.goto_point, drainBase, Bool.false_eq_true, ↓reduceIte]
        omega
  | item hpoint hpop =>
    rcases hq.pop_falls hpop with hheld | ⟨hheld, hempty | hleft⟩
    · exact .left _ _ hheld
    · exact absurd hempty (by simp)
    · apply falls_of_eq hheld
      cases hpop with
      | store hp => simp [hp, Popper.left] at hleft
      | read hp =>
        simp only [left, hpoint, Worker.goto_point, hp, Popper.left]
        omega
  | @send msg last hpoint =>
    apply falls_of_eq rfl
    cases last with
    | true | false =>
      simp only [left, hpoint, Worker.goto_point, drainBase, Bool.false_eq_true, ↓reduceIte]
      omega

/-- The publisher can be brought to its end after `stop` has lowered the flag. -/
theorem publisher_ends (h : Sound dump w) (hrun : w.publisher.running = false) : ∃ as w',
    Path (fun (w : EventDispatcher k) (_ : Unit) ↦ w.step dump .publish) w as w' ∧
      w'.publisher.stopper = w.publisher.stopper ∧ w'.publisher.point = .exited := by
  have hstep (v : EventDispatcher k) (hv : Sound dump v ∧ v.publisher.running = false ∧
      v.publisher.stopper = w.publisher.stopper) (hne : ¬v.publisher.point = .exited) :
      ∃ (_ : Unit) (v' : EventDispatcher k), v.step dump .publish = some v' ∧
        (Sound dump v' ∧ v'.publisher.running = false ∧
          v'.publisher.stopper = w.publisher.stopper) ∧ Falls v'.rank v.rank := by
    obtain ⟨hsound, hrun, hstopper⟩ := hv
    have hsome : (v.publisherLoop dump).isSome := publisherLoop_isSome hne
    obtain ⟨v', hv'⟩ := Option.isSome_iff_exists.mp hsome
    have hm := publisherLoop_publishes hv'
    refine ⟨(), v', hv', ⟨hsound.publish hm, ?_⟩, hm.falls hsound hrun⟩
    cases hm with
    | test | pending | empty | item | send => exact ⟨hrun, hstopper⟩
  obtain ⟨as, w', hpath, ⟨-, -, hstopper⟩, hexited⟩ :=
    exists_path falls_wf rank _ _ hstep ⟨h, hrun, rfl⟩
  exact ⟨as, w', hpath, hstopper, hexited⟩

end EventDispatcher

namespace ReplayLogger

variable {k : Fin 32} {dump : Json → String} {w w' : ReplayLogger k}

/-- The steps that the writer has to come, for the lines in the queue. -/
def left (w : ReplayLogger k) : Nat :=
  match w.writer.point with
  | .testing => 7
  | .draining last => drainBase last + w.feed.ring.popper.left
  | .emitting _ last => drainBase last + 4
  | .exited => 0

def rank (w : ReplayLogger k) : Nat × Nat := (w.feed.ring.held, w.left)

/-- A writer that finds the queue empty leaves the drain. -/
private theorem writerLoop_of_loaded {last : Bool} (hw : w.writerLoop = some w')
    (hpoint : w.writer.point = .draining last)
    (hp : w.feed.ring.popper = .loaded w.feed.ring.tail) :
    w'.writer.point = if last then .exited else .testing := by
  rw [writerLoop, hpoint] at hw
  simp only [Feed.pop, Ring.pop, hp, ↓reduceIte] at hw
  obtain rfl := Option.some.inj hw
  rfl

/-- After `stop` has lowered the flag every step brings the writer nearer to its end. -/
theorem writerLoop_falls (hw : w.writerLoop = some w') (h : Sound w)
    (hrun : w.writer.running = false) : Falls w'.rank w.rank := by
  obtain ⟨q, hq⟩ := h.feed.holds
  cases writerLoop_writes hw with
  | test hpoint =>
    apply falls_of_eq rfl
    have hle := w.feed.ring.popper.left_le
    simp only [left, hpoint, hrun, Worker.goto_point, drainBase, Bool.not_false, ↓reduceIte]
    omega
  | skip hpoint hreleased hempty =>
    rw [h.not_empty hreleased] at hempty
    exact absurd hempty (by decide)
  | line hpoint hreleased =>
    apply falls_of_eq rfl
    simp only [left, hpoint, hreleased, Worker.goto_point, Popper.left]
    omega
  | @empty last ring hpoint hpop =>
    rcases hq.pop_falls hpop with hheld | ⟨hheld, -⟩
    · exact .left _ _ hheld
    · apply falls_of_eq hheld
      cases last with
      | true | false =>
        simp only [left, hpoint, Worker.goto_point, drainBase, Bool.false_eq_true, ↓reduceIte]
        omega
  | @advance last _ _ hpoint hnot hpop =>
    rcases hq.pop_falls hpop with hheld | ⟨hheld, rfl | hleft⟩
    · exact .left _ _ hheld
    · cases hpop with
      | miss hp hempty =>
        subst hempty
        have hleave := writerLoop_of_loaded hw hpoint hp
        rw [show _ = WorkerPoint.draining last from hpoint] at hleave
        cases last with
        | true | false => exact absurd hleave (by simp)
    · apply falls_of_eq hheld
      simp only [left, hpoint]
      omega
  | append hpoint hpop =>
    rcases hq.pop_falls hpop with hheld | ⟨hheld, hempty | hleft⟩
    · exact .left _ _ hheld
    · exact absurd hempty (by simp)
    · apply falls_of_eq hheld
      cases hpop with
      | store hp => exact absurd hp (h.order _ _)
      | read hp =>
        simp only [left, hpoint, Worker.goto_point, Popper.left]
        omega

/-- The writer can be brought to its end after `stop` has lowered the flag. -/
theorem writer_ends (h : Sound w) (hrun : w.writer.running = false) : ∃ as w',
    Path (fun (w : ReplayLogger k) (_ : Unit) ↦ w.step dump .write) w as w' ∧
      w'.writer.stopper = w.writer.stopper ∧ w'.writer.point = .exited := by
  have hstep (v : ReplayLogger k) (hv : Sound v ∧ v.writer.running = false ∧
      v.writer.stopper = w.writer.stopper) (hne : ¬v.writer.point = .exited) :
      ∃ (_ : Unit) (v' : ReplayLogger k), v.step dump .write = some v' ∧
        (Sound v' ∧ v'.writer.running = false ∧ v'.writer.stopper = w.writer.stopper) ∧
        Falls v'.rank v.rank := by
    obtain ⟨hsound, hrun, hstopper⟩ := hv
    obtain ⟨v', hv'⟩ := Option.isSome_iff_exists.mp (hsound.writerLoop_isSome hne)
    have hm := writerLoop_writes hv'
    refine ⟨(), v', hv', ⟨hsound.write hm, ?_⟩, writerLoop_falls hv' hsound hrun⟩
    cases hm with
    | test | skip | line | empty | advance | append => exact ⟨hrun, hstopper⟩
  obtain ⟨as, w', hpath, ⟨-, -, hstopper⟩, hexited⟩ :=
    exists_path falls_wf rank _ _ hstep ⟨h, hrun, rfl⟩
  exact ⟨as, w', hpath, hstopper, hexited⟩

end ReplayLogger

/-! ### The receiver and the exchange thread -/

namespace ReceiverPoint

/-- The message that T1 is about to push. -/
def held : ReceiverPoint → List OrderMessage
  | .holding msg => [msg]
  | .testing | .receiving | .exited => []

/-- The steps that T1 has to come. -/
def left : ReceiverPoint → Nat
  | .receiving => 3
  | .holding _ => 2
  | .testing => 1
  | .exited => 0

end ReceiverPoint

/-- The steps that T2 has to come for the message in its hand. -/
def ExchangePoint.left : ExchangePoint → Nat
  | .draining => 5
  | .processing _ => 4
  | .testing => 3
  | .closing => 2
  | .finishing _ => 1
  | .exited => 0

namespace Gateway

variable {k : Fin 32} {w w' : Gateway k}

/-- T1 waits for no one. -/
theorem receiverLoop_isSome (incoming : Option OrderMessage) (hne : w.receiver ≠ .exited) :
    (w.receiverLoop incoming).isSome := by
  unfold receiverLoop
  split
  · rfl
  · split
    · rfl
    · rfl
  · split
    · rfl
    · rfl
  · next hexited => exact absurd hexited hne

/-- Nor does T2, if the engine answers the message in its hand. -/
theorem exchangeLoop_isSome {fuel : Nat} {now ts : Timestamp} (hne : w.exchanger ≠ .exited)
    (hanswer : ∀ msg ∈ w.exchanger.inHand, ∃ a, w.exchange.process fuel now ts msg = .ok a) :
    (w.exchangeLoop fuel now ts).isSome := by
  have hprocess {p : ExchangePoint} {msg : OrderMessage} (hmsg : msg ∈ w.exchanger.inHand) :
      (({ w with exchanger := p } : Gateway k).process msg fuel now ts).isSome := by
    obtain ⟨a, ha⟩ := hanswer msg hmsg
    rw [process, ha]
    rfl
  unfold exchangeLoop
  split
  · rfl
  · split
    · rfl
    · rfl
  · next hpoint => exact hprocess (by rw [hpoint]; exact List.mem_cons_self)
  · split
    · rfl
    · rfl
  · next hpoint => exact hprocess (by rw [hpoint]; exact List.mem_cons_self)
  · next hexited => exact absurd hexited hne

/-- What T1 does when nothing more comes in. -/
structure Quiet (w w' : Gateway k) : Prop where
  running : w'.running = w.running
  stopper : w'.stopper = w.stopper
  accepted : (w'.accepted ++ w'.receiver.held).Sublist (w.accepted ++ w.receiver.held)

private theorem receiverLoop_quiet (h : w.receiverLoop none = some w') : Quiet w w' := by
  unfold receiverLoop at h
  split at h
  · next hpoint =>
    obtain rfl := Option.some.inj h
    refine ⟨rfl, rfl, ?_⟩
    rw [hpoint]
    cases w.running <;> exact List.Sublist.refl _
  · next hpoint =>
    obtain rfl := Option.some.inj h
    refine ⟨rfl, rfl, ?_⟩
    rw [hpoint]
    exact List.Sublist.refl _
  · next hpoint =>
    split at h
    · obtain rfl := Option.some.inj h
      refine ⟨rfl, rfl, ?_⟩
      exact (List.Sublist.refl _).append (List.nil_sublist _)
    · obtain rfl := Option.some.inj h
      refine ⟨rfl, rfl, ?_⟩
      rw [hpoint]
      show (w.accepted ++ [_] ++ []).Sublist _
      rw [List.append_nil]
      exact List.Sublist.refl _
  · exact absurd h (by simp)

/-- After `stop` has lowered the flag every step brings T1 nearer to its end. -/
theorem receiverLoop_falls {incoming : Option OrderMessage} (hrun : w.running = false)
    (h : w.receiverLoop incoming = some w') : w'.receiver.left < w.receiver.left := by
  unfold receiverLoop at h
  split at h
  · next hpoint =>
    obtain rfl := Option.some.inj h
    simp [hpoint, hrun, ReceiverPoint.left]
  · next hpoint =>
    split at h
    · obtain rfl := Option.some.inj h
      simp [hpoint, ReceiverPoint.left]
    · obtain rfl := Option.some.inj h
      simp only [hpoint]
      split
      · exact Nat.lt_succ_self _
      · exact Nat.lt_of_sub_eq_succ rfl
  · next hpoint =>
    split at h
    · obtain rfl := Option.some.inj h
      simp [hpoint, ReceiverPoint.left]
    · obtain rfl := Option.some.inj h
      simp [hpoint, ReceiverPoint.left]
  · exact absurd h (by simp)

/-- T1 can be brought to its end after `stop` has lowered the flag. -/
theorem receiver_ends (hrun : w.running = false) : ∃ as w',
    Path (fun (w : Gateway k) (_ : Unit) ↦ w.receiverLoop none) w as w' ∧
      Quiet w w' ∧ w'.receiver = .exited := by
  refine exists_path Nat.lt_wfRel.wf (·.receiver.left) (fun w' ↦ Quiet w w') _ ?_
    ⟨rfl, rfl, List.Sublist.refl _⟩
  intro v hv hne
  obtain ⟨v', hv'⟩ := Option.isSome_iff_exists.mp (receiverLoop_isSome none hne)
  have hquiet := receiverLoop_quiet hv'
  refine ⟨(), v', hv', ?_, receiverLoop_falls (hv.running.trans hrun) hv'⟩
  exact ⟨hquiet.running.trans hv.running, hquiet.stopper.trans hv.stopper,
    hquiet.accepted.trans hv.accepted⟩

/-- The steps that T2 has to come, for the messages in the queue. -/
def left (w : Gateway k) : Nat :=
  8 * (w.inbound.contents.length + w.exchanger.inHand.length) + w.exchanger.left

theorem exchangeLoop_falls {fuel : Nat} {now ts : Timestamp} (hrun : w.running = false)
    (h : w.exchangeLoop fuel now ts = some w') : w'.left < w.left := by
  have hserve {p : ExchangePoint} {msg : OrderMessage} (hhand : w.exchanger.inHand = [msg])
      (hp : p.inHand = []) (hle : p.left < 8)
      (h : ({ w with exchanger := p } : Gateway k).process msg fuel now ts = some w') :
      w'.left < w.left := by
    unfold process at h
    split at h
    · exact absurd h (by simp)
    · obtain rfl := Option.some.inj h
      simp only [left, hhand, hp, List.length_nil, List.length_singleton]
      omega
  have hempty {p : ExchangePoint} (hhand : w.exchanger.inHand = []) (hp : p.inHand = [])
      (hlt : p.left < w.exchanger.left) :
      ({ w with exchanger := p } : Gateway k).left < w.left := by
    simp only [left, hhand, hp]
    omega
  have htake {p : ExchangePoint} {msg : OrderMessage} {inbound : SpscRing OrderMessage k}
      (hpop : w.inbound.pop = some (msg, inbound)) (hhand : w.exchanger.inHand = [])
      (hp : p.inHand = [msg]) (hlt : p.left < w.exchanger.left) :
      ({ w with inbound := inbound, exchanger := p } : Gateway k).left < w.left := by
    simp only [left, hhand, hp, SpscRing.contents_pop hpop, List.length_cons, List.length_nil]
    omega
  unfold exchangeLoop at h
  split at h
  · next hpoint =>
    obtain rfl := Option.some.inj h
    simp [left, hpoint, hrun, ExchangePoint.left, ExchangePoint.inHand]
  · next hpoint =>
    split at h
    · obtain rfl := Option.some.inj h
      apply hempty (by rw [hpoint]; rfl) rfl
      rw [hpoint]
      decide
    · next hpop =>
      obtain rfl := Option.some.inj h
      apply htake hpop (by rw [hpoint]; rfl) rfl
      rw [hpoint]
      exact Nat.lt_succ_self _
  · next hpoint => exact hserve (by rw [hpoint]; rfl) rfl (by decide) h
  · next hpoint =>
    split at h
    · obtain rfl := Option.some.inj h
      apply hempty (by rw [hpoint]; rfl) rfl
      rw [hpoint]
      decide
    · next hpop =>
      obtain rfl := Option.some.inj h
      apply htake hpop (by rw [hpoint]; rfl) rfl
      rw [hpoint]
      exact Nat.lt_succ_self _
  · next hpoint => exact hserve (by rw [hpoint]; rfl) rfl (by decide) h
  · exact absurd h (by simp)

end Gateway

/-! ### A flag is down once `stop` has been called -/

private theorem Worker.stop_lowered {β : Type} {v v' : Worker β} (h : v.stop = some v')
    (hl : v.stopper ≠ .calling → v.running = false) : v'.running = false := by
  unfold Worker.stop at h
  split at h
  · obtain rfl := Option.some.inj h
    rfl
  · next hjoining _ =>
    obtain rfl := Option.some.inj h
    exact hl (by rw [hjoining]; decide)
  all_goals exact absurd h (by simp)

/-- The caller of `stop` leaves the thread where it is. -/
theorem Worker.stop_point {β : Type} {v v' : Worker β} (h : v.stop = some v') :
    v'.point = v.point := by
  unfold Worker.stop at h
  split at h
  · obtain rfl := Option.some.inj h
    rfl
  · obtain rfl := Option.some.inj h
    rfl
  all_goals exact absurd h (by simp)

/-- A thread that has ended is joined. -/
theorem Worker.stop_of_joining {β : Type} {v : Worker β} (h : v.stopper = .joining)
    (hexited : v.point = .exited) : v.stop = some { v with stopper := .returned } := by
  unfold Worker.stop
  rw [h, hexited]

/-- The call of `stop` on a thread. -/
theorem Worker.stop_of_calling {β : Type} {v : Worker β} (h : v.Sound)
    (hc : v.stopper = .calling) :
    v.stop = some { v with running := false, stopper := .joining } := by
  unfold Worker.stop
  rw [hc, h.calling hc]
  cases v.point <;> rfl

theorem Gateway.step_lowered {k : Fin 32} {w w' : Gateway k} {a : GatewayStep}
    (h : w.step a = some w') (hl : w.stopper ≠ .calling → w.running = false) :
    w'.stopper ≠ .calling → w'.running = false := by
  cases a with
  | receiver incoming =>
    cases receiverLoop_move h with
    | receive | accept => exact hl
  | exchange fuel now ts =>
    cases exchangeLoop_move h with
    | idle | take | serve => exact hl
  | stop =>
    intro _
    change w.stop = some w' at h
    unfold stop at h
    split at h
    · obtain rfl := Option.some.inj h
      rfl
    · next hjoining =>
      split at h
      · obtain rfl := Option.some.inj h
        exact hl (by rw [hjoining]; decide)
      · exact absurd h (by simp)
    · next hjoining =>
      split at h
      · obtain rfl := Option.some.inj h
        exact hl (by rw [hjoining]; decide)
      · exact absurd h (by simp)
    · exact absurd h (by simp)

theorem EventDispatcher.step_lowered {k : Fin 32} {dump : Json → String}
    {w w' : EventDispatcher k} {a : DispatcherStep} (h : w.step dump a = some w')
    (hl : w.publisher.stopper ≠ .calling → w.publisher.running = false) :
    w'.publisher.stopper ≠ .calling → w'.publisher.running = false := by
  cases a with
  | enqueue | push | finish =>
    obtain ⟨feed, -, rfl⟩ := Option.map_eq_some_iff.mp h
    exact hl
  | publish =>
    cases publisherLoop_publishes h with
    | test | pending | empty | item | send => exact hl
  | stop =>
    obtain ⟨publisher, hstop, rfl⟩ := Option.map_eq_some_iff.mp h
    exact fun _ ↦ Worker.stop_lowered hstop hl

theorem ReplayLogger.step_lowered {k : Fin 32} {dump : Json → String}
    {w w' : ReplayLogger k} {a : LoggerStep} (h : w.step dump a = some w')
    (hl : w.writer.stopper ≠ .calling → w.writer.running = false) :
    w'.writer.stopper ≠ .calling → w'.writer.running = false := by
  cases a with
  | log | push | finish =>
    obtain ⟨feed, -, rfl⟩ := Option.map_eq_some_iff.mp h
    exact hl
  | write =>
    cases writerLoop_writes h with
    | test | skip | line | empty | advance | append => exact hl
  | stop =>
    obtain ⟨writer, hstop, rfl⟩ := Option.map_eq_some_iff.mp h
    exact fun _ ↦ Worker.stop_lowered hstop hl

end LobEngine
