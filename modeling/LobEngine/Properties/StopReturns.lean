import LobEngine.Properties.Delivery
import LobEngine.Gateway.Threads
import LobEngine.Refinement.Sessions

/-!
# `stop` returns

No thread of the service waits for another one, apart from the joins in `stop`: each can take its
next step until it ends. So `stop` can be brought to its end from every state.
-/

namespace LobEngine

open RingProtocol Interleaving

/-! ### The engines answer, and every instrument has a snapshot -/

/-- With distinct identifiers the next message is answered. -/
theorem Serial.answers {msgs : List OrderMessage} {m : ExchangeManager}
    {evs : List ExchangeEvent} (h : Serial msgs m evs) {msg : OrderMessage}
    (hd : DistinctIds (msgs ++ [msg])) (now ts : Timestamp) :
    ∃ fuel a, m.process fuel now ts msg = .ok a := by
  obtain ⟨outs, hsession, -⟩ := h.session
  cases hi : m.index[msg.symbol]? with
  | none =>
    have hanswers : m.Answers now ts msg m [] := ExchangeManager.answers_unknown hi
    obtain ⟨N, hN⟩ := hanswers.eventually
    exact ⟨N + 1, _, hN (N + 1) (Nat.lt_succ_self N)⟩
  | some i =>
    obtain ⟨es, rs, t, -, href, hf, -⟩ := hsession.refines hd hi now
    obtain ⟨s', t', r, -, -, -, hanswers⟩ := href.answers hf hi ts
    obtain ⟨N, hN⟩ := hanswers.eventually
    exact ⟨N + 1, _, hN (N + 1) (Nat.lt_succ_self N)⟩

namespace ExchangeManager

/-- The index holds the symbol of every instrument. -/
def Indexed (m : ExchangeManager) : Prop :=
  ∀ i : Fin instrumentCount, (m.index[(m.instruments.get i).symbol]?).isSome

private theorem indexed_init : init.Indexed := by
  have hfold (is : List (Fin instrumentCount)) (index : Std.ExtTreeMap String (Fin instrumentCount))
      (sym : String) (h : (index[sym]?).isSome ∨ ∃ i ∈ is, symbolAt i = sym) :
      ((is.foldl (fun index i ↦ index.insert (symbolAt i) i) index)[sym]?).isSome := by
    induction is generalizing index with
    | nil => simpa using h
    | cons i is ih =>
      apply ih
      rw [Std.ExtTreeMap.getElem?_insert]
      split
      · exact .inl rfl
      · next hne =>
        rcases h with h | ⟨j, hj, rfl⟩
        · exact .inl h
        · rcases List.mem_cons.mp hj with rfl | hj
          · exact absurd Std.ReflCmp.compare_self hne
          · exact .inr ⟨j, hj, rfl⟩
  intro i
  apply hfold
  refine .inr ⟨i, List.mem_finRange i, ?_⟩
  show symbolAt i = init.instruments[i].symbol
  simp [init]

/-- The symbol of every instrument stays the same. -/
theorem Indexed.process {m m' : ExchangeManager} {fuel : Nat} {now ts : Timestamp}
    {msg : OrderMessage} {out : List ExchangeEvent} (h : m.Indexed)
    (hp : m.process fuel now ts msg = .ok (m', out)) : m'.Indexed := by
  rcases process_ok hp with ⟨-, rfl, -⟩ | ⟨j, s', r, -, -, rfl, -⟩
  · exact h
  · intro i
    have hsymbol :
        ((m.setEngine j s').instruments.get i).symbol = (m.instruments.get i).symbol := by
      show (m.setEngine j s').instruments[i].symbol = m.instruments[i].symbol
      simp only [setEngine, Fin.getElem_fin, Vector.getElem_set]
      split
      · next hij =>
        obtain rfl := Fin.ext hij
        rfl
      · rfl
    rw [hsymbol]
    exact h i

theorem Indexed.snapshotAll {m : ExchangeManager} (h : m.Indexed)
    (stamps : Fin instrumentCount → Timestamp) : (m.snapshotAll stamps).isSome := by
  have hmap (is : List (Fin instrumentCount)) :
      (is.mapM fun i ↦ m.snapshot (stamps i) m.instruments[i].symbol).isSome := by
    induction is with
    | nil => rfl
    | cons i is ih =>
      obtain ⟨j, hj⟩ : ∃ j, m.index[m.instruments[i].symbol]? = some j :=
        Option.isSome_iff_exists.mp (h i)
      obtain ⟨snaps, hsnaps⟩ := Option.isSome_iff_exists.mp ih
      rw [List.mapM_cons, hsnaps, snapshot, engine?, hj]
      rfl
  exact hmap _

end ExchangeManager

private theorem Serial.indexed {msgs : List OrderMessage} {m : ExchangeManager}
    {evs : List ExchangeEvent} (h : Serial msgs m evs) : m.Indexed := by
  induction h with
  | nil => exact ExchangeManager.indexed_init
  | order _ hprocess ih => exact ih.process hprocess
  | snapshots _ _ ih => exact ih

namespace ExchangeService

variable {i o r : Fin 32} {dump : Json → String} {interval first : Int}
  {w w' : ExchangeService i o r} {as : List ServiceStep}

/-! ### T2 waits for no one -/

private theorem Consistent.advance_isSome {x : ExchangeInput} (h : Consistent dump w)
    (hdispatcher : w.dispatcher.feed.feeder = .idle) (hreplay : w.replay.feed.feeder = .idle)
    (hne : w.core.exchanger ≠ .exited)
    (hanswer : ∀ msg ∈ w.core.exchanger.inHand, ∃ a,
      w.core.exchange.process x.fuel x.now x.ts msg = .ok a) :
    (w.advance dump interval x).isSome := by
  obtain ⟨core, hcore⟩ := Option.isSome_iff_exists.mp
    (Gateway.exchangeLoop_isSome hne hanswer)
  unfold advance
  rw [hcore]
  simp only
  split
  · rfl
  · rfl
  · next hpoint =>
    split
    · unfold snapshotIfDue
      split
      · rw [Option.isSome_map]
        obtain ⟨-, hexchange⟩ := (Gateway.exchangeLoop_move hcore).keeps (by rw [hpoint]; rfl)
        show (core.exchange.snapshotAll _).isSome
        rw [hexchange]
        exact h.serial.indexed.snapshotAll _
      · rfl
    · rfl
  · next hpoint =>
    obtain ⟨a, ha⟩ := hanswer _ (by rw [hpoint]; exact List.mem_cons_self)
    rw [ha]
    rfl
  · next hpoint =>
    obtain ⟨a, ha⟩ := hanswer _ (by rw [hpoint]; exact List.mem_cons_self)
    rw [ha]
    rfl
  · split
    · obtain ⟨feed, hfeed⟩ := Option.isSome_iff_exists.mp (Feed.finish_isSome hdispatcher)
      obtain ⟨feed', hfeed'⟩ := Option.isSome_iff_exists.mp (Feed.finish_isSome hreplay)
      simp only [ExchangeService.finish, EventDispatcher.step, ReplayLogger.step, hfeed, hfeed']
      rfl
    · rfl

/-- T2 can take a step until it ends, if the engine answers the message in its hand once there is
no call left to make. -/
theorem Consistent.exchangeLoop_isSome {x : ExchangeInput} (h : Consistent dump w)
    (hne : w.core.exchanger ≠ .exited)
    (hanswer : w.backlog = (0, 0) → ∀ msg ∈ w.core.exchanger.inHand, ∃ a,
      w.core.exchange.process x.fuel x.now x.ts msg = .ok a) :
    (w.exchangeLoop dump interval x).isSome := by
  obtain ⟨hopen, hopen'⟩ := h.opened hne
  unfold exchangeLoop
  split
  · next hcall =>
    rw [Option.isSome_map]
    show (Option.map _ _).isSome
    rw [Option.isSome_map]
    exact Feed.push_isSome _ hcall
  · next hreplay =>
    have hidle' := (not_not.mp hreplay).idle hopen'
    split
    · next hcall =>
      rw [Option.isSome_map]
      show (Option.map _ _).isSome
      rw [Option.isSome_map]
      exact Feed.push_isSome _ hcall
    · next hdispatcher =>
      have hidle := (not_not.mp hdispatcher).idle hopen
      split
      · rw [Option.isSome_map]
        show (Option.map _ _).isSome
        rw [Option.isSome_map]
        exact Feed.call_isSome _ hidle'
      · rw [Option.isSome_map]
        show (Option.map _ _).isSome
        rw [Option.isSome_map]
        exact Feed.call_isSome _ hidle
      · next hcalls =>
        refine h.advance_isSome hidle hidle' hne (hanswer ?_)
        rw [backlog, hcalls, Feed.left_eq_zero.mpr (not_not.mp hreplay),
          Feed.left_eq_zero.mpr (not_not.mp hdispatcher)]
        rfl

/-- The steps that T2 has to come: for messages, for calls and in a call. -/
def rank (w : ExchangeService i o r) : Nat × Nat × Nat :=
  (w.core.left, w.calls.length, w.replay.feed.left + w.dispatcher.feed.left)

/-- Triples that fall in the first number, or keep it and fall in the other two. -/
abbrev Below : Nat × Nat × Nat → Nat × Nat × Nat → Prop := Prod.Lex (· < ·) Falls

theorem below_wf : WellFounded Below := Nat.lt_wfRel.wf.prod_lex falls_wf

/-- After `stop` has lowered the flag every step brings T2 nearer to its end. -/
theorem exchangeLoop_falls {x : ExchangeInput} (hrun : w.core.running = false)
    (h : w.exchangeLoop dump interval x = some w') : Below w'.rank w.rank := by
  rcases exchangeLoop_cases h with ⟨hcore, hfalls⟩ | ⟨-, hadvance⟩
  · have hrank : w'.rank = (w.core.left, w'.backlog) := by
      rw [← hcore]
      rfl
    rw [hrank]
    exact .right _ hfalls
  · exact .left _ _ (Gateway.exchangeLoop_falls hrun (advance_core hadvance))

end ExchangeService

namespace ExchangeService

variable {i o r : Fin 32} {dump : Json → String} {interval first : Int}
  {w w' w'' : ExchangeService i o r} {as : List ServiceStep}

structure Lowered (w : ExchangeService i o r) : Prop where
  core : w.core.stopper ≠ .calling → w.core.running = false
  publisher : w.dispatcher.publisher.stopper ≠ .calling → w.dispatcher.publisher.running = false
  writer : w.replay.writer.stopper ≠ .calling → w.replay.writer.running = false

theorem Lowered.move (h : Lowered w) (hm : w.Moves dump w') : Lowered w' := by
  cases hm with
  | core hstep =>
    exact ⟨Gateway.step_lowered hstep h.core, h.publisher, h.writer⟩
  | answer _ hstep => exact ⟨Gateway.step_lowered hstep h.core, h.publisher, h.writer⟩
  | snapshots _ hstep => exact ⟨Gateway.step_lowered hstep h.core, h.publisher, h.writer⟩
  | finish _ hstep _ _ _ hdispatcher hreplay =>
    exact ⟨Gateway.step_lowered hstep h.core, EventDispatcher.step_lowered hdispatcher h.publisher,
      ReplayLogger.step_lowered hreplay h.writer⟩
  | dispatcher hstep =>
    exact ⟨h.core, EventDispatcher.step_lowered hstep h.publisher, h.writer⟩
  | replay hstep => exact ⟨h.core, h.publisher, ReplayLogger.step_lowered hstep h.writer⟩

/-- What holds of a state and of those that it leads to. -/
structure Live (dump : Json → String) (w : ExchangeService i o r) : Prop where
  consistent : Consistent dump w
  lowered : Lowered w

theorem Live.move {a : ServiceStep} (h : Live dump w) (hs : w.step dump interval a = some w') :
    Live dump w' := ⟨h.consistent.move (step_moves hs), h.lowered.move (step_moves hs)⟩

theorem Live.path (h : Live dump w) (hp : Path (step dump interval) w as w') : Live dump w' :=
  hp.preserves (fun _ _ _ hv hs ↦ hv.move hs) h

theorem live_started (dump : Json → String) (i o r : Fin 32) (first : Int) :
    Live dump (started i o r first) where
  consistent := consistent_started dump i o r first
  lowered := ⟨fun h ↦ absurd rfl h, fun h ↦ absurd rfl h, fun h ↦ absurd rfl h⟩

/-! ### From every state to the end of `stop` -/

/-- Some steps lead from one state to the other. -/
def Reaches (dump : Json → String) (interval : Int) (w w' : ExchangeService i o r) : Prop :=
  ∃ as, Path (step dump interval) w as w'

theorem Reaches.refl (w : ExchangeService i o r) : Reaches dump interval w w := ⟨[], .nil⟩

theorem Reaches.trans (h : Reaches dump interval w w') (h' : Reaches dump interval w' w'') :
    Reaches dump interval w w'' := by
  obtain ⟨as, has⟩ := h
  obtain ⟨bs, hbs⟩ := h'
  exact ⟨as ++ bs, has.trans hbs⟩

theorem Reaches.single {a : ServiceStep} (h : w.step dump interval a = some w') :
    Reaches dump interval w w' := ⟨[a], Path.nil.snoc h⟩

theorem Reaches.live (h : Reaches dump interval w w') (hw : Live dump w) : Live dump w' := by
  obtain ⟨as, has⟩ := h
  exact hw.path has

theorem stop_core (h : w.core.stopper ≠ .returned) :
    w.stop dump = w.core.stop.map fun core ↦ { w with core := core } := by
  unfold stop
  split
  · next hr _ => exact absurd hr h
  · next hr _ => exact absurd hr h
  · rfl

theorem stop_dispatcher (h : w.core.stopper = .returned)
    (hne : w.dispatcher.publisher.stopper ≠ .returned) :
    w.stop dump = (w.dispatcher.publisher.stop).map fun publisher ↦
      { w with dispatcher := { w.dispatcher with publisher := publisher } } := by
  unfold stop
  split
  · next hr => exact absurd hr hne
  · show Option.map _ (Option.map _ _) = _
    rw [Option.map_map]
    rfl
  · next hother _ => exact absurd h (hother · )

theorem stop_replay (h : w.core.stopper = .returned)
    (hd : w.dispatcher.publisher.stopper = .returned) :
    w.stop dump = (w.replay.writer.stop).map fun writer ↦
      { w with replay := { w.replay with writer := writer } } := by
  unfold stop
  rw [h, hd]
  show Option.map _ (Option.map _ _) = _
  rw [Option.map_map]
  rfl

/-- `stop` can be called. -/
private theorem exists_called (dump : Json → String) (interval : Int) (w : ExchangeService i o r) :
    ∃ w', Reaches dump interval w w' ∧ w'.core.stopper ≠ .calling ∧
      w'.core.accepted = w.core.accepted ∧ w'.core.receiver = w.core.receiver := by
  by_cases hc : w.core.stopper = .calling
  · have hstop : w.step dump interval .stop = some { w with core :=
        { w.core with
          running := false
          stopper := if w.core.running then .joiningReceiver else .returned } } := by
      show w.stop dump = _
      rw [stop_core (by rw [hc]; decide), Gateway.stop, hc]
      rfl
    refine ⟨_, .single hstop, ?_, rfl, rfl⟩
    simp only
    split
    · decide
    · decide
  · exact ⟨w, .refl w, hc, rfl, rfl⟩

/-- T1 can be brought to its end. -/
private theorem exists_received (dump : Json → String) (interval : Int)
    (hrun : w.core.running = false) :
    ∃ w', Reaches dump interval w w' ∧ Gateway.Quiet w.core w'.core ∧
      w'.core.receiver = .exited := by
  obtain ⟨as, core, hpath, hquiet, hexited⟩ := Gateway.receiver_ends hrun
  have hlift : Path (step dump interval) w (as.map fun _ ↦ .receiver none)
      { w with core := core } := by
    apply hpath.lift fun core ↦ ({ w with core := core } : ExchangeService i o r)
    intro v _ v' hv
    show (v.receiverLoop none).map _ = _
    rw [hv]
    rfl
  exact ⟨_, ⟨_, hlift⟩, hquiet, hexited⟩

/-- What T2 leaves alone. -/
structure Served (w w' : ExchangeService i o r) : Prop where
  running : w'.core.running = w.core.running
  receiver : w'.core.receiver = w.core.receiver
  stopper : w'.core.stopper = w.core.stopper
  accepted : w'.core.accepted = w.core.accepted

theorem Served.exchange {x : ExchangeInput} (h : Served w w')
    (hs : w'.exchangeLoop dump interval x = some w'') : Served w w'' := by
  rcases exchangeLoop_core hs with hcore | hcore
  · obtain ⟨hrunning, hreceiver, hstopper, haccepted⟩ := h
    constructor
    all_goals rwa [hcore]
  · have hmove := Gateway.exchangeLoop_move hcore
    obtain ⟨hrunning, hreceiver, haccepted⟩ := hmove.exchange_frame
    constructor
    · exact hrunning.trans h.running
    · exact hreceiver.trans h.receiver
    · exact hmove.exchange_stopper.trans h.stopper
    · exact haccepted.trans h.accepted

/-- With distinct identifiers the engine answers the message in the hand of T2. -/
theorem Consistent.answers (h : Consistent dump w) (hd : DistinctIds w.core.accepted) :
    ∃ fuel, ∀ msg ∈ w.core.exchanger.inHand, ∃ a,
      w.core.exchange.process fuel 0 0 msg = .ok a := by
  have horder := h.core.order
  rcases hpoint : w.core.exchanger.inHand with _ | ⟨msg, rest⟩
  · exact ⟨0, fun _ hmsg ↦ absurd hmsg List.not_mem_nil⟩
  · obtain rfl : rest = [] := by
      cases he : w.core.exchanger with
      | processing | finishing =>
        rw [he] at hpoint
        exact (List.cons.inj hpoint).2.symm
      | testing | draining | closing | exited =>
        rw [he] at hpoint
        exact absurd hpoint (by simp [ExchangePoint.inHand])
    rw [hpoint] at horder
    obtain ⟨fuel, a, ha⟩ := h.serial.answers
      (hd.sublist (horder ▸ List.sublist_append_left _ _)) 0 0
    refine ⟨fuel, fun msg' hmsg ↦ ?_⟩
    obtain rfl := List.mem_singleton.mp hmsg
    exact ⟨a, ha⟩

/-- With distinct identifiers T2 can take a step until it ends. -/
theorem exists_exchangeLoop (interval : Int) (hw : Consistent dump w)
    (hd : DistinctIds w.core.accepted) (hne : w.core.exchanger ≠ .exited) :
    ∃ x w', w.exchangeLoop dump interval x = some w' := by
  obtain ⟨fuel, hfuel⟩ := hw.answers hd
  have hsome : (w.exchangeLoop dump interval
      ⟨fuel, 0, 0, 0, fun _ ↦ 0, .orderAccepted {}, ""⟩).isSome :=
    hw.exchangeLoop_isSome hne fun _ ↦ hfuel
  exact ⟨_, Option.isSome_iff_exists.mp hsome⟩

/-- T2 can be brought to its end. -/
private theorem exists_exchanged (interval : Int) (hw : Live dump w) (hrun : w.core.running = false)
    (hd : DistinctIds w.core.accepted) : ∃ w', Reaches dump interval w w' ∧
      Served w w' ∧ w'.core.exchanger = .exited := by
  have hstep (v : ExchangeService i o r) (hv : Live dump v ∧ Served w v)
      (hne : ¬v.core.exchanger = .exited) : ∃ a v', v.step dump interval a = some v' ∧
        (Live dump v' ∧ Served w v') ∧ Below v'.rank v.rank := by
    obtain ⟨x, v', hv'⟩ := exists_exchangeLoop interval hv.1.consistent (hv.2.accepted ▸ hd) hne
    have hfalls := exchangeLoop_falls (hv.2.running.trans hrun) hv'
    have hs : v.step dump interval (.exchange x) = some v' := hv'
    exact ⟨.exchange x, v', hs, ⟨hv.1.move hs, hv.2.exchange hv'⟩, hfalls⟩
  obtain ⟨as, w', hpath, ⟨-, hserved⟩, hexited⟩ :=
    exists_path below_wf rank _ _ hstep ⟨hw, rfl, rfl, rfl, rfl⟩
  exact ⟨w', ⟨as, hpath⟩, hserved, hexited⟩

/-- The two joins of `stop`. -/
private theorem exists_joined (dump : Json → String) (interval : Int)
    (hc : w.core.stopper ≠ .calling)
    (hreceiver : w.core.receiver = .exited) (hexchanger : w.core.exchanger = .exited) :
    ∃ w', Reaches dump interval w w' ∧ w'.core.stopper = .returned := by
  have hlast (v : ExchangeService i o r) (hv : v.core.stopper = .joiningExchange)
      (he : v.core.exchanger = .exited) :
      ∃ w', Reaches dump interval v w' ∧ w'.core.stopper = .returned := by
    have hstop : v.step dump interval .stop =
        some { v with core := { v.core with stopper := .returned } } := by
      show v.stop dump = _
      rw [stop_core (by rw [hv]; decide), Gateway.stop, hv]
      simp only [he, ↓reduceIte]
      rfl
    exact ⟨_, .single hstop, rfl⟩
  cases hs : w.core.stopper with
  | calling => exact absurd hs hc
  | joiningReceiver =>
    have hstop : w.step dump interval .stop =
        some { w with core := { w.core with stopper := .joiningExchange } } := by
      show w.stop dump = _
      rw [stop_core (by rw [hs]; decide), Gateway.stop, hs]
      simp only [hreceiver, ↓reduceIte]
      rfl
    obtain ⟨w', hreaches, hr⟩ :=
      hlast { w with core := { w.core with stopper := .joiningExchange } } rfl hexchanger
    exact ⟨w', (Reaches.single hstop).trans hreaches, hr⟩
  | joiningExchange => exact hlast w hs hexchanger
  | returned => exact ⟨w, .refl w, hs⟩

/-- The stop of the dispatcher. -/
private theorem exists_published (interval : Int) (hw : Live dump w)
    (hr : w.core.stopper = .returned) :
    ∃ w', Reaches dump interval w w' ∧ w'.core.stopper = .returned ∧
      w'.dispatcher.publisher.stopper = .returned := by
  have hlast (v : ExchangeService i o r) (hv : Live dump v) (hr : v.core.stopper = .returned)
      (hj : v.dispatcher.publisher.stopper = .joining) : ∃ w', Reaches dump interval v w' ∧
        w'.core.stopper = .returned ∧ w'.dispatcher.publisher.stopper = .returned := by
    obtain ⟨as, dispatcher, hpath, hstopper, hexited⟩ :=
      EventDispatcher.publisher_ends hv.consistent.dispatcher
        (hv.lowered.publisher (by rw [hj]; decide))
    have hlift : Path (step dump interval) v (as.map fun _ ↦ .publish)
        { v with dispatcher := dispatcher } := by
      apply hpath.lift fun dispatcher ↦
        ({ v with dispatcher := dispatcher } : ExchangeService i o r)
      intro d _ d' hd
      show (d.step dump .publish).map _ = _
      rw [hd]
      rfl
    have hj' := hstopper.trans hj
    have hstop : step dump interval { v with dispatcher := dispatcher } .stop = _ :=
      stop_dispatcher hr (by rw [hj']; decide)
    rw [Worker.stop_of_joining hj' hexited] at hstop
    exact ⟨_, .trans ⟨_, hlift⟩ (.single hstop), hr, rfl⟩
  cases hs : w.dispatcher.publisher.stopper with
  | calling =>
    have hstop : w.step dump interval .stop = _ := stop_dispatcher hr (by rw [hs]; decide)
    rw [Worker.stop_of_calling hw.consistent.dispatcher.publisher hs] at hstop
    obtain ⟨w', hreaches, hreturned⟩ := hlast _ (hw.move hstop) hr rfl
    exact ⟨w', (Reaches.single hstop).trans hreaches, hreturned⟩
  | joining => exact hlast w hw hr hs
  | returned => exact ⟨w, .refl w, hr, hs⟩

/-- The stop of the logger. -/
private theorem exists_written (interval : Int) (hw : Live dump w) (hr : w.core.stopper = .returned)
    (hd : w.dispatcher.publisher.stopper = .returned) :
    ∃ w', Reaches dump interval w w' ∧ w'.replay.writer.stopper = .returned := by
  have hlast (v : ExchangeService i o r) (hv : Live dump v) (hr : v.core.stopper = .returned)
      (hd : v.dispatcher.publisher.stopper = .returned) (hj : v.replay.writer.stopper = .joining) :
      ∃ w', Reaches dump interval v w' ∧ w'.replay.writer.stopper = .returned := by
    obtain ⟨as, replay, hpath, hstopper, hexited⟩ :=
      ReplayLogger.writer_ends hv.consistent.replay (hv.lowered.writer (by rw [hj]; decide))
    have hlift : Path (step dump interval) v (as.map fun _ ↦ .write)
        { v with replay := replay } := by
      apply hpath.lift fun replay ↦ ({ v with replay := replay } : ExchangeService i o r)
      intro d _ d' hd
      show (d.step dump .write).map _ = _
      rw [hd]
      rfl
    have hj' := hstopper.trans hj
    have hstop : step dump interval { v with replay := replay } .stop = _ := stop_replay hr hd
    rw [Worker.stop_of_joining hj' hexited] at hstop
    exact ⟨_, .trans ⟨_, hlift⟩ (.single hstop), rfl⟩
  have hstop : w.step dump interval .stop = _ := stop_replay hr hd
  cases hs : w.replay.writer.stopper with
  | calling =>
    rw [Worker.stop_of_calling hw.consistent.replay.writer hs] at hstop
    obtain ⟨w', hreaches, hreturned⟩ := hlast _ (hw.move hstop) hr hd rfl
    exact ⟨w', (Reaches.single hstop).trans hreaches, hreturned⟩
  | joining => exact hlast w hw hr hd hs
  | returned => exact ⟨w, .refl w, hs⟩

/-- From every state that the threads can reach, whatever the order of their steps, `stop` can be
brought to its end, as long as the received orders carry distinct identifiers. -/
theorem stop_can_return (h : Path (step dump interval) (started i o r first) as w)
    (hd : DistinctIds (w.core.accepted ++ w.core.receiver.held)) :
    ∃ bs w', Path (step dump interval) w bs w' ∧ w'.replay.writer.stopper = .returned := by
  have hw := (live_started dump i o r first).path h
  obtain ⟨w₁, h₁, hcalled, haccepted, hreceiver⟩ := exists_called dump interval w
  have hw₁ := h₁.live hw
  have hrun₁ := hw₁.lowered.core hcalled
  obtain ⟨w₂, h₂, hquiet, hexited⟩ := exists_received dump interval hrun₁
  have hw₂ := h₂.live hw₁
  have hd₂ : DistinctIds w₂.core.accepted := by
    rw [← haccepted, ← hreceiver] at hd
    exact hd.sublist ((List.sublist_append_left _ _).trans hquiet.accepted)
  obtain ⟨w₃, h₃, hserved, hexited'⟩ :=
    exists_exchanged interval hw₂ (hquiet.running.trans hrun₁) hd₂
  have hw₃ := h₃.live hw₂
  have hcalled₃ : w₃.core.stopper ≠ .calling := by
    rw [hserved.stopper, hquiet.stopper]
    exact hcalled
  obtain ⟨w₄, h₄, hr⟩ :=
    exists_joined dump interval hcalled₃ (hserved.receiver.trans hexited) hexited'
  have hw₄ := h₄.live hw₃
  obtain ⟨w₅, h₅, hr', hdispatcher⟩ := exists_published interval hw₄ hr
  have hw₅ := h₅.live hw₄
  obtain ⟨w₆, h₆, hreturned⟩ := exists_written interval hw₅ hr' hdispatcher
  obtain ⟨bs, hbs⟩ := ((((h₁.trans h₂).trans h₃).trans h₄).trans h₅).trans h₆
  exact ⟨bs, w₆, hbs, hreturned⟩

/-- Two orders have come in; T2 has the first in its hand, T1 the second. -/
private def twoOrders : List ServiceStep :=
  [.receiver none,
    .receiver (some { orderId := 1, symbol := "STOCK_1", quantity := 5, price := 100 }),
    .receiver none, .receiver none,
    .receiver (some { orderId := 2, symbol := "STOCK_1", quantity := 5, price := 100 })] ++
    List.replicate 2 (.exchange ⟨50, 0, 7, 0, fun _ ↦ 0, .orderAccepted {}, ""⟩)

theorem stop_can_return_two : ∃ w w' : ExchangeService 2 1 1,
    (w.core.accepted ++ w.core.receiver.held).length = 2 ∧
    w.replay.writer.stopper = .calling ∧ w'.replay.writer.stopper = .returned := by
  obtain ⟨w, hw, hd, htwo, hcalling⟩ : ∃ w ∈ run (step (fun _ ↦ "") 100) twoOrders
      (started 2 1 1 5), DistinctIds (w.core.accepted ++ w.core.receiver.held) ∧
      (w.core.accepted ++ w.core.receiver.held).length = 2 ∧
      w.replay.writer.stopper = .calling := by decide +kernel
  obtain ⟨bs, w', -, hr⟩ := stop_can_return (Path.nil.run hw) hd
  exact ⟨w, w', htwo, hcalling, hr⟩

/-- No thread waits for another one: in every state that the threads can reach, each of them can
take its next step until it has ended, T2 if the engine answers the message in its hand. -/
theorem service_never_blocks (h : Path (step dump interval) (started i o r first) as w) :
    (w.core.receiver ≠ .exited →
      ∀ incoming, (w.step dump interval (.receiver incoming)).isSome) ∧
    (w.core.exchanger ≠ .exited → ∀ x : ExchangeInput,
      (∀ msg ∈ w.core.exchanger.inHand, ∃ a,
        w.core.exchange.process x.fuel x.now x.ts msg = .ok a) →
      (w.step dump interval (.exchange x)).isSome) ∧
    (w.dispatcher.publisher.point ≠ .exited → (w.step dump interval .publish).isSome) ∧
    (w.replay.writer.point ≠ .exited → (w.step dump interval .write).isSome) := by
  have hw := path_consistent h
  refine ⟨fun hne incoming ↦ ?_, fun hne x hanswer ↦ ?_, fun hne ↦ ?_, fun hne ↦ ?_⟩
  · show (Option.map _ _).isSome
    rw [Option.isSome_map]
    exact Gateway.receiverLoop_isSome incoming hne
  · exact hw.exchangeLoop_isSome hne fun _ ↦ hanswer
  · show (Option.map _ _).isSome
    rw [Option.isSome_map]
    exact EventDispatcher.publisherLoop_isSome hne
  · show (Option.map _ _).isSome
    rw [Option.isSome_map]
    exact hw.replay.writerLoop_isSome hne

theorem service_never_blocks_two : ∃ (w : ExchangeService 2 1 1) (x : ExchangeInput),
    w.core.exchanger.inHand.length = 1 ∧ (w.step (fun _ ↦ "") 100 (.exchange x)).isSome := by
  obtain ⟨w, hw, hone, hne, hok⟩ : ∃ w ∈ run (step (fun _ ↦ "") 100) twoOrders
      (started 2 1 1 5), w.core.exchanger.inHand.length = 1 ∧ w.core.exchanger ≠ .exited ∧
      ∀ msg ∈ w.core.exchanger.inHand, (w.core.exchange.process 50 0 7 msg).isOk = true := by
    decide +kernel
  obtain ⟨-, hexchange, -⟩ := service_never_blocks (Path.nil.run hw)
  refine ⟨w, ⟨50, 0, 7, 0, fun _ ↦ 0, .orderAccepted {}, ""⟩, hone, hexchange hne _ ?_⟩
  intro msg hmsg
  have hprocess := hok msg hmsg
  cases he : w.core.exchange.process 50 0 7 msg with
  | ok a => exact ⟨a, rfl⟩
  | error f =>
    rw [he] at hprocess
    exact absurd hprocess Bool.false_ne_true

end ExchangeService

end LobEngine
