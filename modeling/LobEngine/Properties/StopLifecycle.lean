import LobEngine.Properties.StopCompleteness
import LobEngine.Refinement.Runs

/-!
# Stops are converted exactly once

Over the whole stack of evaluations the line of stops only ever loses the stop that is being
converted. With distinct identifiers every stop therefore leaves the line once, after a trade
at a price that triggers it and before it trades itself.
-/

namespace LobEngine

open BookOps Engine Stepper

/-- Among the trades there is one that triggers the stop and precedes every trade in which
the stop is the aggressor. -/
def Justified (trades : List Trade) (x : Order) : Prop :=
  ∃ before t after, trades = before ++ t :: after ∧ x.triggeredAt t.price = true ∧
    ∀ t' ∈ before ++ [t], t'.aggressorId ≠ x.id

/-- Later trades do not matter. -/
theorem Justified.append {trades : List Trade} {x : Order} (h : Justified trades x)
    (more : List Trade) : Justified (trades ++ more) x := by
  obtain ⟨before, t, after, rfl, ht, hno⟩ := h
  exact ⟨before, t, after ++ more, by simp, ht, hno⟩

/-- The identifiers of the active aggressors, innermost first. -/
def aggressors (K : List Frame) : List OrderId :=
  K.flatMap fun
    | .matching a => [a.id]
    | .triggers _ _ => []

@[simp] theorem aggressors_matching (a : Order) (K : List Frame) :
    aggressors (.matching a :: K) = a.id :: aggressors K := rfl

@[simp] theorem aggressors_triggers (p : Price) (working : List Order) (K : List Frame) :
    aggressors (.triggers p working :: K) = aggressors K := rfl

/-- The invariant of an event that starts with the stops `line` and converts the stops `own`
at once: the line and the log of conversions together are always the line at the start. -/
structure Tended {B : Type} [BookOps B] (base : List GhostEvent) (own line : List Order)
    (c : Config B) : Prop where
  sublist : List.Sublist c.line line
  log : ∃ log evals, c.engine.ghost = base ++ log ∧ conversions log = own ++ evals ∧
    List.Perm (evals ++ c.line) line ∧ ∀ x ∈ evals, Justified c.result.trades x
  distinct : (aggressors c.stack ++ c.line.map Order.id).Nodup
  silent : ∀ x ∈ c.line, ∀ t ∈ c.result.trades, t.aggressorId ≠ x.id
  prices : ∀ p w, .triggers p w ∈ c.stack → ∃ t ∈ c.result.trades, t.price = p

namespace Tended

variable {B : Type} [BookOps B] {base : List GhostEvent} {own line : List Order}
  {c d : Config B}

/-- An active aggressor is none of the stops of the line. -/
private theorem aggressor_ne {s : Engine B} {a : Order} {K : List Frame} {r : MatchResult}
    (h : Tended base own line ⟨s, .matching a :: K, r⟩) {x : Order}
    (hx : x ∈ Config.line ⟨s, .matching a :: K, r⟩) : a.id ≠ x.id := by
  intro he
  have hd := h.distinct
  rw [aggressors_matching, List.cons_append, List.nodup_cons] at hd
  exact hd.1 (List.mem_append_right _ (he ▸ List.mem_map_of_mem hx))

/-- Starting an evaluation at the price of a trade already made. -/
theorem evaluate (h : Tended base own line c)
    (hp : ∃ t ∈ c.result.trades, t.price = lastTradePrice c.engine.book) :
    Tended base own line (.evaluate c) := by
  have hline := line_evaluate c
  rw [Config.evaluate] at hline ⊢
  split
  · exact h
  · next hne =>
    rw [if_neg hne] at hline
    split
    · exact h
    · next h0 =>
      rw [if_neg h0] at hline
      refine ⟨hline ▸ h.sublist, hline ▸ h.log, ?_, hline ▸ h.silent, fun p w hw ↦ ?_⟩
      · rw [hline]
        exact h.distinct
      · rcases List.mem_cons.mp hw with hw | hw
        · obtain ⟨rfl, rfl⟩ := Frame.triggers.inj hw
          exact hp
        · exact h.prices p w hw

/-- A trade of an active aggressor. -/
theorem trade {s s' : Engine B} {a a' : Order} {K : List Frame} {r : MatchResult} {t : Trade}
    (h : Tended base own line ⟨s, .matching a :: K, r⟩) (ha' : a'.id = a.id)
    (ht : t.aggressorId = a.id) (hp : s'.pendingStops = s.pendingStops)
    (hg : s'.ghost = s.ghost ++ [.fill t]) :
    Tended base own line ⟨s', .matching a' :: K, r.pushTrade t⟩ := by
  have hline : Config.line ⟨s', .matching a' :: K, r.pushTrade t⟩ =
      Config.line ⟨s, .matching a :: K, r⟩ := by
    simp only [Config.line, hp, waiting_matching]
  have htrades : (r.pushTrade t).trades = r.trades ++ [t] := rfl
  obtain ⟨log, evals, hlog, hconv, hperm, hjust⟩ := h.log
  refine ⟨hline ▸ h.sublist, ⟨log ++ [.fill t], evals, ?_, ?_, hline ▸ hperm, ?_⟩, ?_, ?_, ?_⟩
  · simp only [hg]
    rw [show s.ghost = base ++ log from hlog, List.append_assoc]
  · rw [conversions_append, hconv]
    exact List.append_nil _
  · intro x hx
    rw [htrades]
    exact (hjust x hx).append [t]
  · rw [hline, aggressors_matching, ha']
    exact h.distinct
  · intro x hx t' ht'
    rw [hline] at hx
    rw [htrades, List.mem_append, List.mem_singleton] at ht'
    rcases ht' with ht' | rfl
    · exact h.silent x hx t' ht'
    · rw [ht]
      exact h.aggressor_ne hx
  · intro p w hw
    rcases List.mem_cons.mp hw with hw | hw
    · exact absurd hw (by simp)
    · obtain ⟨t', ht', hpr⟩ := h.prices p w (List.mem_cons_of_mem _ hw)
      exact ⟨t', htrades ▸ List.mem_append_left _ ht', hpr⟩

/-- The stop at the head of an evaluation leaves the line. -/
private theorem convert {s : Engine B} {p : Price} {stop : Order} {working : List Order}
    {K : List Frame} {r : MatchResult}
    (h : Tended base own line ⟨s, .triggers p (stop :: working) :: K, r⟩)
    (ht : stop.triggeredAt p = true) :
    Tended base own line (.enterConverted s stop (.triggers p working :: K) r) := by
  have hperm : List.Perm (Config.line ⟨s, .triggers p (stop :: working) :: K, r⟩)
      (stop :: (s.pendingStops ++ (working ++ waiting K))) := List.perm_middle
  have hmem : stop ∈ Config.line ⟨s, .triggers p (stop :: working) :: K, r⟩ :=
    hperm.mem_iff.mpr List.mem_cons_self
  obtain ⟨log, evals, hlog, hconv, hline, hjust⟩ := h.log
  obtain ⟨t, htr, hpr⟩ := h.prices p _ List.mem_cons_self
  refine ⟨?_, ⟨log ++ [.triggered stop], evals ++ [stop], ?_, ?_, ?_, ?_⟩, ?_, ?_, ?_⟩
  · refine List.Sublist.trans ?_ h.sublist
    exact List.Sublist.append_left (List.sublist_cons_self _ _) _
  · change s.ghost ++ [.triggered stop] = _
    rw [show s.ghost = base ++ log from hlog, List.append_assoc]
  · rw [conversions_append, hconv, List.append_assoc]
    rfl
  · refine List.Perm.trans ?_ hline
    rw [List.append_assoc]
    exact hperm.symm.append_left evals
  · intro x hx
    rcases List.mem_append.mp hx with hx | hx
    · exact hjust x hx
    · obtain rfl := List.mem_singleton.mp hx
      obtain ⟨before, after, hsplit⟩ := List.append_of_mem htr
      have hsilent := h.silent x hmem
      rw [hsplit] at hsilent
      refine ⟨before, t, after, hsplit, hpr ▸ ht, fun t' ht' ↦ hsilent t' ?_⟩
      rcases List.mem_append.mp ht' with ht' | ht'
      · exact List.mem_append_left _ ht'
      · exact List.mem_append_right _ (List.mem_singleton.mp ht' ▸ List.mem_cons_self)
  · have hd := h.distinct
    have hids : List.Perm (aggressors (.triggers p (stop :: working) :: K) ++
        (Config.line ⟨s, .triggers p (stop :: working) :: K, r⟩).map Order.id)
        (stop.id :: (aggressors K ++
          (s.pendingStops ++ (working ++ waiting K)).map Order.id)) := by
      refine ((hperm.map Order.id).append_left _).trans ?_
      rw [List.map_cons]
      exact List.perm_middle
    rw [hids.nodup_iff] at hd
    have hid : stop.converted.id = stop.id := converted_id stop
    simpa only [Config.enterConverted, Engine.log, aggressors_matching, aggressors_triggers, hid,
      List.cons_append, Config.line, waiting_matching, waiting_triggers] using hd
  · intro x hx
    refine h.silent x (hperm.mem_iff.mpr (List.mem_cons_of_mem _ ?_))
    exact hx
  · intro q w hw
    rcases List.mem_cons.mp hw with hw | hw
    · exact absurd hw (by simp)
    · rcases List.mem_cons.mp hw with hw | hw
      · obtain ⟨rfl, rfl⟩ := Frame.triggers.inj hw
        exact ⟨t, htr, hpr⟩
      · exact h.prices q w (List.mem_cons_of_mem _ hw)

/-- Every move keeps the invariant. -/
theorem stopStep (h : Tended base own line c) (hs : StopStep c d) : Tended base own line d := by
  cases hs with
  | @left s s' f K r r' g hf hp hl hg hc ht =>
    have hline : Config.line ⟨s', K, r'⟩ = Config.line ⟨s, f :: K, r⟩ := by
      simp only [Config.line, waiting, List.flatMap_cons, hf, List.nil_append, hp]
    obtain ⟨log, evals, hlog, hconv, hperm, hjust⟩ := h.log
    refine ⟨hline ▸ h.sublist, ⟨log ++ g, evals, ?_, ?_, hline ▸ hperm, ?_⟩, ?_, ?_, ?_⟩
    · simp only [hg]
      rw [show s.ghost = base ++ log from hlog, List.append_assoc]
    · rw [conversions_append, hconv, hc, List.append_nil]
    · simpa only [ht] using hjust
    · rw [hline]
      refine h.distinct.sublist (List.Sublist.append_right ?_ _)
      cases f with
      | matching a => exact List.sublist_cons_self _ _
      | triggers p w => exact .refl _
    · rw [hline]
      simpa only [ht] using h.silent
    · intro p w hw
      have hprice := h.prices p w (List.mem_cons_of_mem _ hw)
      simpa only [ht] using hprice
  | @traded s s' a a' K r t ha' ht hp hl hg =>
    refine (h.trade ha' ht hp hg).evaluate ⟨t, ?_, hl.symm⟩
    exact List.mem_append_right _ List.mem_cons_self
  | converted ht => exact h.convert ht
  | @kept s p stop working K r ht =>
    have hline : Config.line ⟨{ s with pendingStops := s.pendingStops ++ [stop] },
        .triggers p working :: K, r⟩ = Config.line ⟨s, .triggers p (stop :: working) :: K, r⟩ := by
      simp only [Config.line, waiting_triggers, List.cons_append, List.append_assoc,
        List.nil_append]
    refine ⟨hline ▸ h.sublist, hline ▸ h.log, ?_, hline ▸ h.silent, fun q w hw ↦ ?_⟩
    · rw [hline]
      exact h.distinct
    · rcases List.mem_cons.mp hw with hw | hw
      · obtain ⟨rfl, rfl⟩ := Frame.triggers.inj hw
        exact h.prices q _ List.mem_cons_self
      · exact h.prices q w (List.mem_cons_of_mem _ hw)

end Tended

/-- The stop that an event adds to the pending stops. -/
def joins {B : Type} [BookOps B] (s : Engine B) (e : OrderEvent) : List Order :=
  match handed s e with
  | some o => if o.isStop && !s.immediatelyTriggered o.accepted then [o.accepted] else []
  | none => []

/-- The stops that an event converts before it compares any pending stop. -/
def convertsAtOnce {B : Type} [BookOps B] (s : Engine B) (e : OrderEvent) : List Order :=
  match handed s e with
  | some o => if o.isStop && s.immediatelyTriggered o.accepted then [o.accepted] else []
  | none => []

/-- What an event does to the pending stops: the stops that stay keep their order, a
submitted stop that waits goes to the back, and every other stop was cancelled by its own
identifier or converted exactly once, after a trade that triggers it. -/
structure StopsKept {B : Type} [BookOps B] (s : Engine B) (e : OrderEvent) (s' : Engine B)
    (r : MatchResult) (added : List Order) : Prop where
  pending : ∃ kept, List.Sublist kept s.pendingStops ∧ s'.pendingStops = kept ++ added
  missing : ∃ log, s'.ghost = s.ghost ++ log ∧ ∀ x ∈ s.pendingStops,
    (x ∈ s'.pendingStops → (conversions log).count x = 0) ∧
    (x ∉ s'.pendingStops →
      ((∃ c, e = .cancelOrder c ∧ c.orderId = x.id) ∧ (conversions log).count x = 0) ∨
      ((conversions log).count x = 1 ∧ Justified r.trades x))

section Events

variable {L : Type} [PriceLevelOps L] {es : List OrderEvent} {e : OrderEvent}
  {s s' : Engine (OrderBook L)} {rs : List MatchResult} {r : MatchResult}

/-- The stops an event starts with, and those it has converted by then. -/
private theorem start_stops (s : Engine (OrderBook L)) (e : OrderEvent) :
    (∃ c stop, e = .cancelOrder c ∧ s.pendingStops.find? (·.id == c.orderId) = some stop ∧
        (Config.start s e).line = s.pendingStops.eraseP (·.id == c.orderId) ∧
        joins s e = [] ∧ convertsAtOnce s e = []) ∨
      (Config.start s e).line = s.pendingStops ++ joins s e ∧
        (joins s e ≠ [] → (Config.start s e).stack = []) := by
  have hstart := stopStart s e
  generalize Config.start s e = c at hstart
  cases hstart with
  | @cancelled e s' r stop hf hp =>
    refine .inl ⟨e, stop, rfl, hf, ?_, rfl, rfl⟩
    simp only [Config.line, hp, waiting_nil, List.append_nil]
  | quiet hno hp =>
    have hj : joins s e = [] := by
      rw [joins]
      split
      · next o ho => rw [hno o ho]; rfl
      · rfl
    rw [hj]
    exact .inr ⟨by simp only [Config.line, hp, waiting_nil], fun h ↦ absurd rfl h⟩
  | matching ho hs _ hp =>
    have hj : joins s e = [] := by simp only [joins, ho, hs, Bool.false_and]; rfl
    rw [hj]
    exact .inr ⟨by simp only [Config.line, hp, waiting_matching, waiting_nil],
      fun h ↦ absurd rfl h⟩
  | @waits _ s' o ho hs hi hp =>
    have hj : joins s e = [o.accepted] := by
      simp only [joins, ho, hs, hi, Bool.not_false, Bool.and_self, ↓reduceIte]
    rw [hj]
    exact .inr ⟨by simp only [Config.line, hp, waiting_nil, List.append_nil], fun _ ↦ rfl⟩
  | @converted _ s' o ho hs hi hp =>
    have hj : joins s e = [] := by
      simp only [joins, ho, hs, hi, Bool.not_true, Bool.and_false]
      rfl
    rw [hj]
    exact .inr ⟨by simp only [Config.line, Config.enterConverted, Engine.log, hp,
      waiting_matching, waiting_nil], fun h ↦ absurd rfl h⟩

/-- Every event of a fresh stream starts with the invariant. -/
private theorem tended_start
    (h : List.Sublist s.pendingStops ((submittedOrders es).map Order.accepted))
    (hstop : ∀ x ∈ s.pendingStops, x.isStop = true) (hf : Fresh (es ++ [e])) :
    Tended s.ghost (convertsAtOnce s e) (Config.start s e).line (.start s e) := by
  have hids (xs : List Order) : (xs.map Order.accepted).map Order.id = xs.map Order.id := by
    rw [List.map_map]
    rfl
  have hsub := (line_start (e := e) h hstop).1.map Order.id
  rw [hids] at hsub
  have hnodup : ((Config.start s e).line.map Order.id).Nodup := List.Nodup.sublist hsub hf
  have hold : ∀ x ∈ s.pendingStops, x.id ∈ submittedIds es := fun x hx ↦ by
    have := (h.map Order.id).subset (List.mem_map_of_mem hx)
    rwa [hids] at this
  have hnew {o : Order} (ho : handed s e = some o) : o.id ∉ submittedIds es := hf.handed ho
  have hstart := stopStart s e
  generalize Config.start s e = c at hstart hnodup
  have hidle {s₁ : Engine (OrderBook L)} {r₁ : MatchResult} (hg : s₁.ghost = s.ghost)
      (hr : r₁.trades = []) (hc : convertsAtOnce s e = [])
      (hn : ((Config.line ⟨s₁, [], r₁⟩).map Order.id).Nodup) :
      Tended s.ghost (convertsAtOnce s e) (Config.line ⟨s₁, [], r₁⟩) ⟨s₁, [], r₁⟩ :=
    ⟨.refl _, ⟨[], [], hg.trans (List.append_nil _).symm, hc.symm ▸ rfl, .refl _,
      fun x hx ↦ absurd hx List.not_mem_nil⟩, hn,
      fun x _ t ht ↦ absurd (hr ▸ ht) List.not_mem_nil, fun p w hw ↦ absurd hw List.not_mem_nil⟩
  cases hstart with
  | cancelled _ _ hg _ hr => exact hidle hg hr rfl hnodup
  | quiet hno _ hg _ hr =>
    refine hidle hg hr ?_ hnodup
    rw [convertsAtOnce]
    split
    · next o ho => rw [hno o ho]; rfl
    · rfl
  | waits ho hs hi _ hg =>
    refine hidle hg rfl ?_ hnodup
    simp only [convertsAtOnce, ho, hs, hi, Bool.and_false]
    rfl
  | @matching _ s' o a ho hs ha hp hg =>
    have hc : convertsAtOnce s e = [] := by
      simp only [convertsAtOnce, ho, hs, Bool.false_and]
      rfl
    refine ⟨.refl _, ⟨[], [], hg.trans (List.append_nil _).symm, hc.symm ▸ rfl, .refl _,
      fun x hx ↦ absurd hx List.not_mem_nil⟩, ?_, fun x _ t ht ↦ absurd ht List.not_mem_nil,
      fun p w hw ↦ absurd hw (by simp)⟩
    refine List.nodup_cons.mpr ⟨fun hmem ↦ ?_, hnodup⟩
    obtain ⟨x, hx, hid⟩ := List.mem_map.mp hmem
    simp only [Config.line, hp, waiting_matching, waiting_nil, List.append_nil] at hx
    exact hnew ho (ha ▸ hid ▸ hold x hx)
  | @converted _ s' o ho hs hi hp hg =>
    have hc : convertsAtOnce s e = [o.accepted] := by
      simp only [convertsAtOnce, ho, hs, hi, Bool.and_self, ↓reduceIte]
    refine ⟨.refl _, ⟨[.triggered o.accepted], [], ?_, ?_, .refl _,
      fun x hx ↦ absurd hx List.not_mem_nil⟩, ?_, fun x _ t ht ↦ absurd ht List.not_mem_nil,
      fun p w hw ↦ absurd hw (by simp [Config.enterConverted])⟩
    · rw [← hg]
      rfl
    · rw [hc]
      rfl
    · refine List.nodup_cons.mpr ⟨fun hmem ↦ ?_, hnodup⟩
      obtain ⟨x, hx, hid⟩ := List.mem_map.mp hmem
      simp only [Config.line, Config.enterConverted, Engine.log, hp, waiting_matching,
        waiting_nil, List.append_nil] at hx
      have hid' : x.id = o.id := hid.trans (converted_id o.accepted)
      exact hnew ho (hid' ▸ hold x hx)

/-- Every event of a fresh run ends with the invariant. -/
private theorem tended_submits (h : Run Anything es s rs) (hf : Fresh (es ++ [e]))
    (hs : Submits s e s' r) :
    Tended s.ghost (convertsAtOnce s e) (Config.start s e).line ⟨s', [], r⟩ := by
  obtain ⟨hsub, hstop⟩ := h.pending_sublist
  exact hs.preserves
    (fun _ _ hc hstep ↦ hc.stopStep (stopStep_of_moves (Config.moves_of_step hstep)))
    (tended_start hsub hstop hf)

/-- What an event of a fresh run does to the pending stops. -/
private theorem stopsKept_of_submits (h : Run Anything es s rs) (hf : Fresh (es ++ [e]))
    (hs : Submits s e s' r) : StopsKept s e s' r (joins s e) := by
  obtain ⟨hsub, hstop⟩ := h.pending_sublist
  have htended := tended_submits h hf hs
  have hline : Config.line ⟨s', [], r⟩ = s'.pendingStops := List.append_nil _
  have hkept := htended.sublist
  obtain ⟨log, evals, hlog, hconv, hperm, hjust⟩ := htended.log
  rw [hline] at hkept hperm
  have hnodup : (evals ++ s'.pendingStops).Nodup := by
    rw [hperm.nodup_iff]
    exact (List.nodup_append.mp (tended_start hsub hstop hf).distinct).2.1.of_map
  have hevals := (List.nodup_append.mp hnodup).1
  -- no pending stop is the stop that the event converts at once
  have hown : ∀ x ∈ s.pendingStops, (conversions log).count x = evals.count x := by
    intro x hx
    rw [hconv, List.count_append, Nat.add_eq_right, List.count_eq_zero]
    intro hmem
    rw [convertsAtOnce] at hmem
    split at hmem
    · next o ho =>
      have hid : x.id ∈ submittedIds es := by
        obtain ⟨y, hy, rfl⟩ := List.mem_map.mp (hsub.subset hx)
        exact List.mem_map.mpr ⟨y, hy, rfl⟩
      split at hmem
      · rw [List.mem_singleton.mp hmem] at hid
        exact hf.handed ho hid
      · exact absurd hmem List.not_mem_nil
    · exact absurd hmem List.not_mem_nil
  refine ⟨?_, log, hlog, fun x hx ↦ ⟨fun hx' ↦ ?_, fun hx' ↦ ?_⟩⟩
  · rcases start_stops s e with ⟨c, stop, -, -, hl, hj, -⟩ | ⟨hl, hidle⟩
    · rw [hl] at hkept
      exact ⟨_, hkept.trans List.eraseP_sublist, by rw [hj, List.append_nil]⟩
    · by_cases hj : joins s e = []
      · rw [hj, List.append_nil] at hl
        exact ⟨_, hl ▸ hkept, by rw [hj, List.append_nil]⟩
      · refine ⟨s.pendingStops, .refl _, ?_⟩
        rw [← hl, hs.of_idle (hidle hj), hline]
  · rw [hown x hx, List.count_eq_zero]
    exact fun hmem ↦ (List.nodup_append.mp hnodup).2.2 x hmem x hx' rfl
  · by_cases hmem : x ∈ (Config.start s e).line
    · have hx₁ : x ∈ evals :=
        (List.mem_append.mp (hperm.mem_iff.mpr hmem)).resolve_right hx'
      exact .inr ⟨(hown x hx).trans (List.count_eq_one_of_mem hevals hx₁), hjust x hx₁⟩
    · left
      constructor
      · rcases start_stops s e with ⟨c, stop, rfl, -, hl, -⟩ | ⟨hl, -⟩
        · rw [hl] at hmem
          refine ⟨c, rfl, ?_⟩
          by_contra hne
          apply hmem
          rw [List.mem_eraseP_of_neg]
          · exact hx
          · exact fun he ↦ hne (beq_iff_eq.mp he).symm
        · rw [hl] at hmem
          exact absurd (List.mem_append_left _ hx) hmem
      · rw [hown x hx, List.count_eq_zero]
        exact fun hx₁ ↦ hmem (hperm.mem_iff.mp (List.mem_append_left _ hx₁))

end Events

/-- Every next event of a fresh stream whose modifies keep the place of their order keeps the
pending stops. A replace submits its order only if the old one is in the book. -/
theorem run_keeps_stops {es : List OrderEvent} {e : OrderEvent}
    {s : Engine (OrderBook PriceLevel)} {rs : List MatchResult} (h : Run KeepsPlace es s rs)
    (hf : Fresh (es ++ [e])) (hk : KeepsPlace s e) :
    ∃ s' r, Submits s e s' r ∧ StopsKept s e s' r (joins s e) := by
  obtain ⟨t, -, href⟩ := h.refines (E := fun _ ↦ True) (fun _ hk ↦ .of_keepsPlace hk)
    (fun _ ↦ trivial) hf.left
  obtain ⟨s', -, r, hs, -⟩ := href.submits hf (.of_keepsPlace hk)
  exact ⟨s', r, hs, stopsKept_of_submits (h.mono fun _ _ _ ↦ trivial) hf hs⟩

/-- Order 5 trades at 100 and triggers stop 3; the trade of stop 3 at 101 triggers stop 2,
which was requeued in front of it, while stop 4 stays. -/
private def nestedStops : List OrderEvent :=
  [.newOrder ⟨{ id := 1, side := .sell, price := 100, quantity := 5 }⟩,
    .newOrder ⟨{ id := 6, side := .sell, price := 101, quantity := 9 }⟩,
    .newOrder ⟨{ id := 2, type := .stop, stopPrice := 101, quantity := 2 }⟩,
    .newOrder ⟨{ id := 3, type := .stop, stopPrice := 100, quantity := 2 }⟩,
    .newOrder ⟨{ id := 4, type := .stop, stopPrice := 110, quantity := 2 }⟩]

/-- The order that sets off the nested conversions. -/
private def setsOff : OrderEvent := .newOrder ⟨{ id := 5, price := 100, quantity := 5 }⟩

theorem run_keeps_stops_nested : ∃ (s s' : Engine (OrderBook PriceLevel)) (r : MatchResult),
    s.pendingStops.map Order.id = [2, 3, 4] ∧ Submits s setsOff s' r ∧
      StopsKept s setsOff s' r [] := by
  obtain ⟨s, rs, hrun, hp⟩ := Run.exists_of_play (B := OrderBook PriceLevel) KeepsPlace 50
    nestedStops (fun s _ ↦ s.pendingStops.map Order.id = [2, 3, 4]) (by decide +kernel)
  obtain ⟨s', r, hs, hkept⟩ := run_keeps_stops (e := setsOff) hrun (by decide) trivial
  exact ⟨s, s', r, hp, hs, hkept⟩

/-- The stops among the orders that an event submits and that are not triggered at once. -/
private def submittedStops {B : Type} [BookOps B] (s : Engine B) (e : OrderEvent) : List Order :=
  (e.orders.filter fun o ↦ o.isStop && !s.immediatelyTriggered o.accepted).map Order.accepted

/-- A replace of an unknown order does not add the stop it submits. -/
theorem replace_does_not_add_stop : ¬∀ (es : List OrderEvent) (e : OrderEvent)
    (s s' : Engine (OrderBook PriceLevel)) (rs : List MatchResult) (r : MatchResult),
    Run KeepsPlace es s rs → Fresh (es ++ [e]) → KeepsPlace s e → Submits s e s' r →
      StopsKept s e s' r (submittedStops s e) := by
  intro hall
  let stop : Order := { id := 1, type := .stop, stopPrice := 100, quantity := 5 }
  let e : OrderEvent := .replaceOrder ⟨9, stop⟩
  have hno : hasOrder (init : Engine (OrderBook PriceLevel)).book 9 = false := by decide +kernel
  have hs : Submits (init : Engine (OrderBook PriceLevel)) e
      { init with sequence := 1 } (rejected 9 .orderNotFound 0) :=
    ⟨1, by simp only [e, submit, processReplace, hno]; rfl⟩
  obtain ⟨kept, hsub, heq⟩ := (hall [] e init _ [] _ .nil (by decide) trivial hs).pending
  obtain rfl := List.sublist_nil.mp hsub
  exact absurd heq (by decide +kernel)

end LobEngine
