import LobEngine.Properties.Stops

/-!
# Which stops an event leaves triggered

A stop that is still pending after an event may satisfy its trigger condition against the
last trade price: a converted stop trades while the stops behind it are swapped out, and
these are compared with the price captured before, `src/engine/matching_engine.cpp:191–203`.
This is the only way. A pending stop is triggered at the price of a trade only if the
aggressor of that trade is a stop that stood before it in the line.
-/

namespace LobEngine

open BookOps Engine Stepper

/-- The stop with this identifier stood before `x` in the line. -/
def Precedes (line : List Order) (id : OrderId) (x : Order) : Prop :=
  ∃ y : Order, y.id = id ∧ List.Sublist [y, x] line

/-- If the trade satisfies the trigger condition of `x`, its aggressor stood before `x`. -/
def Excused (line : List Order) (x : Order) (t : Trade) : Prop :=
  t.price ≠ 0 → x.triggeredAt t.price = true → Precedes line t.aggressorId x

/-- Every active aggressor that was converted stood before the stops that are swapped out
below it. -/
def Covers (line : List Order) : List Frame → Prop
  | [] => True
  | .matching a :: K => (∀ x ∈ waiting K, Precedes line a.id x) ∧ Covers line K
  | .triggers _ _ :: K => Covers line K

/-- The invariant of an event that starts with the stops `line` and the last trade price
`L₀`: requeued stops have been compared with every trade that they could see, swapped-out
ones still have the trade to come that their evaluation captured. -/
structure Compared {B : Type} [BookOps B] (line : List Order) (L₀ : Price) (c : Config B) :
    Prop where
  sublist : List.Sublist c.line line
  last : lastTradePrice c.engine.book = (c.result.trades.getLast?.map Trade.price).getD L₀
  pending : ∀ x ∈ c.engine.pendingStops, ∀ t ∈ c.result.trades, Excused line x t
  waiting : ∀ p w, .triggers p w ∈ c.stack → ∀ x ∈ w, ∀ t ∈ c.result.trades,
    t.price = p ∨ Excused line x t
  covers : Covers line c.stack

namespace Compared

variable {B : Type} [BookOps B] {line : List Order} {L₀ : Price} {c d : Config B}

private theorem mem_waiting {p : Price} {w : List Order} {K : List Frame} {x : Order}
    (h : .triggers p w ∈ K) (hx : x ∈ w) : x ∈ LobEngine.waiting K :=
  List.mem_flatMap.mpr ⟨_, h, hx⟩

/-- A trade that triggers no evaluation is excused for the stops that it cannot reach, and
one that does becomes the captured price of all the others. -/
private theorem evaluated {s' : Engine B} {a a' : Order} {K : List Frame} {r : MatchResult}
    {t : Trade} {s : Engine B} (h : Compared line L₀ ⟨s, .matching a :: K, r⟩)
    (ha' : a'.id = a.id) (ht : t.aggressorId = a.id) (hp : s'.pendingStops = s.pendingStops)
    (hl : lastTradePrice s'.book = t.price) :
    Compared line L₀ (.evaluate ⟨s', .matching a' :: K, r.pushTrade t⟩) := by
  have htrades : (r.pushTrade t).trades = r.trades ++ [t] := rfl
  have hlast : lastTradePrice s'.book =
      (((r.pushTrade t).trades).getLast?.map Trade.price).getD L₀ := by
    rw [htrades, List.getLast?_append_of_ne_nil _ (by simp)]
    exact hl
  have hcov : Covers line (.matching a' :: K) := ⟨fun x hx ↦ ha' ▸ h.covers.1 x hx, h.covers.2⟩
  -- the stops below the aggressor cannot see the new trade
  have hbelow (p : Price) (w : List Order) (hw : .triggers p w ∈ K) (x : Order) (hx : x ∈ w)
      (t' : Trade) (ht' : t' ∈ (r.pushTrade t).trades) : t'.price = p ∨ Excused line x t' := by
    rw [htrades, List.mem_append, List.mem_singleton] at ht'
    rcases ht' with ht' | rfl
    · exact h.waiting p w (List.mem_cons_of_mem _ hw) x hx t' ht'
    · exact .inr fun _ _ ↦ ht ▸ h.covers.1 x (mem_waiting hw hx)
  have hsub : List.Sublist (s'.pendingStops ++ LobEngine.waiting K) line := hp ▸ h.sublist
  rw [Config.evaluate]
  split
  · next hnil =>
    refine ⟨hsub, hlast, fun x hx ↦ ?_, fun p w hw ↦ ?_, hcov⟩
    · rw [hnil] at hx
      exact absurd hx List.not_mem_nil
    · rcases List.mem_cons.mp hw with hw | hw
      · exact absurd hw (by simp)
      · exact hbelow p w hw
  · split
    · next hzero =>
      have ht0 : t.price = 0 := hl.symm.trans hzero
      refine ⟨hsub, hlast, fun x hx t' ht' ↦ ?_, fun p w hw ↦ ?_, hcov⟩
      · rw [htrades, List.mem_append, List.mem_singleton] at ht'
        rcases ht' with ht' | rfl
        · exact h.pending x (hp ▸ hx) t' ht'
        · exact fun hne ↦ absurd ht0 hne
      · rcases List.mem_cons.mp hw with hw | hw
        · exact absurd hw (by simp)
        · exact hbelow p w hw
    · refine ⟨hsub, hlast, fun x hx ↦ absurd hx List.not_mem_nil, fun p w hw ↦ ?_, hcov⟩
      rcases List.mem_cons.mp hw with hw | hw
      · obtain ⟨rfl, rfl⟩ := Frame.triggers.inj hw
        intro x hx t' ht'
        rw [htrades, List.mem_append, List.mem_singleton] at ht'
        rcases ht' with ht' | rfl
        · exact .inr (h.pending x (hp ▸ hx) t' ht')
        · exact .inl hl.symm
      · rcases List.mem_cons.mp hw with hw | hw
        · exact absurd hw (by simp)
        · exact hbelow p w hw

/-- Every move keeps the invariant. -/
theorem stopStep (h : Compared line L₀ c) (hs : StopStep c d) : Compared line L₀ d := by
  cases hs with
  | @left s s' f K r r' g hf hp hl hg hc ht =>
    have hcov : Covers line K := by
      have hcov := h.covers
      cases f with
      | matching a => exact hcov.2
      | triggers p w => exact hcov
    refine ⟨?_, ?_, ?_, ?_, hcov⟩
    · have hsub := h.sublist
      simp only [Config.line, LobEngine.waiting, List.flatMap_cons, hf, List.nil_append] at hsub
      simpa only [Config.line, LobEngine.waiting, hp] using hsub
    · simpa only [hl, ht] using h.last
    · simpa only [hp, ht] using h.pending
    · intro p w hw
      have hwait := h.waiting p w (List.mem_cons_of_mem _ hw)
      simpa only [ht] using hwait
  | traded ha' ht hp hl hg => exact h.evaluated ha' ht hp hl
  | @converted s p stop working K r ht =>
    refine ⟨?_, h.last, h.pending, fun q w hw ↦ ?_, ?_, h.covers⟩
    · refine List.Sublist.trans ?_ h.sublist
      exact List.Sublist.append_left (List.sublist_cons_self _ _) _
    · rcases List.mem_cons.mp hw with hw | hw
      · exact absurd hw (by simp)
      · rcases List.mem_cons.mp hw with hw | hw
        · obtain ⟨rfl, rfl⟩ := Frame.triggers.inj hw
          exact fun x hx ↦ h.waiting q _ List.mem_cons_self x (List.mem_cons_of_mem _ hx)
        · exact h.waiting q w (List.mem_cons_of_mem _ hw)
    · intro x hx
      have hpair : List.Sublist [stop, x] (stop :: (working ++ LobEngine.waiting K)) :=
        (List.singleton_sublist.mpr hx).cons_cons stop
      refine ⟨stop, ?_, hpair.trans ((List.sublist_append_right _ _).trans h.sublist)⟩
      exact (converted_id stop).symm
  | @kept s p stop working K r ht =>
    refine ⟨?_, h.last, fun x hx t htr ↦ ?_, fun q w hw ↦ ?_, h.covers⟩
    · have hsub := h.sublist
      simp only [Config.line, waiting_triggers, List.cons_append, List.append_assoc,
        List.nil_append] at hsub ⊢
      exact hsub
    · rcases List.mem_append.mp hx with hx | hx
      · exact h.pending x hx t htr
      · obtain rfl := List.mem_singleton.mp hx
        rcases h.waiting p _ List.mem_cons_self x List.mem_cons_self t htr with hp | he
        · intro _ htrig
          rw [hp, ht] at htrig
          exact absurd htrig (by simp)
        · exact he
    · rcases List.mem_cons.mp hw with hw | hw
      · obtain ⟨rfl, rfl⟩ := Frame.triggers.inj hw
        exact fun x hx ↦ h.waiting q _ List.mem_cons_self x (List.mem_cons_of_mem _ hx)
      · exact h.waiting q w (List.mem_cons_of_mem _ hw)

end Compared

section Events

variable {L : Type} [PriceLevelOps L] {es : List OrderEvent} {e : OrderEvent}
  {s s' : Engine (OrderBook L)} {rs : List MatchResult} {r : MatchResult}

/-- Every event starts with the invariant. -/
private theorem compared_start (s : Engine (OrderBook L)) (e : OrderEvent) :
    Compared (Config.start s e).line (lastTradePrice s.book) (.start s e) := by
  have hstart := stopStart s e
  generalize Config.start s e = c at hstart
  have hnil (s' : Engine (OrderBook L)) (r : MatchResult) (hr : r.trades = [])
      (hl : lastTradePrice s'.book = lastTradePrice s.book) :
      Compared (Config.line ⟨s', [], r⟩) (lastTradePrice s.book) ⟨s', [], r⟩ :=
    ⟨.refl _, by rw [hr]; exact hl, fun _ _ t ht ↦ absurd (hr ▸ ht) List.not_mem_nil,
      fun _ _ h ↦ absurd h List.not_mem_nil, trivial⟩
  have hone (s' : Engine (OrderBook L)) (a : Order)
      (hl : lastTradePrice s'.book = lastTradePrice s.book) :
      Compared (Config.line ⟨s', [.matching a], {}⟩) (lastTradePrice s.book)
        ⟨s', [.matching a], {}⟩ :=
    ⟨.refl _, hl, fun _ _ t ht ↦ absurd ht List.not_mem_nil,
      fun _ _ h ↦ absurd h (by simp), ⟨fun x hx ↦ absurd hx List.not_mem_nil, trivial⟩⟩
  cases hstart with
  | cancelled _ _ _ hl hr => exact hnil _ _ hr hl
  | quiet _ _ _ hl hr => exact hnil _ _ hr hl
  | matching _ _ _ _ _ hl => exact hone _ _ hl
  | waits _ _ _ _ _ hl => exact hnil _ _ rfl hl
  | converted _ _ _ _ _ hl => exact hone _ _ hl

/-- Every event ends with the invariant. -/
theorem Submits.compared (h : Submits s e s' r) :
    Compared (Config.start s e).line (lastTradePrice s.book) ⟨s', [], r⟩ :=
  h.preserves (fun _ _ hc hstep ↦ hc.stopStep (stopStep_of_moves (Config.moves_of_step hstep)))
    (compared_start s e)

/-- The line an event starts with lists stops in the order in which they were submitted. -/
theorem line_start (h : List.Sublist s.pendingStops ((submittedOrders es).map Order.accepted))
    (hstop : ∀ x ∈ s.pendingStops, x.isStop = true) :
    List.Sublist (Config.start s e).line
        ((submittedOrders (es ++ [e])).map Order.accepted) ∧
      ∀ x ∈ (Config.start s e).line, x.isStop = true := by
  have hext : List.Sublist s.pendingStops
      ((submittedOrders (es ++ [e])).map Order.accepted) := by
    rw [submittedOrders_append, List.map_append]
    exact h.trans (List.sublist_append_left _ _)
  have hstart := stopStart s e
  generalize Config.start s e = c at hstart
  cases hstart with
  | cancelled _ hp =>
    simp only [Config.line, hp, waiting_nil, List.append_nil]
    exact ⟨List.eraseP_sublist.trans hext, fun x hx ↦ hstop x (List.eraseP_sublist.subset hx)⟩
  | quiet _ hp =>
    simp only [Config.line, hp, waiting_nil, List.append_nil]
    exact ⟨hext, hstop⟩
  | matching _ _ _ hp =>
    simp only [Config.line, hp, waiting_matching, waiting_nil, List.append_nil]
    exact ⟨hext, hstop⟩
  | @waits _ s' o ho hs _ hp =>
    simp only [Config.line, hp, waiting_nil, List.append_nil]
    constructor
    · rw [submittedOrders_append, submittedOrders_singleton, orders_of_handed ho,
        List.map_append]
      exact h.append_right _
    · intro x hx
      rcases List.mem_append.mp hx with hx | hx
      · exact hstop x hx
      · rw [List.mem_singleton.mp hx]
        exact hs
  | converted _ _ _ hp =>
    simp only [Config.line, Config.enterConverted, Engine.log, hp, waiting_matching, waiting_nil,
      List.append_nil]
    exact ⟨hext, hstop⟩

/-- Pending stops are submitted stops, in the order of their submission. -/
theorem Run.pending_sublist (h : Run Anything es s rs) :
    List.Sublist s.pendingStops ((submittedOrders es).map Order.accepted) ∧
      ∀ x ∈ s.pendingStops, x.isStop = true := by
  induction h with
  | nil => exact ⟨List.nil_sublist _, fun x hx ↦ absurd hx List.not_mem_nil⟩
  | snoc _ _ hs ih =>
    obtain ⟨hsub, hstop⟩ := line_start ih.1 ih.2
    have hfin : List.Sublist _ _ := hs.compared.sublist
    simp only [Config.line, waiting_nil, List.append_nil] at hfin
    exact ⟨hfin.trans hsub, fun x hx ↦ hstop x (hfin.subset hx)⟩

/-- The last of two lists of trades, one after the other. -/
private theorem getLast?_snoc (rs : List MatchResult) (r : MatchResult) :
    ((rs ++ [r]).flatMap MatchResult.trades).getLast? =
      r.trades.getLast?.or (rs.flatMap MatchResult.trades).getLast? := by
  rw [List.flatMap_append, List.flatMap_singleton, List.getLast?_append]

/-- A stop left pending by an event without trades was already pending, or the event
submitted it and it was not triggered. -/
private theorem pending_of_no_trade (h : Submits s e s' r) (hr : r.trades = []) {x : Order}
    (hx : x ∈ s'.pendingStops) (hL : lastTradePrice s'.book ≠ 0)
    (ht : x.triggeredAt (lastTradePrice s'.book) = true) :
    lastTradePrice s'.book = lastTradePrice s.book ∧ x ∈ s.pendingStops := by
  have hc := h.compared
  have hlast : lastTradePrice s'.book = lastTradePrice s.book := by
    have := hc.last
    rwa [hr] at this
  refine ⟨hlast, ?_⟩
  have hmem : x ∈ (Config.start s e).line := by
    apply hc.sublist.subset
    simpa only [Config.line, waiting_nil, List.append_nil] using hx
  have hstart := stopStart s e
  generalize Config.start s e = c at hstart hmem
  cases hstart with
  | cancelled _ hp =>
    simp only [Config.line, hp, waiting_nil, List.append_nil] at hmem
    exact List.eraseP_sublist.subset hmem
  | quiet _ hp =>
    simpa only [Config.line, hp, waiting_nil, List.append_nil] using hmem
  | matching _ _ _ hp =>
    simpa only [Config.line, hp, waiting_matching, waiting_nil, List.append_nil] using hmem
  | waits _ _ hi hp =>
    simp only [Config.line, hp, waiting_nil, List.append_nil] at hmem
    rcases List.mem_append.mp hmem with hmem | hmem
    · exact hmem
    · rw [List.mem_singleton.mp hmem, hlast] at ht
      rw [hlast] at hL
      rw [immediatelyTriggered, ht, Bool.and_true, bne_eq_false_iff_eq] at hi
      exact absurd hi hL
  | converted _ _ _ hp =>
    simpa only [Config.line, Config.enterConverted, Engine.log, hp, waiting_matching,
      waiting_nil, List.append_nil] using hmem

/-- A stop that is pending although the last trade price triggers it: the last trade was made
by a stop that was submitted before it. -/
theorem pending_stop_triggered (h : Run Anything es s rs) {x : Order} (hx : x ∈ s.pendingStops)
    (hL : lastTradePrice s.book ≠ 0) (ht : x.triggeredAt (lastTradePrice s.book) = true) :
    ∃ t y, (rs.flatMap MatchResult.trades).getLast? = some t ∧
      t.price = lastTradePrice s.book ∧ t.aggressorId = y.id ∧ y.isStop = true ∧
      List.Sublist [y, x] ((submittedOrders es).map Order.accepted) := by
  induction h with
  | nil => exact absurd hx List.not_mem_nil
  | @snoc es e s s' rs r hrun _ hs ih =>
    rw [getLast?_snoc]
    cases hlast : r.trades.getLast? with
    | none =>
      have hr : r.trades = [] := List.getLast?_eq_none_iff.mp hlast
      obtain ⟨hL', hx'⟩ := pending_of_no_trade hs hr hx hL ht
      rw [hL'] at hL ht ⊢
      obtain ⟨t, y, htl, htp, hty, hys, hsub⟩ := ih hx' hL ht
      refine ⟨t, y, htl, htp, hty, hys, ?_⟩
      rw [submittedOrders_append, List.map_append]
      exact hsub.trans (List.sublist_append_left _ _)
    | some t =>
      have hc := hs.compared
      have hprice : lastTradePrice s'.book = t.price := by
        have := hc.last
        rwa [hlast] at this
      rw [hprice] at hL ht
      obtain ⟨y, hy, hsub⟩ := hc.pending x hx t (List.mem_of_getLast? hlast) hL ht
      obtain ⟨hline, hstop⟩ := line_start (e := e) hrun.pending_sublist.1 hrun.pending_sublist.2
      exact ⟨t, y, rfl, hprice.symm, hy.symm, hstop y (hsub.subset List.mem_cons_self),
        hsub.trans hline⟩

end Events

/-- Stop 3, triggered at 100, trades at 105 while stop 4, triggered at 105, is swapped out. -/
private def hiddenStop : List OrderEvent :=
  [.newOrder ⟨{ id := 1, side := .sell, price := 100, quantity := 10 }⟩,
    .newOrder ⟨{ id := 2, side := .sell, price := 105, quantity := 10 }⟩,
    .newOrder ⟨{ id := 3, type := .stop, stopPrice := 100, quantity := 10 }⟩,
    .newOrder ⟨{ id := 4, type := .stop, stopPrice := 105, quantity := 5 }⟩,
    .newOrder ⟨{ id := 5, price := 100, quantity := 10 }⟩]

private theorem hiddenStop_run : ∃ (s : Engine (OrderBook PriceLevel)) (rs : List MatchResult),
    Run Anything hiddenStop s rs ∧ ∃ x ∈ s.pendingStops,
      lastTradePrice s.book ≠ 0 ∧ x.triggeredAt (lastTradePrice s.book) = true := by
  obtain ⟨s, rs, hrun, hp⟩ := Run.exists_of_play (B := OrderBook PriceLevel) Anything 50 hiddenStop
    (fun s _ ↦ ∃ x ∈ s.pendingStops, lastTradePrice s.book ≠ 0 ∧
      x.triggeredAt (lastTradePrice s.book) = true) (by decide +kernel)
  exact ⟨s, rs, hrun, hp⟩

/-- A pending stop can satisfy its trigger condition against the last trade price. -/
theorem pending_stops_not_complete : ¬∀ (es : List OrderEvent)
    (s : Engine (OrderBook PriceLevel)) (rs : List MatchResult), Run Anything es s rs → Fresh es →
    lastTradePrice s.book ≠ 0 →
      ∀ x ∈ s.pendingStops, x.triggeredAt (lastTradePrice s.book) = false := by
  intro hall
  obtain ⟨s, rs, hrun, x, hx, hL, ht⟩ := hiddenStop_run
  have hf := hall hiddenStop s rs hrun (by decide) hL x hx
  rw [hf] at ht
  exact absurd ht (by decide)

theorem pending_stop_triggered_hidden : ∃ (s : Engine (OrderBook PriceLevel))
    (rs : List MatchResult) (x : Order), x ∈ s.pendingStops ∧ ∃ t y,
      (rs.flatMap MatchResult.trades).getLast? = some t ∧ t.price = lastTradePrice s.book ∧
        t.aggressorId = y.id ∧ y.isStop = true ∧
          List.Sublist [y, x] ((submittedOrders hiddenStop).map Order.accepted) := by
  obtain ⟨s, rs, hrun, x, hx, hL, ht⟩ := hiddenStop_run
  exact ⟨s, rs, x, hx, pending_stop_triggered hrun hx hL ht⟩

end LobEngine
