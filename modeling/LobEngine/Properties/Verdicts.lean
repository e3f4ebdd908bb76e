import LobEngine.Properties.Scene
import LobEngine.Refinement.Sessions

/-!
# Verdicts on new orders

`translate_result` accepts an order when nothing at all was rejected. A stop of another order that
the message triggers may run out of opposite levels; its rejection is then the only verdict, and
the order of the message is neither accepted nor rejected. So there is one verdict where what rests
opposite covers the stops of other orders that the message may trigger, and also where the order of
the message is a market order for more than it can meet, as it is then rejected itself.
-/

namespace LobEngine

open BookOps Engine Stepper

/-! ### Rejections within an event -/

/-- The result rejects the identifier. -/
def MatchResult.Rejects (r : MatchResult) (id : OrderId) : Prop :=
  ∃ rej ∈ r.rejections, rej.orderId = id

instance (r : MatchResult) (id : OrderId) : Decidable (r.Rejects id) :=
  inferInstanceAs (Decidable (∃ rej ∈ r.rejections, rej.orderId = id))

section Moves

variable {B : Type} [BookOps B] {c d : Config B} {s s' : Engine B} {e : OrderEvent}
  {r : MatchResult} {id : OrderId}

/-- What is rejected stays rejected. -/
private theorem Config.Moves.rejects_mono (h : Config.Moves c d) (hc : c.result.Rejects id) :
    d.result.Rejects id := by
  obtain ⟨rej, hrej, hid⟩ := hc
  refine ⟨rej, ?_, hid⟩
  rcases h.rejections with he | ⟨a, he⟩
  · rwa [he]
  · rw [he]
    exact List.mem_append_left _ hrej

/-- How often an identifier is rejected or outstanding. -/
def Config.occurrences (id : OrderId) (c : Config B) : Nat :=
  (c.result.rejections.map Rejection.orderId).count id +
    ((c.engine.outstanding c.stack).map Order.id).count id

/-- No move makes an identifier occur more often. -/
theorem Config.Moves.occurrences (h : Config.Moves c d) (id : OrderId) :
    d.occurrences id ≤ c.occurrences id := by
  have hsettle {s : Engine B} {a a' : Order} {K : List Frame} {r : MatchResult} :
      Config.occurrences id ⟨Config.settle s a', K, r⟩ ≤
        Config.occurrences id ⟨s, .matching a :: K, r⟩ := by
    unfold Config.occurrences
    rw [outstanding_settle, outstanding_matching, List.map_cons]
    exact Nat.add_le_add_left List.count_le_count_cons _
  cases h with
  | filled => exact hsettle
  | uncrossed => exact hsettle
  | unopposed => exact hsettle
  | @exhausted s a K r =>
    unfold Config.occurrences
    simp only [MatchResult.pushRejection, List.map_append, List.map_cons, List.map_nil,
      List.count_append, outstanding_matching, List.count_cons, List.count_nil, exhaustion]
    have hout : (s.log (.exhausted (exhaustion a))).outstanding K = s.outstanding K := rfl
    simp only [exhaustion] at hout
    rw [hout]
    omega
  | @fill s a passive K r p key book book' q =>
    unfold Config.occurrences
    rw [evaluate_result, ((outstanding_evaluate _).map Order.id).count_eq]
    exact Nat.le_refl _
  | evaluated => exact Nat.le_refl _
  | triggered => exact Nat.le_refl _
  | @kept s p stop working K r =>
    unfold Config.occurrences
    rw [((outstanding_kept s stop (.triggers p working :: K)).map Order.id).count_eq]
    exact Nat.le_refl _

/-- A new order whose identifier no pending stop has is rejected at most once. -/
private theorem Submits.rejected_once {o : Order} (h : Submits s (.newOrder ⟨o⟩) s' r)
    (hp : o.id ∉ s.pendingStops.map Order.id) :
    (r.rejections.map Rejection.orderId).count o.id ≤ 1 := by
  have hstart : Config.occurrences o.id (.start s (.newOrder ⟨o⟩)) ≤ 1 := by
    let s₁ : Engine B := { s with sequence := s.sequence + 1 }
    obtain ⟨st, hperm⟩ := outstanding_enter s₁ o [] {}
    have hnone : ((s₁.outstanding []).map Order.id).count o.id = 0 := by
      rw [ids_outstanding]
      exact List.count_eq_zero.mpr hp
    change Config.occurrences o.id (.enter s₁ o [] {}) ≤ 1
    unfold Config.occurrences
    rw [enter_result, (hperm.map Order.id).count_eq, List.map_cons, o.entering_id,
      List.count_cons_self, hnone]
    exact Nat.le_refl _
  have hend := h.preserves (P := fun c ↦ Config.occurrences o.id c ≤ 1)
    (fun _ _ hc hstep ↦ Nat.le_trans ((Config.moves_of_step hstep).occurrences o.id) hc) hstart
  exact Nat.le_trans (Nat.le_add_right _ _) hend

end Moves

/-- The match loop of a market order for more than it can meet goes on, or the order has been
rejected. -/
def Overdrawn (woken : OrderId → Bool) (id : OrderId) (c : Config ReferenceBook) : Prop :=
  (∃ a, .matching a ∈ c.stack ∧ a.id = id ∧ a.type = .market ∧
    c.reach woken a.side.opposite (fun _ ↦ true) < a.quantity.toNat) ∨ c.result.Rejects id

/-- A fill takes as much from what can be met as from the order; other moves add nothing to it. -/
private theorem Confined.overdrawn {z : Scene} {woken : OrderId → Bool} {id : OrderId}
    {c d : Config ReferenceBook} (hd : c.engine.book.Distinct) (h : Confined z woken c)
    (hc : Overdrawn woken id c) (hm : Config.Moves c d) : Overdrawn woken id d := by
  rcases hc with ⟨a, hmem, hid, ht, hlt⟩ | hrej
  swap
  · exact .inr (hm.rejects_mono hrej)
  have hreach := h.reach_le hd hm
  have hkeep (hmem : .matching a ∈ d.stack) : Overdrawn woken id d :=
    .inl ⟨a, hmem, hid, ht, (hreach _ _).trans_lt hlt⟩
  cases hm with
  | @filled s b K r hq =>
    rcases List.mem_cons.mp hmem with he | hmem
    · obtain rfl := Frame.matching.inj he
      rw [hq] at hlt
      exact absurd hlt (Nat.not_lt_zero _)
    · exact hkeep hmem
  | @uncrossed s b K r p hq hb htr =>
    rcases List.mem_cons.mp hmem with he | hmem
    · obtain rfl := Frame.matching.inj he
      simp [Config.trades, ht] at htr
    · exact hkeep hmem
  | @exhausted s b K r hq hb hty =>
    rcases List.mem_cons.mp hmem with he | hmem
    · obtain rfl := Frame.matching.inj he
      exact .inr ⟨exhaustion a, List.mem_append_right _ List.mem_cons_self, hid⟩
    · exact hkeep hmem
  | @unopposed s b K r hq hb hty =>
    rcases List.mem_cons.mp hmem with he | hmem
    · obtain rfl := Frame.matching.inj he
      exact absurd ht hty
    · exact hkeep hmem
  | @fill s b passive K r p key book book' q hqb hb htr hp hq hs =>
    obtain ⟨rfl, rfl, ⟨rest, hrest⟩, -⟩ := hd.of_pickPassive hp
    have hstays {f : Frame} {c : Config ReferenceBook} (hf : f ∈ c.stack) :
        f ∈ c.evaluate.stack := by
      rcases c.stack_evaluate with hstack | ⟨-, hstack⟩
      · rwa [hstack]
      · rw [hstack]
        exact List.mem_cons_of_mem _ hf
    rcases List.mem_cons.mp hmem with he | hmem
    · obtain rfl := Frame.matching.inj he
      exact .inl ⟨{ a with quantity := a.quantity - q }, hstays List.mem_cons_self, hid, ht,
        Config.reach_fill_lt (h.awake a List.mem_cons_self) hd hrest hs hq rfl hlt⟩
    · exact hkeep (hstays (List.mem_cons_of_mem _ hmem))
  | evaluated | kept => exact hkeep (by simpa using hmem)
  | triggered => exact hkeep (List.mem_cons_of_mem _ (by simpa using hmem))

/-! ### The verdict -/

/-- The event accepts or rejects the order. -/
def ExchangeEvent.isVerdict (id : OrderId) : ExchangeEvent → Bool
  | .orderAccepted e => e.orderId == id
  | .orderRejected e => e.orderId == id
  | .orderCanceled _ | .tradeExecuted _ | .bookUpdated _ | .snapshot _ => false

/-- The event rejects the order. -/
def ExchangeEvent.rejects (id : OrderId) : ExchangeEvent → Bool
  | .orderRejected e => e.orderId == id
  | .orderAccepted _ | .orderCanceled _ | .tradeExecuted _ | .bookUpdated _ | .snapshot _ => false

/-- The answer holds one verdict on the order, a rejection exactly if the engine rejected it. -/
structure OneVerdict (id : OrderId) (r : MatchResult) (out : List ExchangeEvent) : Prop where
  once : out.countP (·.isVerdict id) = 1
  rejects : (∃ ev ∈ out, ev.rejects id = true) ↔ r.Rejects id

instance (id : OrderId) (r : MatchResult) (out : List ExchangeEvent) :
    Decidable (OneVerdict id r out) :=
  decidable_of_iff (out.countP (·.isVerdict id) = 1 ∧
    ((∃ ev ∈ out, ev.rejects id = true) ↔ r.Rejects id))
    ⟨fun h ↦ ⟨h.1, h.2⟩, fun h ↦ ⟨h.once, h.rejects⟩⟩

namespace ExchangeManager

variable {msg : OrderMessage} {r : MatchResult} {book : OrderBook PriceLevel}

/-- The verdicts of an answer: the rejections, or an acceptance if there are none. -/
private theorem countP_isVerdict (ha : msg.action = .newOrder) (ts : Timestamp) :
    (translateResult ts msg r book).countP (·.isVerdict msg.orderId) =
      (r.rejections.map Rejection.orderId).count msg.orderId +
        if r.rejections = [] then 1 else 0 := by
  have hrej : (r.rejections.map fun rej ↦
      ExchangeEvent.orderRejected (rejectedEvent msg ts rej)).countP (·.isVerdict msg.orderId) =
        (r.rejections.map Rejection.orderId).count msg.orderId := by
    rw [List.countP_map, List.count, List.countP_map]
    rfl
  have hcancel : ((r.reports.filter (·.status = .cancelled)).map fun rep ↦
      ExchangeEvent.orderCanceled (canceledEvent msg ts rep)).countP
        (·.isVerdict msg.orderId) = 0 := by
    rw [List.countP_map]
    exact List.countP_eq_zero.mpr fun _ _ ↦ Bool.false_ne_true
  have htrade : (r.trades.map fun trade ↦
      ExchangeEvent.tradeExecuted (tradeEvent msg ts trade)).countP (·.isVerdict msg.orderId) =
        0 := by
    rw [List.countP_map]
    exact List.countP_eq_zero.mpr fun _ _ ↦ Bool.false_ne_true
  have hbook : [ExchangeEvent.bookUpdated (bookEvent msg ts book)].countP
      (·.isVerdict msg.orderId) = 0 := rfl
  simp only [translateResult, List.countP_append, hrej, hcancel, htrade, hbook, ha, true_and]
  split
  · have hacc : [ExchangeEvent.orderAccepted (acceptedEvent msg ts)].countP
        (·.isVerdict msg.orderId) = 1 := by
      rw [List.countP_singleton]
      simp [ExchangeEvent.isVerdict, acceptedEvent]
    rw [hacc]
  · rfl

/-- An answer rejects what the engine rejected. -/
private theorem exists_rejects_iff (ts : Timestamp) (id : OrderId) :
    (∃ ev ∈ translateResult ts msg r book, ev.rejects id = true) ↔ r.Rejects id := by
  constructor
  · rintro ⟨ev, hev, hid⟩
    simp only [translateResult, List.mem_append, List.mem_map, List.mem_singleton] at hev
    rcases hev with (((⟨rej, hrej, rfl⟩ | ⟨rep, -, rfl⟩) | ⟨trade, -, rfl⟩) | hev) | rfl
    · exact ⟨rej, hrej, eq_of_beq hid⟩
    · exact absurd hid Bool.false_ne_true
    · exact absurd hid Bool.false_ne_true
    · split at hev
      · rw [List.mem_singleton.mp hev] at hid
        exact absurd hid Bool.false_ne_true
      · exact absurd hev List.not_mem_nil
    · exact absurd hid Bool.false_ne_true
  · rintro ⟨rej, hrej, hid⟩
    refine ⟨.orderRejected (rejectedEvent msg ts rej), ?_, beq_iff_eq.mpr hid⟩
    simp only [translateResult, List.mem_append]
    exact .inl (.inl (.inl (.inl (List.mem_map_of_mem hrej))))

end ExchangeManager

/-- The incoming order is a market order for more than it can meet. -/
def Scene.Overdraws (z : Scene) (woken : OrderId → Bool) : Prop :=
  ∃ a ∈ z.incoming, a.type = .market ∧
    z.reach woken a.side.opposite (fun _ ↦ true) < a.quantity.toNat

/-- What rests opposite covers the stops of other orders that the order may trigger, or the order
is a market order for more than it can meet. -/
def VerdictAssured (s : Engine (OrderBook PriceLevel)) (o : Order) : Prop :=
  ∃ woken, (sceneOf OrderBook.storedOrders s o).Closed woken ∧
    ((sceneOf OrderBook.storedOrders s o).Overdraws woken ∨
      ∀ x ∈ (sceneOf OrderBook.storedOrders s o).movers woken, x.type = .market → x.id ≠ o.id →
        (sceneOf OrderBook.storedOrders s o).Covers woken x.side)

section Rejections

variable {Ok : Engine ReferenceBook → OrderEvent → Prop} {es : List OrderEvent}
  {s : Engine (OrderBook PriceLevel)} {t t' : Engine ReferenceBook} {rs : List MatchResult}
  {r : MatchResult} {o : Order} {woken : OrderId → Bool}

/-- The scene of a new order in the reference engine. -/
private theorem Refines.sceneOf_newOrder (href : Refines es s t) (o : Order) :
    sceneOf ReferenceBook.allOrders { t with sequence := t.sequence + 1 } o =
      ⟨t.book.allOrders, s.pendingStops, s.incoming o⟩ :=
  sceneOf_represented (t := { t with sequence := t.sequence + 1 }) href.tracks.represents
    (congrArg Engine.pendingStops href.agree) o

/-- A closed set of stops is closed in the reference engine. -/
private theorem Refines.closed_newOrder (href : Refines es s t)
    (hz : (sceneOf OrderBook.storedOrders s o).Closed woken) :
    (sceneOf ReferenceBook.allOrders { t with sequence := t.sequence + 1 } o).Closed woken := by
  rw [href.sceneOf_newOrder]
  exact hz.perm href.tracks.represents.storedOrders_perm

/-- A new order has only market orders rejected that the scene does not cover. -/
theorem Refines.refused (href : Refines es s t) (h : Run Ok es t rs)
    (hf : Fresh (es ++ [.newOrder ⟨o⟩])) (hs : Submits t (.newOrder ⟨o⟩) t' r)
    (hz : (sceneOf OrderBook.storedOrders s o).Closed woken) : ∀ rej ∈ r.rejections,
      ∃ x ∈ (sceneOf OrderBook.storedOrders s o).movers woken, x.type = .market ∧
        x.id = rej.orderId ∧ ¬(sceneOf OrderBook.storedOrders s o).Covers woken x.side := by
  have hscene := href.sceneOf_newOrder o
  have hperm := href.tracks.represents.storedOrders_perm
  have hrefused := h.refused hf hs rfl (href.closed_newOrder hz)
  rw [hscene] at hrefused
  intro rej hrej
  obtain ⟨x, hx, ht, hid, hcovers⟩ := hrefused rej hrej
  exact ⟨x, hx, ht, hid, fun hc ↦ hcovers (hc.perm hperm)⟩

/-- A new market order for more than it can meet is rejected. -/
private theorem Refines.rejects_overdrawn (href : Refines es s t) (h : Run Ok es t rs)
    (hf : Fresh (es ++ [.newOrder ⟨o⟩])) (hs : Submits t (.newOrder ⟨o⟩) t' r)
    (hz : (sceneOf OrderBook.storedOrders s o).Closed woken)
    (hover : (sceneOf OrderBook.storedOrders s o).Overdraws woken) :
    r.Rejects o.id ∨ r.rejections = [] := by
  obtain ⟨a, ha, ht, hlt⟩ := hover
  have hscene := href.sceneOf_newOrder o
  have hperm := href.tracks.represents.storedOrders_perm
  have hend := h.scene_induction hf hs rfl (href.closed_newOrder hz) (P := Overdrawn woken o.id) ?_
    fun c d ho hc hover hm ↦ hc.overdrawn ho.distinct hover hm
  · rcases hend with hidle | ⟨-, ⟨b, hb, -⟩ | hrej⟩
    · have hr := enter_result { t with sequence := t.sequence + 1 } o [] {}
      exact .inr (congrArg MatchResult.rejections ((congrArg Config.result hidle).symm.trans hr))
    · exact absurd hb List.not_mem_nil
    · exact .inl hrej
  · intro b g hb _
    have hincoming : s.incoming o = [b] := (congrArg Scene.incoming hscene).symm.trans hb
    have hid : b.id = o.id := by
      rcases enter_incoming s o [] {} with ⟨hnil, -⟩ | ⟨x, -, hx, hid, -⟩
      · exact absurd (hincoming.symm.trans hnil) (List.cons_ne_nil _ _)
      · rw [← List.singleton_inj.mp (hincoming.symm.trans hx)] at hid
        exact hid
    have hab : a = b := List.mem_singleton.mp (hincoming ▸ ha)
    subst hab
    refine .inl ⟨a, List.mem_cons_self, hid, ht, ?_⟩
    rw [Confined.reach_start woken hb, hscene, ← Scene.reach_perm hperm]
    exact hlt

/-- Where a verdict is assured, the engine rejects the order or nothing. -/
private theorem Refines.rejects_own (href : Refines es s t) (h : Run Ok es t rs)
    (hf : Fresh (es ++ [.newOrder ⟨o⟩])) (hs : Submits t (.newOrder ⟨o⟩) t' r)
    (hc : VerdictAssured s o) : r.Rejects o.id ∨ r.rejections = [] := by
  obtain ⟨woken, hz, hover | hcovers⟩ := hc
  · exact href.rejects_overdrawn h hf hs hz hover
  · cases hrej : r.rejections with
    | nil => exact .inr rfl
    | cons rej rejs =>
      left
      have hmem : rej ∈ r.rejections := hrej ▸ List.mem_cons_self
      obtain ⟨x, hx, ht, hid, hnot⟩ := href.refused h hf hs hz rej hmem
      by_cases hown : x.id = o.id
      · exact ⟨rej, hmem, hid.symm.trans hown⟩
      · exact absurd (hcovers x hx ht hown) hnot

end Rejections

/-- A new message for a known symbol, with an identifier of its own, whose verdict is assured is
answered with one verdict on its order. -/
theorem one_verdict {msgs : List OrderMessage} {m : ExchangeManager}
    {outs : List (List ExchangeEvent)} (h : Session (fun _ _ ↦ True) msgs m outs)
    {msg : OrderMessage} (hd : DistinctIds (msgs ++ [msg])) (ha : msg.action = .newOrder)
    {s : Engine (OrderBook PriceLevel)} (hs : m.engine? msg.symbol = some s) (now ts : Timestamp)
    (hc : VerdictAssured s (msg.order now)) :
    ∃ s' r m' out, Submits s (msg.event now) s' r ∧ m.Answers now ts msg m' out ∧
      OneVerdict msg.orderId r out := by
  obtain ⟨i, hi, rfl⟩ := Option.map_eq_some_iff.mp hs
  obtain ⟨es, rs, t, hrun, href, hf, -⟩ := h.refines hd hi now
  obtain ⟨s', t', r, hsub, htsub, -, hans⟩ := href.answers hf hi ts
  refine ⟨s', r, _, _, hsub, hans, ?_, ExchangeManager.exists_rejects_iff ts msg.orderId⟩
  have hevent := msg.event_of_newOrder ha now
  have honce : (r.rejections.map Rejection.orderId).count msg.orderId ≤ 1 := by
    refine (hevent ▸ hsub).rejected_once (o := msg.order now) fun hmem ↦ ?_
    obtain ⟨stop, hstop, hid⟩ := List.mem_map.mp hmem
    have hout : stop.converted ∈ (m.engineAt i).outstanding [] := List.mem_map_of_mem hstop
    have hknown := (href.tracks.fits _ hout rfl).2
    rw [converted_id, hid] at hknown
    refine hf.not_mem (List.mem_map_of_mem ?_) hknown
    rw [hevent]
    exact List.mem_singleton_self _
  rw [ExchangeManager.countP_isVerdict ha ts]
  rcases href.rejects_own hrun (hevent ▸ hf) (hevent ▸ htsub) hc with ⟨rej, hrej, hid⟩ | hnil
  · have hpos : 0 < (r.rejections.map Rejection.orderId).count msg.orderId :=
      List.count_pos_iff.mpr (List.mem_map.mpr ⟨rej, hrej, hid⟩)
    rw [if_neg (List.ne_nil_of_mem hrej)]
    omega
  · rw [hnil]
    rfl

/-- A sell order, and a stop of another client that the first trade triggers. -/
private def stopWaits : List OrderMessage :=
  [{ orderId := 1, clientId := 7, symbol := "STOCK_1", side := .sell, quantity := 2, price := 100 },
    { orderId := 2, clientId := 8, symbol := "STOCK_1", type := .stop, quantity := 5,
      stopPrice := 100 }]

/-- More to sell, behind the first order. -/
private def moreOffered : OrderMessage :=
  { orderId := 4, clientId := 7, symbol := "STOCK_1", side := .sell, quantity := 5, price := 103 }

/-- A limit order that is filled at once, and whose trade triggers the stop. -/
private def filledAtOnce : OrderMessage :=
  { orderId := 3, clientId := 9, symbol := "STOCK_1", quantity := 2, price := 100 }

/-- The stop takes what is left, to the last. -/
theorem one_verdict_stop_met : ∃ (m m' : ExchangeManager) (r : MatchResult)
    (out : List ExchangeEvent), m.Answers 0 0 filledAtOnce m' out ∧
      r.trades.map Trade.aggressorId = [3, 2] ∧ OneVerdict 3 r out := by
  obtain ⟨m, outs, hrun, s, hs, a, ha, htrades, hcovers⟩ := Session.exists_of_serve
    (fun _ _ ↦ True) 50 (stopWaits ++ [moreOffered]) (fun m ↦ ∃ s ∈ m.engine? "STOCK_1",
      ∃ a ∈ (s.submit 50 (filledAtOnce.event 0)).toOption,
        a.2.trades.map Trade.aggressorId = [3, 2] ∧
          ∀ x ∈ (sceneOf OrderBook.storedOrders s (filledAtOnce.order 0)).movers fun _ ↦ true,
            x.type = .market → x.id ≠ 3 →
              (sceneOf OrderBook.storedOrders s (filledAtOnce.order 0)).Covers (fun _ ↦ true)
                x.side)
    (by decide +kernel)
  obtain ⟨s', r, m', out, hsub, hans, hone⟩ := one_verdict hrun
    (by decide : DistinctIds (stopWaits ++ [moreOffered] ++ [filledAtOnce])) rfl hs 0 0
    ⟨fun _ ↦ true, Scene.closed_all _, .inr hcovers⟩
  obtain ⟨rfl, rfl⟩ := hsub.unique (Submits.of_toOption ha)
  exact ⟨m, m', a.2, out, hans, htrades, hone⟩

/-- The order of a message can be left without a verdict. -/
theorem verdict_missing : ¬∀ (msgs : List OrderMessage) (m : ExchangeManager)
    (outs : List (List ExchangeEvent)), Session (fun _ _ ↦ True) msgs m outs →
      ∀ msg : OrderMessage, DistinctIds (msgs ++ [msg]) → msg.action = .newOrder →
        m.hasSymbol msg.symbol = true → ∀ fuel now ts m' out,
          m.process fuel now ts msg = .ok (m', out) →
            out.countP (·.isVerdict msg.orderId) = 1 := by
  intro hall
  obtain ⟨m, outs, hrun, hsym, a, ha, hcount⟩ := Session.exists_of_serve (fun _ _ ↦ True) 50
    stopWaits (fun m ↦ m.hasSymbol "STOCK_1" = true ∧
      ∃ a ∈ (m.process 50 0 0 filledAtOnce).toOption.map Prod.snd, a.countP (·.isVerdict 3) = 0)
    (by decide +kernel)
  obtain ⟨⟨m', out⟩, hp, rfl⟩ := Option.map_eq_some_iff.mp ha
  have hone := hall _ _ _ hrun filledAtOnce (by decide) rfl hsym 50 0 0 m' out
    (eq_ok_of_toOption hp)
  exact absurd (hcount.symm.trans hone) (by decide)

end LobEngine
