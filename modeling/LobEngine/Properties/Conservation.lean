import LobEngine.Properties.Ledger

/-!
# Quantities are conserved

What an order was submitted with is what its trades have filled and what it still has to
trade, until it is cancelled, replaced or written off as an exhausted market order. The
amounts are those of the reference machine; a stream without modifies always lands, so they
are the amounts of the engine.
-/

namespace LobEngine

open BookOps Engine Stepper

/-! ### Orders of a well-sized stream -/

/-- An iceberg has a peak no larger than its quantity; any other order has neither peak nor
reserve. -/
def Order.Sized (o : Order) : Prop :=
  if o.type = .iceberg then o.peakQty > 0 ∧ o.peakQty ≤ o.quantity
  else o.peakQty = 0 ∧ o.reserveQty = 0

instance (o : Order) : Decidable o.Sized := inferInstanceAs (Decidable (ite _ _ _))

/-- A new order, a replacement or a cancel, the orders well sized. -/
def Sized : OrderEvent → Prop
  | .newOrder e => e.order.Sized
  | .replaceOrder e => e.newOrder.Sized
  | .cancelOrder _ => True
  | .modifyOrder _ => False

instance : DecidablePred Sized
  | .newOrder e => inferInstanceAs (Decidable e.order.Sized)
  | .replaceOrder e => inferInstanceAs (Decidable e.newOrder.Sized)
  | .cancelOrder _ => .isTrue trivial
  | .modifyOrder _ => .isFalse fun h ↦ h

theorem Sized.noModify {e : OrderEvent} (h : Sized e) : NoModify e := by
  cases e with
  | modifyOrder e => exact h
  | newOrder _ | cancelOrder _ | replaceOrder _ => trivial

theorem Order.Sized.sound {o : Order} (h : o.Sized) (st : OrderStatus) :
    { o.entering with status := st }.Sound := by
  unfold Order.Sized at h
  cases ht : o.type with
  | iceberg =>
    rw [if_pos ht] at h
    have hent : o.entering = splitIceberg o := by simp only [Order.entering, ht]
    rw [hent]
    exact ⟨fun hne ↦ absurd ht hne, fun _ ↦ h.1, by simp [splitIceberg, ht]⟩
  | limit | market | stop | stopLimit =>
    rw [if_neg (by simp [ht])] at h
    refine ⟨fun _ ↦ ?_, fun hi ↦ ?_, ?_⟩ <;>
      simp_all [Order.entering, Order.converted]

/-- An order enters with the quantity it was submitted with. -/
theorem Order.Sized.unfilled {o : Order} (h : o.Sized) (st : OrderStatus) :
    { o.entering with status := st }.unfilled = o.quantity.toNat := by
  unfold Order.Sized at h
  cases ht : o.type with
  | iceberg =>
    rw [if_pos ht] at h
    have hent : o.entering = splitIceberg o := by simp only [Order.entering, ht]
    rw [hent]
    exact splitIceberg_unfilled h.2
  | limit | market | stop | stopLimit =>
    rw [if_neg (by simp [ht])] at h
    simp [Order.unfilled, Order.entering, Order.converted, ht, h.2]

/-! ### What was submitted and what left -/

/-- The order was handed to `process_new_order`: it was new, or it replaced an order that was
found. -/
def Accepted (h : List (OrderEvent × MatchResult)) (x : Order) : Prop :=
  ∃ p ∈ h, p.1 = .newOrder ⟨x⟩ ∨
    ∃ old, p.1 = .replaceOrder ⟨old, x⟩ ∧ ¬p.2.Answers old .orderNotFound

/-- The order was cancelled, replaced or answered with `MarketExhausted`. -/
def TakenOut (h : List (OrderEvent × MatchResult)) (id : OrderId) : Prop :=
  ∃ p ∈ h, (∃ rep ∈ p.2.reports, rep.orderId = id ∧ rep.status = .cancelled) ∨
    (∃ x, p.1 = .replaceOrder ⟨id, x⟩ ∧ ¬p.2.Answers id .orderNotFound) ∨
    p.2.Answers id .marketExhausted

/-- The orders of an idle engine. -/
abbrev Engine.live (t : Engine ReferenceBook) : List Order := Config.live ⟨t, [], {}⟩

/-- How an event starts, as far as the live orders are concerned. -/
inductive LiveStart (t : Engine ReferenceBook) : OrderEvent → Config ReferenceBook → Prop
  | unchanged {e : OrderEvent} {c : Config ReferenceBook} : handed t e = none →
      c.live = t.live → LiveStart t e c
  | cancelled {e : CancelOrderEvent} {c : Config ReferenceBook} :
      c.live = t.live.filter (·.id != e.orderId) →
      (∃ rep ∈ c.result.reports, rep.orderId = e.orderId ∧ rep.status = .cancelled) →
      LiveStart t (.cancelOrder e) c
  | entered {e : NewOrderEvent} {c : Config ReferenceBook} (st : OrderStatus) :
      List.Perm c.live ({ e.order.entering with status := st } :: t.live) →
      LiveStart t (.newOrder e) c
  | replaced {e : ReplaceOrderEvent} {c : Config ReferenceBook} (st : OrderStatus) :
      handed t (.replaceOrder e) = some e.newOrder →
      List.Perm c.live ({ e.newOrder.entering with status := st } ::
        t.live.filter (·.id != e.oldOrderId)) → LiveStart t (.replaceOrder e) c

/-- Every event but a modify starts in one of these ways. -/
theorem liveStart {U : OrderId → Prop} {t : Engine ReferenceBook} {e : OrderEvent}
    (ho : Orderly U ⟨t, [], {}⟩) (hm : NoModify e) : LiveStart t e (.start t e) := by
  -- an order of the book has no other outstanding order of its identifier, and conversely
  have hout {id : OrderId} {x : Order} (hx : findOrder t.book id = some x) :
      (t.outstanding []).filter (·.id != id) = t.outstanding [] := by
    obtain ⟨hmem, rfl⟩ := ReferenceBook.mem_of_findOrder hx
    exact List.filter_eq_self.mpr fun o hmem' ↦
      bne_iff_ne.mpr fun he ↦ ho.apart o hmem' x hmem he.symm
  have hbook {stop : Order} (hstop : stop ∈ t.pendingStops) :
      t.book.allOrders.filter (·.id != stop.id) = t.book.allOrders := by
    have hmem : stop.converted ∈ t.outstanding [] := List.mem_map_of_mem hstop
    refine List.filter_eq_self.mpr fun x hx ↦ bne_iff_ne.mpr fun he ↦ ?_
    exact ho.apart _ hmem x hx (he.trans (converted_id stop).symm)
  have hstart := Config.starts t e
  generalize Config.start t e = c at hstart
  cases hstart with
  | @newOrder e =>
    obtain ⟨st, hperm⟩ := live_enter { t with sequence := t.sequence + 1 } e.order {}
    exact .entered st hperm
  | @stopCancelled e stop hf =>
    have hid : stop.id = e.orderId := by simpa using List.find?_some hf
    have hb := hbook (List.mem_of_find?_eq_some hf)
    have hids : (t.pendingStops.map Order.id).Nodup := ids_outstanding t ▸ ho.nodup
    refine .cancelled ?_ ⟨_, List.mem_singleton.mpr rfl, rfl, rfl⟩
    change t.book.allOrders ++ (t.pendingStops.eraseP (·.id == e.orderId)).map Order.converted =
      (t.book.allOrders ++ t.pendingStops.map Order.converted).filter _
    rw [List.filter_append, ← hid, hb, eraseP_eq_filter hids, List.filter_map]
    congr 2
    exact List.filter_congr fun o _ ↦ by simp only [Function.comp_apply, converted_id]
  | @orderCancelled e x hf hx =>
    refine .cancelled ?_ ⟨_, List.mem_singleton.mpr rfl, rfl, rfl⟩
    change (t.book.cancelOrder e.orderId).allOrders ++ t.outstanding [] =
      (t.book.allOrders ++ t.outstanding []).filter _
    rw [List.filter_append, hout hx, ReferenceBook.allOrders_cancelOrder]
  | cancelRejected => exact .unchanged rfl rfl
  | requeued | reduced | unmodified => exact absurd hm id
  | @replaced e hh =>
    obtain ⟨x, hx⟩ := Option.isSome_iff_exists.mp hh
    obtain ⟨st, hperm⟩ := live_enter { t with sequence := t.sequence + 1
                                              book := cancelOrder t.book e.oldOrderId }
      e.newOrder {}
    refine .replaced st (by simp [handed, hh]) (hperm.trans (List.Perm.of_eq ?_))
    congr 1
    change (t.book.cancelOrder e.oldOrderId).allOrders ++ t.outstanding [] =
      (t.book.allOrders ++ t.outstanding []).filter _
    rw [List.filter_append, hout hx, ReferenceBook.allOrders_cancelOrder]
  | replaceRejected hh => exact .unchanged (by simp [handed, hh]) rfl

/-! ### One event -/

/-- The invariant of the machine: live orders are sound, the trades are between known orders,
and no stop that waits has traded, also not in the trades `ts` of earlier events. -/
structure Audited (U : OrderId → Prop) (ts : List Trade) (c : Config ReferenceBook) : Prop where
  sound : ∀ o ∈ c.live, o.Sound
  known : ∀ t ∈ c.result.trades, U t.aggressorId ∧ U t.passiveId
  untouched : ∀ stop ∈ c.line, ∀ t ∈ ts ++ c.result.trades, t.involves stop.id = false

/-- The books balance for one order submitted with quantity `q`: what it traded and what it
still has make up `q`, or it was taken out and is not live. -/
def Balanced (ts : List Trade) (q : Nat) (id : OrderId) (out : Prop) (c : Config ReferenceBook) :
    Prop :=
  ((out ∨ c.result.Answers id .marketExhausted) ∧ ∀ o ∈ c.live, o.id ≠ id) ∨
    traded (ts ++ c.result.trades) id + balance c.live id = q

section Event

variable {U : OrderId → Prop} {ts : List Trade} {c d : Config ReferenceBook}

/-- A stop that waits is outstanding behind the active loop. -/
private theorem converted_mem {s : Engine ReferenceBook} {K : List Frame} {r : MatchResult}
    {stop : Order} (h : stop ∈ Config.line ⟨s, K, r⟩) : stop.converted ∈ s.outstanding K := by
  rcases List.mem_append.mp h with h | h
  · exact List.mem_append_right _ (List.mem_map_of_mem h)
  · obtain ⟨f, hf, hstop⟩ := List.mem_flatMap.mp h
    refine List.mem_append_left _ (List.mem_flatMap.mpr ⟨f, hf, ?_⟩)
    cases f with
    | matching a => exact absurd hstop List.not_mem_nil
    | triggers p working => exact List.mem_map_of_mem hstop

/-- Every move passes the audit. -/
theorem Audited.moves (ho : Orderly U c) (h : Audited U ts c) (hm : Config.Moves c d) :
    Audited U ts d := by
  have hsound : ∀ o ∈ d.live, o.Sound := fun o hl ↦ by
    obtain ⟨x, hx, hd⟩ := hm.live ho hl
    exact (h.sound x hx).descend hd
  rcases hm.newTrade ho.distinct with he | ⟨s, a, K, r, passive, q, rfl, hmem, -, -, he⟩
  · exact ⟨hsound, he ▸ h.known, fun stop hstop ↦ he ▸ h.untouched stop (hm.line hstop)⟩
  refine ⟨hsound, fun t ht ↦ ?_, fun stop hstop t ht ↦ ?_⟩
  · rw [he, List.mem_append, List.mem_singleton] at ht
    rcases ht with ht | rfl
    · exact h.known t ht
    · exact ⟨ho.outstanding a List.mem_cons_self, ho.known passive hmem⟩
  · rw [he, ← List.append_assoc, List.mem_append, List.mem_singleton] at ht
    rcases ht with ht | rfl
    · exact h.untouched stop (hm.line hstop) t ht
    · have hout : stop.converted ∈ s.outstanding K := converted_mem (r := r) (hm.line hstop)
      have hn := ho.nodup
      rw [outstanding_matching, List.map_cons, List.nodup_cons] at hn
      rw [Trade.involves, Bool.or_eq_false_iff, beq_eq_false_iff_ne, beq_eq_false_iff_ne]
      constructor
      · intro hid
        have hid' : stop.converted.id = a.id := (converted_id stop).trans hid.symm
        exact hn.1 (hid' ▸ List.mem_map_of_mem hout)
      · intro hid
        have hid' : passive.id = stop.converted.id := Eq.trans hid (converted_id stop).symm
        exact ho.apart _ (List.mem_cons_of_mem a hout) passive hmem hid'

/-- Every move keeps the books balanced. -/
theorem Balanced.moves {q : Nat} {id : OrderId} {out : Prop} (ho : Orderly U c)
    (hs : ∀ o ∈ c.live, o.Sound) (h : Balanced ts q id out c) (hm : Config.Moves c d) :
    Balanced ts q id out d := by
  rcases h with ⟨hout, hnone⟩ | heq
  · have hkeep : c.result.Answers id .marketExhausted → d.result.Answers id .marketExhausted := by
      rintro ⟨rej, hrej, hans⟩
      refine ⟨rej, ?_, hans⟩
      rcases hm.rejections with he | ⟨a, he⟩
      · exact he ▸ hrej
      · exact he ▸ List.mem_append_left _ hrej
    refine .inl ⟨hout.imp_right hkeep, fun o hl ↦ ?_⟩
    obtain ⟨x, hx, hd⟩ := hm.live ho hl
    rw [hd.id_eq]
    exact hnone x hx
  · rcases hm.conserves ho hs id with ⟨hans, hnone⟩ | hsame
    · exact .inl ⟨.inr hans, hnone⟩
    · right
      rw [traded_append] at heq ⊢
      omega

variable {es : List OrderEvent} {e : OrderEvent} {t : Engine ReferenceBook}

/-- An event starts audited. -/
private theorem audited_start (ho : Orderly (· ∈ submittedIds es) ⟨t, [], {}⟩)
    (hf : Fresh (es ++ [e])) (hz : Sized e) (hs : ∀ o ∈ t.live, o.Sound)
    (hk : ∀ tr ∈ ts, tr.aggressorId ∈ submittedIds es ∧ tr.passiveId ∈ submittedIds es)
    (hu : ∀ stop ∈ t.pendingStops, ∀ tr ∈ ts, tr.involves stop.id = false) :
    Audited (· ∈ submittedIds (es ++ [e])) ts (.start t e) := by
  have hstart := liveStart ho hz.noModify
  refine ⟨?_, fun tr htr ↦ ?_, fun stop hstop tr htr ↦ ?_⟩
  · generalize Config.start t e = c at hstart
    intro o hl
    cases hstart with
    | unchanged _ he => exact hs o (he ▸ hl)
    | cancelled he => exact hs o (List.mem_filter.mp (he ▸ hl)).1
    | entered st hperm =>
      rcases List.mem_cons.mp (hperm.mem_iff.mp hl) with rfl | hl
      · exact Order.Sized.sound hz st
      · exact hs o hl
    | replaced st _ hperm =>
      rcases List.mem_cons.mp (hperm.mem_iff.mp hl) with rfl | hl
      · exact Order.Sized.sound hz st
      · exact hs o (List.mem_filter.mp hl).1
  · rw [start_trades] at htr
    exact absurd htr List.not_mem_nil
  · rw [start_trades, List.append_nil] at htr
    rcases line_start_cases hstop with hstop | ⟨o, ho, hid⟩
    · exact hu stop hstop tr htr
    · rw [hid]
      exact tr.involves_eq_false (hk tr htr) (hf.handed ho)

/-- The event takes the order out: it is cancelled, or replaced by an order that is handed over. -/
private def Takes (t : Engine ReferenceBook) (e : OrderEvent) (id : OrderId) : Prop :=
  (∃ rep ∈ (Config.start t e).result.reports, rep.orderId = id ∧ rep.status = .cancelled) ∨
    ∃ x, e = .replaceOrder ⟨id, x⟩ ∧ handed t e = some x

/-- The books of an earlier order are balanced when an event starts. -/
private theorem balanced_start (ho : Orderly (· ∈ submittedIds es) ⟨t, [], {}⟩)
    (hf : Fresh (es ++ [e])) (hz : Sized e) {q : Nat} {id : OrderId} {out : Prop}
    (hid : id ∈ submittedIds es)
    (h : (out ∧ ∀ o ∈ t.live, o.id ≠ id) ∨ traded ts id + balance t.live id = q) :
    Balanced ts q id (out ∨ Takes t e id) (.start t e) := by
  have hnew {x : Order} (hx : handed t e = some x) : x.id ≠ id := by
    intro he
    exact hf.handed hx (he ▸ hid)
  have hbal (heq : balance (Config.start t e).live id = balance t.live id)
      (hsub : (∀ o ∈ t.live, o.id ≠ id) → ∀ o ∈ (Config.start t e).live, o.id ≠ id) :
      Balanced ts q id (out ∨ Takes t e id) (.start t e) := by
    rcases h with ⟨hout, hnone⟩ | hsum
    · exact .inl ⟨.inl (.inl hout), hsub hnone⟩
    · refine .inr ?_
      rw [start_trades, List.append_nil, heq]
      exact hsum
  have hstart := liveStart ho hz.noModify
  generalize hc : Config.start t e = c at hstart hbal
  cases hstart with
  | unchanged _ he => exact hbal (congrArg (balance · id) he) fun hnone o hl ↦ hnone o (he ▸ hl)
  | @cancelled e _ he hrep =>
    by_cases hcancel : e.orderId = id
    · refine .inl ⟨.inl (.inr (.inl ?_)), fun o hl ↦ ?_⟩
      · rw [hc, ← hcancel]
        exact hrep
      · rw [he, hcancel] at hl
        exact bne_iff_ne.mp (List.mem_filter.mp hl).2
    · refine hbal ?_ fun hnone o hl ↦ hnone o (List.mem_filter.mp (he ▸ hl)).1
      rw [he, balance_filter (Ne.symm hcancel)]
  | @entered e _ st hperm =>
    have hne : ({ e.order.entering with status := st } : Order).id ≠ id :=
      e.order.entering_id ▸ hnew rfl
    refine hbal ?_ fun hnone o hl ↦ ?_
    · rw [balance_perm hperm, balance_cons, if_neg hne, Nat.zero_add]
    · rcases List.mem_cons.mp (hperm.mem_iff.mp hl) with rfl | hl
      · exact hne
      · exact hnone o hl
  | @replaced e _ st hh hperm =>
    have hne : ({ e.newOrder.entering with status := st } : Order).id ≠ id :=
      e.newOrder.entering_id ▸ hnew hh
    by_cases hold : e.oldOrderId = id
    · refine .inl ⟨.inl (.inr (.inr ⟨e.newOrder, hold ▸ rfl, hh⟩)), fun o hl ↦ ?_⟩
      rcases List.mem_cons.mp (hperm.mem_iff.mp hl) with rfl | hl
      · exact hne
      · rw [hold] at hl
        exact bne_iff_ne.mp (List.mem_filter.mp hl).2
    · refine hbal ?_ fun hnone o hl ↦ ?_
      · rw [balance_perm hperm, balance_cons, if_neg hne, Nat.zero_add,
          balance_filter (Ne.symm hold)]
      · rcases List.mem_cons.mp (hperm.mem_iff.mp hl) with rfl | hl
        · exact hne
        · exact hnone o (List.mem_filter.mp hl).1

/-- The books of the order that an event hands over are balanced when it starts. -/
private theorem balanced_start_new (ho : Orderly (· ∈ submittedIds es) ⟨t, [], {}⟩)
    (hf : Fresh (es ++ [e])) (hz : Sized e) {x : Order} {out : Prop} (hx : handed t e = some x)
    (hk : ∀ tr ∈ ts, tr.aggressorId ∈ submittedIds es ∧ tr.passiveId ∈ submittedIds es) :
    Balanced ts x.quantity.toNat x.id out (.start t e) := by
  have hnew := hf.handed hx
  have hnone : ∀ o ∈ t.live, o.id ≠ x.id := ho.live_ne hnew
  have htraded : traded ts x.id = 0 :=
    List.sumOver_eq_zero fun tr htr ↦ tr.involves_eq_false (hk tr htr) hnew
  refine .inr ?_
  rw [start_trades, List.append_nil, htraded, Nat.zero_add]
  have hstart := liveStart ho hz.noModify
  generalize Config.start t e = c at hstart
  cases hstart with
  | unchanged he => exact absurd (he.symm.trans hx) (by simp)
  | cancelled => exact absurd hx (by simp [handed])
  | @entered e _ st hperm =>
    obtain rfl : e.order = x := Option.some.inj hx
    rw [balance_perm hperm, balance_cons, if_pos e.order.entering_id, balance_eq_zero hnone,
      Order.Sized.unfilled hz st, Nat.add_zero]
  | @replaced e _ st hh hperm =>
    obtain rfl : e.newOrder = x := Option.some.inj (hh.symm.trans hx)
    rw [balance_perm hperm, balance_cons, if_pos e.newOrder.entering_id,
      balance_eq_zero fun o hl ↦ hnone o (List.mem_filter.mp hl).1,
      Order.Sized.unfilled hz st, Nat.add_zero]

end Event

/-- A replacement is handed over exactly if the answer is not `OrderNotFound`. -/
private theorem Submits.handed_replace {t t' : Engine ReferenceBook} {e : ReplaceOrderEvent}
    {r : MatchResult} (h : Submits t (.replaceOrder e) t' r) :
    handed t (.replaceOrder e) = some e.newOrder ↔ ¬r.Answers e.oldOrderId .orderNotFound := by
  cases hh : hasOrder t.book e.oldOrderId with
  | true =>
    simp only [handed, hh, ↓reduceIte, true_iff]
    rintro ⟨rej, hrej, -, hreason⟩
    rcases h.rejections rej hrej with hmem | hmarket
    · simp only [Config.start, hh, ↓reduceIte, enter_result] at hmem
      exact absurd hmem List.not_mem_nil
    · rw [hreason] at hmarket
      exact absurd hmarket (by decide)
  | false =>
    have hidle := h.of_idle (by simp [Config.start, hh])
    simp only [Config.start, hh, Bool.false_eq_true, ↓reduceIte, Config.mk.injEq] at hidle
    simp only [handed, hh, Bool.false_eq_true, ↓reduceIte, false_iff, not_not,
      reduceCtorEq]
    rw [← hidle.2.2]
    exact ⟨_, List.mem_singleton.mpr rfl, rfl, rfl⟩

/-! ### Runs -/

/-- The accounts of the reference engine after a stream. -/
structure Settled (es : List OrderEvent) (rs : List MatchResult) (t : Engine ReferenceBook) :
    Prop where
  length : es.length = rs.length
  sound : ∀ o ∈ t.live, o.Sound
  known : ∀ tr ∈ rs.flatMap MatchResult.trades,
    tr.aggressorId ∈ submittedIds es ∧ tr.passiveId ∈ submittedIds es
  untouched : ∀ stop ∈ t.pendingStops, ∀ tr ∈ rs.flatMap MatchResult.trades,
    tr.involves stop.id = false
  balanced : ∀ x, Accepted (es.zip rs) x →
    (TakenOut (es.zip rs) x.id ∧ ∀ o ∈ t.live, o.id ≠ x.id) ∨
      traded (rs.flatMap MatchResult.trades) x.id + balance t.live x.id = x.quantity.toNat

/-- An accepted order was submitted. -/
private theorem Accepted.submitted {es : List OrderEvent} {rs : List MatchResult} {x : Order}
    (h : Accepted (es.zip rs) x) : x.id ∈ submittedIds es := by
  obtain ⟨p, hp, hx⟩ := h
  have hx' : x ∈ p.1.orders := by
    rcases hx with hx | ⟨old, hx, -⟩
    · rw [hx]
      exact List.mem_singleton.mpr rfl
    · rw [hx]
      exact List.mem_singleton.mpr rfl
  exact List.mem_map_of_mem (List.mem_flatMap.mpr ⟨p.1, (List.of_mem_zip hp).1, hx'⟩)

/-- One more event. -/
private theorem Settled.snoc {es : List OrderEvent} {e : OrderEvent} {rs : List MatchResult}
    {r : MatchResult} {t t' : Engine ReferenceBook} (h : Settled es rs t)
    (hrun : Run (fun _ ↦ Sized) es t rs) (hf : Fresh (es ++ [e])) (hz : Sized e)
    (hs : Submits t e t' r) : Settled (es ++ [e]) (rs ++ [r]) t' := by
  have hord := hrun.orderly hf.left {}
  have haud := hrun.submit_induction hf hs
    (fun _ ↦ audited_start hord hf hz h.sound h.known h.untouched) fun _ _ ho h hm ↦ h.moves ho hm
  -- the books of one order, from the start of the event to its end
  have hbal {q : Nat} {id : OrderId} {out : Prop}
      (hb : Balanced (rs.flatMap MatchResult.trades) q id out (.start t e)) :
      Balanced (rs.flatMap MatchResult.trades) q id out ⟨t', [], r⟩ := by
    have hboth := hrun.submit_induction hf hs
      (P := fun c ↦ Audited (· ∈ submittedIds (es ++ [e])) (rs.flatMap MatchResult.trades) c ∧
        Balanced (rs.flatMap MatchResult.trades) q id out c)
      (fun _ ↦ ⟨audited_start hord hf hz h.sound h.known h.untouched, hb⟩)
      fun _ _ ho h hm ↦ ⟨h.1.moves ho hm, h.2.moves ho h.1.sound hm⟩
    exact hboth.2
  have hzip : (es ++ [e]).zip (rs ++ [r]) = es.zip rs ++ [(e, r)] := List.zip_append h.length
  have hlast {id : OrderId} (hout : (TakenOut (es.zip rs) id ∨ Takes t e id) ∨
      r.Answers id .marketExhausted) : TakenOut ((es ++ [e]).zip (rs ++ [r])) id := by
    rw [hzip]
    rcases hout with (⟨p, hp, hout⟩ | htakes) | hans
    · exact ⟨p, List.mem_append_left _ hp, hout⟩
    · refine ⟨(e, r), List.mem_append_right _ List.mem_cons_self, ?_⟩
      rcases htakes with hrep | ⟨x, rfl, hx⟩
      · exact .inl (hs.reports ▸ hrep)
      · exact .inr (.inl ⟨x, rfl, hs.handed_replace.mp hx⟩)
    · exact ⟨(e, r), List.mem_append_right _ List.mem_cons_self, .inr (.inr hans)⟩
  refine ⟨by simp [h.length], haud.sound, fun tr htr ↦ ?_, fun stop hstop tr htr ↦ ?_,
    fun x hx ↦ ?_⟩
  · rw [List.flatMap_append, List.flatMap_singleton, List.mem_append] at htr
    rcases htr with htr | htr
    · obtain ⟨ha, hp⟩ := h.known tr htr
      rw [submittedIds_append]
      exact ⟨List.mem_append_left _ ha, List.mem_append_left _ hp⟩
    · exact haud.known tr htr
  · rw [List.flatMap_append, List.flatMap_singleton] at htr
    exact haud.untouched stop (List.mem_append_left _ hstop) tr htr
  · have hfin {out : Prop} (hb : Balanced (rs.flatMap MatchResult.trades) x.quantity.toNat x.id out
        ⟨t', [], r⟩) (hout : out ∨ r.Answers x.id .marketExhausted →
          TakenOut ((es ++ [e]).zip (rs ++ [r])) x.id) :
        (TakenOut ((es ++ [e]).zip (rs ++ [r])) x.id ∧ ∀ o ∈ t'.live, o.id ≠ x.id) ∨
          traded ((rs ++ [r]).flatMap MatchResult.trades) x.id + balance t'.live x.id =
            x.quantity.toNat := by
      rw [List.flatMap_append, List.flatMap_singleton]
      exact hb.imp_left fun ⟨h, hnone⟩ ↦ ⟨hout h, hnone⟩
    have hnew (hx : handed t e = some x) :=
      hfin (hbal (balanced_start_new hord hf hz hx h.known : Balanced _ _ _ False _))
        fun hout ↦ hlast (.inr (hout.resolve_left id))
    rw [hzip] at hx
    obtain ⟨p, hp, hacc⟩ := hx
    rcases List.mem_append.mp hp with hp | hp
    · have hold : Accepted (es.zip rs) x := ⟨p, hp, hacc⟩
      exact hfin (hbal (balanced_start hord hf hz hold.submitted (h.balanced x hold))) hlast
    · obtain rfl := List.mem_singleton.mp hp
      rcases hacc with rfl | ⟨old, rfl, hans⟩
      · exact hnew rfl
      · exact hnew (hs.handed_replace.mpr hans)

theorem Run.settled {es : List OrderEvent} {t : Engine ReferenceBook} {rs : List MatchResult}
    (h : Run (fun _ ↦ Sized) es t rs) (hf : Fresh es) : Settled es rs t := by
  induction h with
  | nil =>
    exact ⟨rfl, fun o ho ↦ absurd ho List.not_mem_nil, fun tr ht ↦ absurd ht List.not_mem_nil,
      fun stop hs ↦ absurd hs List.not_mem_nil, fun x ⟨p, hp, _⟩ ↦ absurd hp List.not_mem_nil⟩
  | snoc hrun hz hs ih => exact (ih hf.left).snoc hrun hf hz hs

/-- Live orders have distinct identifiers. -/
theorem Orderly.live_nodup {U : OrderId → Prop} {c : Config ReferenceBook} (h : Orderly U c) :
    (c.live.map Order.id).Nodup := by
  rw [Config.live, List.map_append, List.nodup_append]
  refine ⟨h.distinct, h.nodup, fun id hid id' hid' he ↦ ?_⟩
  obtain ⟨x, hx, rfl⟩ := List.mem_map.mp hid
  obtain ⟨o, ho, rfl⟩ := List.mem_map.mp hid'
  exact h.apart o ho x hx he

/-- The balance of an order that is live is what it has left. -/
private theorem Settled.balance_eq {es : List OrderEvent} {rs : List MatchResult}
    {t : Engine ReferenceBook} (h : Settled es rs t)
    (ho : Orderly (· ∈ submittedIds es) ⟨t, [], {}⟩) {x o : Order}
    (hx : Accepted (es.zip rs) x) (hl : o ∈ t.live) (hid : o.id = x.id) :
    traded (rs.flatMap MatchResult.trades) x.id + o.unfilled = x.quantity.toNat := by
  rcases h.balanced x hx with ⟨-, hnone⟩ | hsum
  · exact absurd hid (hnone o hl)
  · have hbal : balance t.live o.id = o.unfilled := List.sumOver_eq_of_mem ho.live_nodup hl
    rwa [← hid, hbal, hid] at hsum

theorem Sized.lands {L : Type} [PriceLevelOps L] [LawfulPriceLevel L]
    (s : Engine (OrderBook L)) {e : OrderEvent} (h : Sized e) : Lands s e := by
  cases e with
  | modifyOrder e => exact absurd h id
  | newOrder _ | cancelOrder _ | replaceOrder _ => trivial

/-- Quantities are conserved over every fresh well-sized stream, for every order that was
handed to `process_new_order`. -/
theorem run_conserves_quantity {es : List OrderEvent} {s : Engine (OrderBook PriceLevel)}
    {rs : List MatchResult} (h : Run (fun _ ↦ Sized) es s rs) (hf : Fresh es) {x : Order}
    (hx : Accepted (es.zip rs) x) :
    (∀ o, s.book.findOrder x.id = some o → traded (rs.flatMap MatchResult.trades) x.id +
        o.quantity.toNat + o.reserveQty.toNat = x.quantity.toNat) ∧
      (∀ stop ∈ s.pendingStops, stop.id = x.id →
        traded (rs.flatMap MatchResult.trades) x.id = 0 ∧ stop.quantity = x.quantity) ∧
      (s.book.findOrder x.id = none → (∀ stop ∈ s.pendingStops, stop.id ≠ x.id) →
        ¬TakenOut (es.zip rs) x.id →
          traded (rs.flatMap MatchResult.trades) x.id = x.quantity.toNat) := by
  obtain ⟨t, ht, href⟩ := h.refines (E := Sized) (fun _ hz ↦ hz.lands _) (fun hz ↦ hz) hf
  have hset := ht.settled hf
  have hord := ht.orderly hf {}
  have hpending : t.pendingStops = s.pendingStops := by
    rw [href.agree]
    rfl
  rw [href.tracks.represents.find, ← hpending]
  refine ⟨fun o ho ↦ ?_, fun stop hstop hid ↦ ?_, fun hnone hstops hin ↦ ?_⟩
  · obtain ⟨hmem, hid⟩ := ReferenceBook.mem_of_findOrder ho
    have hsum := hset.balance_eq hord hx (List.mem_append_left _ hmem) hid
    rw [Order.unfilled] at hsum
    omega
  · have hmem : stop.converted ∈ t.live :=
      List.mem_append_right _ (List.mem_map_of_mem hstop)
    have hsum := hset.balance_eq hord hx hmem ((converted_id stop).trans hid)
    have hzero : traded (rs.flatMap MatchResult.trades) x.id = 0 :=
      List.sumOver_eq_zero fun tr htr ↦ hid ▸ hset.untouched stop hstop tr htr
    have hres := (hset.sound _ hmem).plain (converted_ne_iceberg stop)
    have hqty : stop.converted.quantity = stop.quantity := by
      rw [Order.converted]
      split <;> rfl
    rw [hzero, Order.unfilled, hres, hqty, Nat.zero_add, UInt64.toNat_zero, Nat.add_zero] at hsum
    exact ⟨hzero, UInt64.toNat_inj.mp hsum⟩
  · rcases hset.balanced x hx with ⟨hout, -⟩ | hsum
    · exact absurd hout hin
    · have hbal : balance t.live x.id = 0 := balance_eq_zero fun o hl ↦ by
        rcases List.mem_append.mp hl with hl | hl
        · exact ReferenceBook.findOrder_eq_none_iff.mp hnone o hl
        · obtain ⟨stop, hstop, rfl⟩ := List.mem_map.mp hl
          rw [converted_id]
          exact hstops stop hstop
      omega

/-- Order 2 takes the first peak of the iceberg and part of the second; its second trade is
preceded by the conversion of stop 3, which trades with the iceberg as well. -/
private def peaks : List OrderEvent :=
  [.newOrder ⟨{ id := 1, side := .sell, type := .iceberg, price := 100, quantity := 30
                peakQty := 10 }⟩,
    .newOrder ⟨{ id := 3, type := .stop, stopPrice := 100, quantity := 4 }⟩,
    .newOrder ⟨{ id := 2, price := 100, quantity := 12 }⟩]

theorem run_conserves_quantity_peaks : ∃ (s : Engine (OrderBook PriceLevel))
    (rs : List MatchResult) (o : Order), s.book.findOrder 1 = some o ∧ o.reserveQty = 10 ∧
      traded (rs.flatMap MatchResult.trades) 1 + o.quantity.toNat + o.reserveQty.toNat = 30 := by
  let x : Order := { id := 1, side := .sell, type := .iceberg, price := 100, quantity := 30
                     peakQty := 10 }
  obtain ⟨s, rs, hrun, ⟨p, hp, hnew⟩, o, ho, hres⟩ :=
    Run.exists_of_play (B := OrderBook PriceLevel) (fun _ ↦ Sized) 50 peaks
      (fun s rs ↦ (∃ p ∈ peaks.zip rs, p.1 = .newOrder ⟨x⟩) ∧
        ∃ o ∈ s.book.findOrder 1, o.reserveQty = 10) (by decide +kernel)
  exact ⟨s, rs, o, ho, hres,
    (run_conserves_quantity hrun (by decide) ⟨p, hp, .inl hnew⟩).1 o ho⟩

/-- An order that was submitted to replace an unknown one is in neither place, has traded
nothing, and was not cancelled, replaced or answered with `MarketExhausted`. -/
theorem replace_loses_quantity : ¬∀ (es : List OrderEvent) (s : Engine (OrderBook PriceLevel))
    (rs : List MatchResult), Run (fun _ ↦ Sized) es s rs → Fresh es →
      ∀ x ∈ submittedOrders es, s.book.findOrder x.id = none →
        (∀ stop ∈ s.pendingStops, stop.id ≠ x.id) → ¬TakenOut (es.zip rs) x.id →
          traded (rs.flatMap MatchResult.trades) x.id = x.quantity.toNat := by
  intro hall
  let x : Order := { id := 1, price := 100, quantity := 10 }
  obtain ⟨s, rs, hrun, hnone, hstops, rfl⟩ :=
    Run.exists_of_play (B := OrderBook PriceLevel) (fun _ ↦ Sized) 50 [.replaceOrder ⟨7, x⟩]
      (fun s rs ↦ s.book.findOrder 1 = none ∧ s.pendingStops = [] ∧
        rs = [rejected 7 .orderNotFound 0]) (by decide +kernel)
  have hin : ¬TakenOut ([OrderEvent.replaceOrder ⟨7, x⟩].zip [rejected 7 .orderNotFound 0]) 1 := by
    rintro ⟨p, hp, hout⟩
    obtain rfl := List.mem_singleton.mp hp
    rcases hout with ⟨rep, hrep, -⟩ | ⟨y, hy, -⟩ | ⟨rej, hrej, hid, -⟩
    · exact absurd hrep List.not_mem_nil
    · exact absurd hy (by simp)
    · obtain rfl := List.mem_singleton.mp hrej
      exact absurd hid (by decide)
  have hsum := hall _ s _ hrun (by decide) x (List.mem_singleton.mpr rfl) hnone
    (fun stop hstop ↦ absurd (hstops ▸ hstop) List.not_mem_nil) hin
  exact absurd hsum (by decide)

end LobEngine
