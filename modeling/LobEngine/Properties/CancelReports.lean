import LobEngine.Gateway.ExchangeManager
import LobEngine.Properties.Conservation
import LobEngine.Properties.Overtrading

/-!
# What a cancel confirmation reports

While an order is live, what it has traded and what it can still trade make up the quantity it was
submitted with. A cancel confirmation reports `quantity`. That is what a stop or a plain order can
still trade; of an iceberg it is the displayed part, and the reserve is not reported.
-/

namespace LobEngine

open BookOps Engine

/-- An iceberg has a peak no larger than its quantity, and no other order has a peak. -/
def Order.Peaked (o : Order) : Prop :=
  if o.type = .iceberg then o.peakQty > 0 ∧ o.peakQty ≤ o.quantity else o.peakQty = 0

instance (o : Order) : Decidable o.Peaked := inferInstanceAs (Decidable (ite _ _ _))

/-- A new order, a replacement or a cancel, with peaks on the icebergs only. -/
def Peaked (e : OrderEvent) : Prop := NoModify e ∧ ∀ o ∈ e.orders, o.Peaked

instance : DecidablePred Peaked := fun e ↦ inferInstanceAs (Decidable (NoModify e ∧ _))

/-- The cancel of an order that was submitted with quantity `q` and traded `done` before it is
confirmed with what is left of the order, in the report and in the event made of it. -/
structure Accounts (s' : Engine (OrderBook PriceLevel)) (r : MatchResult) (q done : Nat) :
    Prop where
  report : ∀ rep ∈ r.reports, rep.status = .cancelled → rep.remainingQty.toNat + done = q
  event : ∀ ts msg ev, .orderCanceled ev ∈ ExchangeManager.translateResult ts msg r s'.book →
    ev.remainingQty.toNat + done = q

/-- The book holds the order as an iceberg with something in reserve. -/
def HoldsReserve (s : Engine (OrderBook PriceLevel)) (id : OrderId) : Prop :=
  ∃ o, s.book.findOrder id = some o ∧ o.isIceberg = true ∧ o.reserveQty > 0

/-! ### Orders with their peaks -/

namespace Order

variable {o x : Order}

/-- Exactly the icebergs have a peak. -/
def PeakFits (o : Order) : Prop := 0 < o.peakQty ↔ o.type = .iceberg

theorem PeakFits.descend (h : x.PeakFits) (hd : o.Descends x) : o.PeakFits := by
  unfold PeakFits
  rw [hd.peak_eq, hd.type_eq]
  exact h

private theorem Peaked.covered (h : o.Peaked) : o.Covered := by
  unfold Peaked at h
  unfold Covered
  split
  · next ht =>
    rw [if_pos ht] at h
    exact h.2
  · next ht =>
    rw [if_neg ht] at h
    exact fun _ ↦ .inl h

private theorem Peaked.peakFits (h : o.Peaked) (st : OrderStatus) :
    { o.entering with status := st }.PeakFits := by
  unfold Peaked at h
  cases ht : o.type with
  | iceberg =>
    rw [if_pos ht] at h
    simp [PeakFits, entering, splitIceberg, ht, h.1]
  | limit | market | stop | stopLimit =>
    rw [if_neg (by simp [ht])] at h
    simp [PeakFits, entering, converted, ht, h]

private theorem PeakFits.isIceberg_iff (h : o.PeakFits) :
    o.isIceberg = true ↔ o.type = .iceberg := by
  have hiff : 0 < o.peakQty ↔ o.type = .iceberg := h
  rw [← hiff, isIceberg, decide_eq_true_eq]

/-- Only icebergs come to trade their reserve. -/
private theorem PeakFits.tradable_eq (h : o.PeakFits) : o.tradable = o.worth := by
  have hshow : o.showsReserve = o.isIceberg := by
    have hiff := h.isIceberg_iff
    unfold showsReserve
    cases hi : o.isIceberg <;> simp_all
  rw [tradable, worth, hshow]

/-- An order with its peak can trade exactly its quantity when it enters. -/
private theorem Peaked.worth_entering (h : o.Peaked) (st : OrderStatus) :
    { o.entering with status := st }.worth = o.quantity.toNat := by
  unfold Peaked at h
  cases ht : o.type with
  | iceberg =>
    rw [if_pos ht] at h
    have hsplit := splitIceberg_unfilled h.2
    simp only [unfilled] at hsplit
    have hice : (splitIceberg o).isIceberg = true := by simpa [isIceberg, splitIceberg] using h.1
    have hent : o.entering = splitIceberg o := by simp only [entering, ht]
    change o.entering.worth = _
    rw [hent, worth, if_pos hice, hsplit]
  | limit | market | stop | stopLimit =>
    rw [if_neg (by simp [ht])] at h
    simp [worth, entering, converted, isIceberg, ht, h]

end Order

/-! ### Moves -/

namespace Config

variable {U : OrderId → Prop} {c d : Config ReferenceBook} {id : OrderId}

/-- An aggressor that leaves the book as it is when its loop is left is not live after that. -/
private theorem not_live_of_left {s : Engine ReferenceBook} {a : Order} {K : List Frame}
    {r : MatchResult} (ho : Orderly U ⟨s, .matching a :: K, r⟩)
    (hlive : ∃ o ∈ s.book.allOrders ++ s.outstanding K, o.id = id) : a.id ≠ id := by
  rintro rfl
  obtain ⟨o, hmem, hid⟩ := hlive
  have hn := ho.nodup
  rw [outstanding_matching, List.map_cons, List.nodup_cons] at hn
  rcases List.mem_append.mp hmem with hmem | hmem
  · exact ho.apart a List.mem_cons_self o hmem hid
  · exact hn.1 (hid ▸ List.mem_map_of_mem hmem)

/-- Leaving a match loop takes nothing from an order that is live after it. -/
private theorem credit_le_settle {s : Engine ReferenceBook} {a a' : Order} {K : List Frame}
    {r r' : MatchResult} (ho : Orderly U ⟨s, .matching a :: K, r⟩) (hid : a'.id = a.id)
    (ht : a'.tradable = a.tradable) (hlive : ∃ o ∈ live ⟨settle s a', K, r'⟩, o.id = id) :
    credit (live ⟨s, .matching a :: K, r⟩) id ≤ credit (live ⟨settle s a', K, r'⟩) id := by
  simp only [live, outstanding_settle, outstanding_matching, credit_append, credit_cons] at hlive ⊢
  rcases settle_eq s a' with he | he
  · rw [he] at hlive ⊢
    rw [if_neg (not_live_of_left ho hlive)]
    omega
  · have hperm : List.Perm (settle s a').book.allOrders (a' :: s.book.allOrders) := by
      rw [he]
      exact ReferenceBook.allOrders_insertOrder _ _
    rw [credit_perm hperm, credit_cons, hid, ht]
    omega

/-- No move takes from an order that is live after it, but by a trade. -/
private theorem Moves.retains (h : Moves c d) (ho : Orderly U c) (hp : ∀ o ∈ c.live, o.PeakFits)
    (hlive : ∃ o ∈ d.live, o.id = id) :
    traded c.result.trades id + credit c.live id ≤
      traded d.result.trades id + credit d.live id := by
  cases h with
  | @filled s a K r h0 =>
    have hkeep : credit (Config.live ⟨s, .matching a :: K, r⟩) id ≤
        credit (Config.live ⟨settle s (markFilled a), K, r⟩) id :=
      credit_le_settle ho (markFilled_descends a).id_eq (tradable_markFilled a) hlive
    exact Nat.add_le_add_left hkeep _
  | uncrossed => exact Nat.add_le_add_left (credit_le_settle ho rfl rfl hlive) _
  | unopposed => exact Nat.add_le_add_left (credit_le_settle ho rfl rfl hlive) _
  | @exhausted s a K r =>
    have hne : a.id ≠ id := not_live_of_left ho hlive
    change _ ≤ traded r.trades id + credit (s.book.allOrders ++ s.outstanding K) id
    simp only [Config.live, outstanding_matching, credit_append, credit_cons, if_neg hne]
    omega
  | @fill s a passive K r p key book book' q hq hb ht hpick hqq hset =>
    obtain ⟨rfl, rfl, ⟨rest, hrest⟩, -⟩ := ho.distinct.of_pickPassive hpick
    have hmem := (ReferenceBook.mem_of_head hrest).1
    have hne := ho.apart a List.mem_cons_self passive hmem
    have hqa : q ≤ a.quantity := hqq ▸ Std.min_le_left
    have hqp : q ≤ passive.quantity := hqq ▸ Std.min_le_right
    have hfits : passive.PeakFits := hp passive (List.mem_append_left _ hmem)
    have hpassive : ((passive.leftAfter q).toList.map Order.tradable).sum + q.toNat + 0 =
        passive.tradable := by
      have hsame : (passive.leftAfter q).toList.map Order.tradable =
          (passive.leftAfter q).toList.map Order.worth := by
        apply List.map_congr_left
        intro x hx
        exact (hfits.descend (leftAfter_descends hx)).tradable_eq
      rw [Nat.add_zero, hsame, worth_leftAfter hqp, hfits.tradable_eq]
    have hfill := held_fill (r := r) (K := K) ho.distinct hmem hne
      (ho.distinct.filled hmem hset) (tradable_debited hqa) hpassive id
    rw [evaluate_result]
    rw [ite_self, Nat.add_zero] at hfill
    exact Nat.le_of_eq hfill.symm
  | evaluated => exact Nat.le_refl _
  | @triggered s p stop working K r ht =>
    simp only [Config.live, enterConverted, outstanding_matching, outstanding_triggers,
      credit_append, credit_cons]
    exact Nat.le_refl _
  | @kept s p stop working K r ht =>
    simp only [Config.live, outstanding_triggers, credit_append,
      credit_perm (outstanding_kept s stop _)]
    exact Nat.le_refl _

end Config

/-! ### Runs -/

/-- The invariant of the machine: orders stay within their budget, icebergs have their peaks, and
what a live order has traded, also in the trades `ts` of earlier events, and can still trade is no
less than what it was submitted with. -/
structure Accounted (U : OrderId → Prop) (ts : List Trade) (os : List Order)
    (c : Config ReferenceBook) : Prop where
  budget : Budgeted U ts os c
  fits : ∀ o ∈ c.live, o.PeakFits
  covered : ∀ x ∈ os, (∃ o ∈ c.live, o.id = x.id) →
    x.quantity.toNat ≤ traded (ts ++ c.result.trades) x.id + credit c.live x.id

/-- Every move keeps the accounts. -/
theorem Accounted.moves {U : OrderId → Prop} {ts : List Trade} {os : List Order}
    {c d : Config ReferenceBook} (ho : Orderly U c) (h : Accounted U ts os c)
    (hm : Config.Moves c d) : Accounted U ts os d := by
  refine ⟨h.budget.moves ho hm, fun o hl ↦ ?_, fun x hx hlive ↦ ?_⟩
  · obtain ⟨x, hx, hd⟩ := hm.live ho hl
    exact (h.fits x hx).descend hd
  · have hbefore : ∃ o ∈ c.live, o.id = x.id := by
      obtain ⟨o, hl, hid⟩ := hlive
      obtain ⟨y, hy, hd⟩ := hm.live ho hl
      exact ⟨y, hy, hd.id_eq.symm.trans hid⟩
    have hcovered := h.covered x hx hbefore
    have hretains := hm.retains ho h.fits hlive
    rw [traded_append] at hcovered ⊢
    omega

/-- The accounts of an event join those of the events before it. -/
private theorem Accounted.closed {U : OrderId → Prop} {ts : List Trade} {os : List Order}
    {t : Engine ReferenceBook} {r : MatchResult} (h : Accounted U ts os ⟨t, [], r⟩) :
    Accounted U (ts ++ r.trades) os ⟨t, [], {}⟩ := by
  obtain ⟨⟨hrests, hknown, hwithin⟩, hfits, hcovered⟩ := h
  refine ⟨⟨hrests, ?_, ?_⟩, hfits, ?_⟩
  · rw [List.append_nil]
    exact hknown
  · rw [List.append_nil]
    exact hwithin
  · rw [List.append_nil]
    exact hcovered

section Run

variable {es : List OrderEvent} {e : OrderEvent} {s s' : Engine (OrderBook PriceLevel)}
  {t t' : Engine ReferenceBook} {rs : List MatchResult} {r : MatchResult} {ts : List Trade}

private theorem Peaked.coversReserve {B : Type} [BookOps B] {s : Engine B} (h : Peaked e) :
    CoversReserve s e := by
  refine ⟨h.1, fun o ho ↦ (h.2 o ?_).covered⟩
  rw [orders_of_handed ho]
  exact List.mem_singleton.mpr rfl

/-- A live order that was submitted before an event has the same credit when the event starts. -/
private theorem credit_start_eq (ho : Orderly (· ∈ submittedIds es) ⟨t, [], {}⟩)
    (hf : Fresh (es ++ [e])) (hm : NoModify e) {id : OrderId} (hid : id ∈ submittedIds es)
    (hlive : ∃ o ∈ (Config.start t e).live, o.id = id) :
    (∃ o ∈ t.live, o.id = id) ∧ credit (Config.start t e).live id = credit t.live id := by
  have hnew {x : Order} (hx : handed t e = some x) (st : OrderStatus) :
      ({ x.entering with status := st } : Order).id ≠ id := by
    intro he
    have hxid : x.id = id := x.entering_id ▸ he
    exact hf.handed hx (hxid ▸ hid)
  have hfilter {id' : OrderId} (h : ∃ o ∈ t.live.filter (·.id != id'), o.id = id) :
      (∃ o ∈ t.live, o.id = id) ∧ credit (t.live.filter (·.id != id')) id = credit t.live id := by
    obtain ⟨o, hmem, hoid⟩ := h
    obtain ⟨hl, hne⟩ := List.mem_filter.mp hmem
    have hne' : id ≠ id' := hoid ▸ bne_iff_ne.mp hne
    exact ⟨⟨o, hl, hoid⟩, List.sumOver_filter fun _ _ hy ↦
      bne_iff_ne.mpr fun he ↦ hne' ((beq_iff_eq.mp hy).symm.trans he)⟩
  have hstart := liveStart ho hm
  generalize Config.start t e = c at hstart hlive
  cases hstart with
  | unchanged _ he =>
    rw [he] at hlive ⊢
    exact ⟨hlive, rfl⟩
  | cancelled he =>
    rw [he] at hlive ⊢
    exact hfilter hlive
  | @entered e _ st hperm =>
    have hne := hnew (x := e.order) rfl st
    rw [credit_perm hperm, credit_cons, if_neg hne, Nat.zero_add]
    obtain ⟨o, hl, hoid⟩ := hlive
    rcases List.mem_cons.mp (hperm.mem_iff.mp hl) with rfl | hl
    · exact absurd hoid hne
    · exact ⟨⟨o, hl, hoid⟩, rfl⟩
  | @replaced e _ st hh hperm =>
    have hne := hnew hh st
    rw [credit_perm hperm, credit_cons, if_neg hne, Nat.zero_add]
    obtain ⟨o, hl, hoid⟩ := hlive
    rcases List.mem_cons.mp (hperm.mem_iff.mp hl) with rfl | hl
    · exact absurd hoid hne
    · exact hfilter ⟨o, hl, hoid⟩

/-- The order that an event submits is not live when it starts, or has all of its quantity as its
credit. -/
private theorem credit_start_new (ho : Orderly (· ∈ submittedIds es) ⟨t, [], {}⟩)
    (hf : Fresh (es ++ [e])) (he : Peaked e) {x : Order} (hx : x ∈ e.orders)
    (hlive : ∃ o ∈ (Config.start t e).live, o.id = x.id) :
    x.quantity.toNat ≤ credit (Config.start t e).live x.id := by
  have hnone : ∀ o ∈ t.live, o.id ≠ x.id := ho.live_ne (hf.not_mem (List.mem_map_of_mem hx))
  have hcredit {y : Order} {os : List Order} (st : OrderStatus) (hy : y = x) :
      x.quantity.toNat ≤ credit ({ y.entering with status := st } :: os) x.id := by
    subst hy
    have hpeak := he.2 y hx
    have htrade : ({ y.entering with status := st } : Order).tradable = y.quantity.toNat :=
      (hpeak.peakFits st).tradable_eq.trans (hpeak.worth_entering st)
    rw [credit_cons, if_pos y.entering_id, htrade]
    omega
  have hstart := liveStart ho he.1
  generalize Config.start t e = c at hstart hlive
  cases hstart with
  | unchanged _ heq =>
    obtain ⟨o, hl, hid⟩ := hlive
    exact absurd hid (hnone o (heq ▸ hl))
  | cancelled => exact absurd hx List.not_mem_nil
  | @entered e _ st hperm =>
    rw [credit_perm hperm]
    exact hcredit st (List.mem_singleton.mp hx).symm
  | @replaced e _ st _ hperm =>
    rw [credit_perm hperm]
    exact hcredit st (List.mem_singleton.mp hx).symm

/-- Every event of the stream starts with the accounts in order. -/
private theorem accounted_start (ho : Orderly (· ∈ submittedIds es) ⟨t, [], {}⟩)
    (h : Accounted (· ∈ submittedIds es) ts (submittedOrders es) ⟨t, [], {}⟩)
    (hf : Fresh (es ++ [e])) (he : Peaked e) :
    Accounted (· ∈ submittedIds (es ++ [e])) ts (submittedOrders (es ++ [e])) (.start t e) := by
  refine ⟨budgeted_start ho h.budget hf he.coversReserve, fun o hl ↦ ?_, fun x hx hlive ↦ ?_⟩
  · rcases live_start (r := {}) he.1 hl with hl | ⟨x, st, hx, rfl⟩
    · exact h.fits o hl
    · have hmem : x ∈ e.orders := by
        rw [orders_of_handed hx]
        exact List.mem_singleton.mpr rfl
      exact (he.2 x hmem).peakFits st
  · rw [start_trades, List.append_nil]
    rw [submittedOrders_append, submittedOrders_singleton, List.mem_append] at hx
    rcases hx with hx | hx
    · obtain ⟨hold, heq⟩ := credit_start_eq ho hf he.1 (List.mem_map_of_mem hx) hlive
      have hcovered := h.covered x hx hold
      simp only [List.append_nil] at hcovered
      rw [heq]
      exact hcovered
    · have hnew := credit_start_new ho hf he hx hlive
      omega

/-- A fresh run with peaks on its icebergs refines a run of the reference engine with its accounts
in order. -/
theorem Run.accounted (h : Run (fun _ ↦ Peaked) es s rs) (hf : Fresh es) :
    ∃ t, Run Anything es t rs ∧ Refines es s t ∧
      Accounted (· ∈ submittedIds es) (rs.flatMap MatchResult.trades) (submittedOrders es)
        ⟨t, [], {}⟩ := by
  refine h.refines_induction (fun he ↦ .of_keepsPlace (he.1.keepsPlace _))
    (P := fun es t rs ↦ Accounted (· ∈ submittedIds es) (rs.flatMap MatchResult.trades)
      (submittedOrders es) ⟨t, [], {}⟩) ?_ ?_ hf
  · exact ⟨⟨fun o ho ↦ absurd ho List.not_mem_nil, fun tr ht ↦ absurd ht List.not_mem_nil,
      fun x hx ↦ absurd hx List.not_mem_nil⟩, fun o ho ↦ absurd ho List.not_mem_nil,
      fun x hx ↦ absurd hx List.not_mem_nil⟩
  · intro es e s t t' rs r _ ht hf he hacc hs
    have hacc' : Accounted (· ∈ submittedIds (es ++ [e])) (rs.flatMap MatchResult.trades)
        (submittedOrders (es ++ [e])) ⟨t', [], r⟩ :=
      ht.submit_induction hf hs (fun _ ↦ accounted_start (ht.orderly hf.left {}) hacc hf he)
        fun _ _ ho hc hm ↦ hc.moves ho hm
    rw [List.flatMap_append, List.flatMap_singleton]
    exact hacc'.closed

/-- What a live order has traded and can still trade is what it was submitted with. -/
theorem Accounted.exact {U : OrderId → Prop} {os : List Order} {o x : Order}
    (h : Accounted U ts os ⟨t, [], {}⟩) (ho : Orderly U ⟨t, [], {}⟩) (hl : o ∈ t.live)
    (hx : x ∈ os) (hid : o.id = x.id) : traded ts x.id + o.worth = x.quantity.toNat := by
  have hcredit : credit t.live o.id = o.tradable := List.sumOver_eq_of_mem ho.live_nodup hl
  have hle := h.budget.within x hx
  have hge := h.covered x hx ⟨o, hl, hid⟩
  simp only [List.append_nil] at hle hge
  rw [← hid, hcredit, (h.fits o hl).tradable_eq, hid] at hle hge
  omega

/-! ### Cancels -/

/-- A confirmation accounts for what it reports. -/
private theorem accounts_cancelled_iff {id : OrderId} {left : Quantity} {ts : Timestamp}
    {q done : Nat} : Accounts s' (cancelled id left ts) q done ↔ left.toNat + done = q := by
  constructor
  · intro h
    exact h.report _ (List.mem_singleton.mpr rfl) rfl
  · intro h
    refine ⟨fun rep hrep _ ↦ ?_, fun ts' msg ev hev ↦ ?_⟩
    · rw [List.mem_singleton.mp hrep]
      exact h
    · have hmade : ∃ rep ∈ (cancelled id left ts).reports,
          ExchangeManager.canceledEvent msg ts' rep = ev := by
        simp only [ExchangeManager.translateResult, List.mem_append, List.mem_map,
          List.mem_filter] at hev
        rcases hev with (((⟨_, _, hev⟩ | ⟨rep, hrep, hev⟩) | ⟨_, _, hev⟩) | hev) | hev
        · exact absurd hev (by simp)
        · exact ⟨rep, hrep.1, by simpa using hev⟩
        · exact absurd hev (by simp)
        · split at hev <;> simp at hev
        · simp at hev
      obtain ⟨rep, hrep, rfl⟩ := hmade
      rw [List.mem_singleton.mp hrep]
      exact h

/-- In every fresh run with peaks on its icebergs, a cancel confirmation accounts for the order
exactly if the order was not resting with something in reserve. -/
theorem cancel_report_accounts_iff (h : Run (fun _ ↦ Peaked) es s rs) (hf : Fresh es)
    {e : CancelOrderEvent} (hs : Submits s (.cancelOrder e) s' r)
    (hrep : ∃ rep ∈ r.reports, rep.status = .cancelled) {x : Order}
    (hx : x ∈ submittedOrders es) (hid : x.id = e.orderId) :
    Accounts s' r x.quantity.toNat (traded (rs.flatMap MatchResult.trades) x.id) ↔
      ¬HoldsReserve s x.id := by
  obtain ⟨t, ht, href, hacc⟩ := h.accounted hf
  have hord := ht.orderly hf {}
  have hpending : t.pendingStops = s.pendingStops := by
    rw [href.agree]
    rfl
  have hstart := Config.starts s (.cancelOrder e)
  rw [hs.of_idle rfl] at hstart
  generalize hc : (⟨s', [], r⟩ : Config (OrderBook PriceLevel)) = c at hstart
  cases hstart with
  | @stopCancelled _ stop hf =>
    obtain ⟨-, -, rfl⟩ := Config.mk.inj hc
    have hmem : stop.converted ∈ t.outstanding [] := by
      apply List.mem_map_of_mem
      rw [hpending]
      exact List.mem_of_find?_eq_some hf
    have hstop : stop.converted.id = x.id := by
      have hfound : stop.id = e.orderId := by simpa using List.find?_some hf
      exact (converted_id stop).trans (hfound.trans hid.symm)
    have hexact := hacc.exact hord (List.mem_append_right _ hmem) hx hstop
    have hworth : stop.converted.worth = stop.quantity.toNat := by
      have hplain : ¬stop.converted.isIceberg = true := by
        rw [(hacc.fits _ (List.mem_append_right _ hmem)).isIceberg_iff]
        exact converted_ne_iceberg stop
      have hqty : stop.converted.quantity = stop.quantity := by
        rw [Order.converted]
        split <;> rfl
      rw [Order.worth, if_neg hplain, hqty, Nat.add_zero]
    rw [accounts_cancelled_iff]
    refine ⟨fun _ hholds ↦ ?_, fun _ ↦ by omega⟩
    -- an order of the book would have the identifier of the stop
    obtain ⟨o, ho, -⟩ := hholds
    rw [href.tracks.represents.find] at ho
    obtain ⟨hrest, hoid⟩ := ReferenceBook.mem_of_findOrder ho
    exact hord.apart _ hmem o hrest (hoid.trans hstop.symm)
  | @orderCancelled _ o hf ho hres =>
    obtain ⟨-, -, rfl⟩ := Config.mk.inj hc
    have hfind : s.book.findOrder x.id = some o := hid ▸ ho
    have hin := hfind
    rw [href.tracks.represents.find] at hin
    obtain ⟨hrest, hoid⟩ := ReferenceBook.mem_of_findOrder hin
    have hexact := hacc.exact hord (List.mem_append_left _ hrest) hx hoid
    rw [Order.worth] at hexact
    rw [accounts_cancelled_iff]
    constructor
    · rintro hsum ⟨y, hy, hice, hpos⟩
      obtain rfl := Option.some.inj (hfind.symm.trans hy)
      rw [if_pos hice] at hexact
      rw [gt_iff_lt, UInt64.pos_iff_toNat_pos] at hpos
      omega
    · intro hnone
      have hreserve : (if o.isIceberg = true then o.reserveQty.toNat else 0) = 0 := by
        split
        · next hice =>
          by_contra hne
          apply hnone
          refine ⟨o, hfind, hice, ?_⟩
          rw [gt_iff_lt, UInt64.pos_iff_toNat_pos]
          omega
        · rfl
      omega
  | cancelRejected =>
    obtain ⟨-, -, rfl⟩ := Config.mk.inj hc
    obtain ⟨rep, hmem, -⟩ := hrep
    exact absurd hmem List.not_mem_nil

end Run

/-- Iceberg 1 shows its second peak when it is cancelled, stop 3 has not been triggered. -/
private def secondPeak : List OrderEvent :=
  [.newOrder ⟨{ id := 1, side := .sell, type := .iceberg, price := 100, quantity := 5
                peakQty := 3 }⟩,
    .newOrder ⟨{ id := 3, type := .stop, stopPrice := 105, quantity := 7 }⟩,
    .newOrder ⟨{ id := 2, price := 100, quantity := 4 }⟩]

theorem cancel_report_accounts_second_peak : ∃ (s s' : Engine (OrderBook PriceLevel))
    (rs : List MatchResult) (r : MatchResult), Submits s (.cancelOrder { orderId := 1 }) s' r ∧
      r = cancelled 1 1 0 ∧ Accounts s' r 5 (traded (rs.flatMap MatchResult.trades) 1) := by
  obtain ⟨s, rs, hrun, hfind⟩ := Run.exists_of_play (B := OrderBook PriceLevel) (fun _ ↦ Peaked)
    50 secondPeak (fun s _ ↦ ((s.submit 50 (.cancelOrder { orderId := 1 })).toOption.any
      (fun a ↦ decide (a.2 = cancelled 1 1 0)) = true) ∧
        ∀ o ∈ s.book.findOrder 1, o.reserveQty = 0) (by decide +kernel)
  obtain ⟨s', r, hs, hr⟩ := Submits.exists_of_submit s (.cancelOrder { orderId := 1 }) 50
    (fun _ r ↦ r = cancelled 1 1 0) hfind.1
  refine ⟨s, s', rs, r, hs, hr, (cancel_report_accounts_iff hrun (by decide) hs ?_
    (x := { id := 1, side := .sell, type := .iceberg, price := 100, quantity := 5, peakQty := 3 })
    (by decide) rfl).mpr ?_⟩
  · rw [hr]
    exact ⟨_, List.mem_singleton.mpr rfl, rfl⟩
  · rintro ⟨o, ho, -, hpos⟩
    rw [hfind.2 o ho] at hpos
    exact absurd hpos (by decide)

/-- An iceberg of quantity 10 that shows 3. -/
private def hidesSeven : Order :=
  { id := 1, side := .sell, type := .iceberg, price := 100, quantity := 10, peakQty := 3 }

/-- Cancelled before any trade, it is confirmed with a remaining quantity of 3. -/
theorem cancel_report_hides_reserve : ¬∀ (es : List OrderEvent)
    (s s' : Engine (OrderBook PriceLevel)) (rs : List MatchResult) (e : CancelOrderEvent)
    (r : MatchResult), Run (fun _ ↦ Peaked) es s rs → Fresh es →
      Submits s (.cancelOrder e) s' r → (∃ rep ∈ r.reports, rep.status = .cancelled) →
      ∀ x ∈ submittedOrders es, x.id = e.orderId →
        Accounts s' r x.quantity.toNat (traded (rs.flatMap MatchResult.trades) x.id) := by
  intro hall
  obtain ⟨s, rs, hrun, hsub, hrs⟩ := Run.exists_of_play (B := OrderBook PriceLevel)
    (fun _ ↦ Peaked) 50 [.newOrder ⟨hidesSeven⟩]
    (fun s rs ↦ ((s.submit 50 (.cancelOrder { orderId := 1 })).toOption.any
      (fun a ↦ decide (a.2 = cancelled 1 3 0)) = true) ∧ rs = [{}]) (by decide +kernel)
  obtain ⟨s', r, hs, rfl⟩ := Submits.exists_of_submit s (.cancelOrder { orderId := 1 }) 50
    (fun _ r ↦ r = cancelled 1 3 0) hsub
  have hacc := hall _ s s' rs _ _ hrun (by decide) hs ⟨_, List.mem_singleton.mpr rfl, rfl⟩
    hidesSeven (by decide) rfl
  rw [accounts_cancelled_iff, hrs] at hacc
  exact absurd hacc (by decide)

end LobEngine
