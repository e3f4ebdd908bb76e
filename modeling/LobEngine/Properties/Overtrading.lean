import LobEngine.Properties.Ledger

/-!
# No order trades more than it asked for

An order can trade what it displays and, if it is an iceberg or rests with a peak, what it has in
reserve. No move raises the sum of what an order has traded and what it can still trade. So the
quantity it was submitted with is a bound, unless the reserve is not covered by it: a peak above
the quantity makes `quantity - peak_qty` wrap, and all of 2^64 less a few can trade.
-/

namespace LobEngine

open BookOps Engine

/-! ### What an order can trade -/

/-- The reserve is covered by the quantity: an iceberg shows no more than it has, and any other
order that can rest has no reserve to show. -/
def Order.Covered (o : Order) : Prop :=
  if o.type = .iceberg then o.peakQty ≤ o.quantity
  else o.canRest = true → o.peakQty = 0 ∨ o.reserveQty = 0

instance (o : Order) : Decidable o.Covered := inferInstanceAs (Decidable (ite _ _ _))

/-- The reserve of a live order can come to be traded: it is an iceberg, or a limit order with a
peak, which `is_iceberg` takes for one. -/
def Order.showsReserve (o : Order) : Bool :=
  o.type == .iceberg || (o.type == .limit && o.isIceberg)

/-- What a live order can still trade. -/
def Order.tradable (o : Order) : Nat :=
  o.quantity.toNat + if o.showsReserve = true then o.reserveQty.toNat else 0

/-- What the orders with an identifier can still trade. -/
def credit (os : List Order) (id : OrderId) : Nat := os.sumOver (·.id == id) Order.tradable

theorem credit_cons (o : Order) (os : List Order) (id : OrderId) :
    credit (o :: os) id = (if o.id = id then o.tradable else 0) + credit os id :=
  held_cons o os id

theorem credit_append (os os' : List Order) (id : OrderId) :
    credit (os ++ os') id = credit os id + credit os' id := held_append os os' id

theorem credit_perm {os os' : List Order} (h : List.Perm os os') (id : OrderId) :
    credit os id = credit os' id := held_perm h id

private theorem credit_sublist {os os' : List Order} (h : List.Sublist os os') (id : OrderId) :
    credit os id ≤ credit os' id := h.sumOver_le

private theorem credit_eq_zero {os : List Order} {id : OrderId} (h : ∀ o ∈ os, o.id ≠ id) :
    credit os id = 0 := held_eq_zero h

/-- A covered order enters with no more to trade than its quantity. -/
theorem Order.Covered.tradable {o : Order} (h : o.Covered) (st : OrderStatus) :
    { o.entering with status := st }.tradable ≤ o.quantity.toNat := by
  unfold Order.Covered at h
  have hplain (hr : o.peakQty = 0 ∨ o.reserveQty = 0) :
      (if 0 < o.peakQty then o.reserveQty.toNat else 0) = 0 := by
    rcases hr with hr | hr
    · rw [if_neg (by simp [hr])]
    · rw [hr]
      exact ite_self _
  cases ht : o.type with
  | iceberg =>
    rw [if_pos ht] at h
    have hsub := UInt64.toNat_sub_of_le _ _ h
    have hle := UInt64.le_iff_toNat_le.mp h
    simp only [Order.tradable, Order.showsReserve, Order.entering, ht, splitIceberg, hsub]
    simp only [beq_self_eq_true, Bool.true_or, ↓reduceIte]
    omega
  | limit =>
    rw [if_neg (by simp [ht])] at h
    have hnone := hplain (h (by simp [Order.canRest, ht]))
    simp [Order.tradable, Order.showsReserve, Order.entering, Order.isIceberg, ht, hnone]
  | stopLimit =>
    rw [if_neg (by simp [ht])] at h
    have hnone := hplain (h (by simp [Order.canRest, ht]))
    simp [Order.tradable, Order.showsReserve, Order.entering, Order.converted, Order.isIceberg, ht,
      hnone]
  | market => simp [Order.tradable, Order.showsReserve, Order.entering, ht]
  | stop => simp [Order.tradable, Order.showsReserve, Order.entering, Order.converted, ht]

/-- An aggressor pays for a fill with what it can trade. -/
theorem tradable_debited {a : Order} {q : Quantity} (hq : q ≤ a.quantity) :
    ({ a with quantity := a.quantity - q } : Order).tradable + q.toNat = a.tradable := by
  have hsame : ({ a with quantity := a.quantity - q } : Order).showsReserve =
    a.showsReserve := rfl
  have hsub := UInt64.toNat_sub_of_le _ _ hq
  rw [UInt64.le_iff_toNat_le] at hq
  simp only [Order.tradable, hsame, hsub]
  omega

theorem tradable_markFilled (a : Order) : (markFilled a).tradable = a.tradable := by
  unfold markFilled
  split <;> rfl

/-- What a fill leaves of an order that rests can trade what was left after the fill. -/
private theorem tradable_leftAfter {o : Order} {q : Quantity}
    (hr : o.type = .limit ∨ o.type = .iceberg) (hq : q ≤ o.quantity) :
    ((o.leftAfter q).toList.map Order.tradable).sum + q.toNat ≤ o.tradable := by
  have hsub := UInt64.toNat_sub_of_le _ _ hq
  rw [UInt64.le_iff_toNat_le] at hq
  rw [Order.leftAfter]
  split
  · next h0 =>
    rw [UInt64.eq_zero_iff_toNat] at h0
    split
    · next hre =>
      have hshow : o.showsReserve = true := by
        rcases hr with ht | ht <;> simp [Order.showsReserve, ht, hre.1]
      have hshow' : o.replenished.showsReserve = true := hshow
      have hres := UInt64.toNat_sub_min_right o.peakQty o.reserveQty
      have hmin := UInt64.toNat_min o.peakQty o.reserveQty
      simp only [Order.tradable, hshow, hshow', ↓reduceIte, Option.toList_some, List.map_cons,
        List.map_nil, List.sum_cons, List.sum_nil]
      simp only [Order.replenished, hres, hmin]
      omega
    · simp only [Order.tradable, Option.toList_none, List.map_nil, List.sum_nil]
      omega
  · have hsame : ({ o with quantity := o.quantity - q } : Order).showsReserve =
        o.showsReserve := rfl
    simp only [Order.tradable, hsame, Option.toList_some, List.map_cons, List.map_nil,
      List.sum_cons, List.sum_nil]
    omega

/-! ### Moves -/

namespace Config

variable {U : OrderId → Prop} {c d : Config ReferenceBook} {id : OrderId}

/-- Only limit orders and icebergs come to rest. -/
theorem Moves.rests (h : Moves c d) (ho : Orderly U c)
    (hr : ∀ o ∈ c.engine.book.allOrders, o.type = .limit ∨ o.type = .iceberg) :
    ∀ o ∈ d.engine.book.allOrders, o.type = .limit ∨ o.type = .iceberg := by
  have hsettle {s : Engine ReferenceBook} {a : Order}
      (hr : ∀ o ∈ s.book.allOrders, o.type = .limit ∨ o.type = .iceberg) :
      ∀ o ∈ (settle s a).book.allOrders, o.type = .limit ∨ o.type = .iceberg := by
    intro o hmem
    rcases mem_settle hmem with hmem | ⟨rfl, ht⟩
    · exact hr o hmem
    · exact ht
  cases h with
  | filled | uncrossed | unopposed => exact hsettle hr
  | @fill s a passive K r p key book book' q _ _ _ hp _ hset =>
    obtain ⟨rfl, rfl, ⟨rest, hrest⟩, -⟩ := ho.distinct.of_pickPassive hp
    have hmem := (ReferenceBook.mem_of_head hrest).1
    intro o hmem'
    rw [evaluate_book] at hmem'
    obtain ⟨x, hx, hd⟩ := (ho.distinct.filled hmem hset).descends hmem hmem'
    rw [hd.type_eq]
    exact hr x hx
  | exhausted | evaluated | triggered | kept => exact hr

/-- Leaving a match loop gives no order more to trade. -/
private theorem credit_settle {s : Engine ReferenceBook} {a a' : Order} {K : List Frame}
    {r r' : MatchResult} (hid : a'.id = a.id) (ht : a'.tradable = a.tradable) :
    credit (live ⟨settle s a', K, r⟩) id ≤ credit (live ⟨s, .matching a :: K, r'⟩) id := by
  have hbook : credit (settle s a').book.allOrders id ≤ credit (a' :: s.book.allOrders) id := by
    rcases settle_eq s a' with he | he
    · rw [he]
      exact credit_sublist (List.sublist_cons_self _ _) id
    · rw [he]
      exact Nat.le_of_eq (credit_perm (ReferenceBook.allOrders_insertOrder _ _) id)
  rw [credit_cons, hid, ht] at hbook
  simp only [live, outstanding_settle, outstanding_matching, credit_append, credit_cons]
  omega

/-- No move raises what an order has traded and can still trade. -/
private theorem Moves.spends (h : Moves c d) (ho : Orderly U c)
    (hr : ∀ o ∈ c.engine.book.allOrders, o.type = .limit ∨ o.type = .iceberg) (id : OrderId) :
    traded d.result.trades id + credit d.live id ≤
      traded c.result.trades id + credit c.live id := by
  cases h with
  | @filled s a K r h0 =>
    exact Nat.add_le_add_left
      (credit_settle (markFilled_descends a).id_eq (tradable_markFilled a)) _
  | uncrossed => exact Nat.add_le_add_left (credit_settle rfl rfl) _
  | unopposed => exact Nat.add_le_add_left (credit_settle rfl rfl) _
  | @exhausted s a K r =>
    change traded r.trades id + credit (s.book.allOrders ++ s.outstanding K) id ≤ _
    simp only [Config.live, outstanding_matching, credit_append, credit_cons]
    omega
  | @fill s a passive K r p key book book' q hq hb ht hp hqq hset =>
    obtain ⟨rfl, rfl, ⟨rest, hrest⟩, -⟩ := ho.distinct.of_pickPassive hp
    have hmem := (ReferenceBook.mem_of_head hrest).1
    have hne := ho.apart a List.mem_cons_self passive hmem
    have hqa : q ≤ a.quantity := hqq ▸ Std.min_le_left
    have hqp : q ≤ passive.quantity := hqq ▸ Std.min_le_right
    -- An iceberg without a peak loses its reserve with its last fill.
    obtain ⟨loss, hpassive⟩ := Nat.exists_eq_add_of_le (tradable_leftAfter (hr passive hmem) hqp)
    have hfill := held_fill (r := r) (K := K) ho.distinct hmem hne
      (ho.distinct.filled hmem hset) (tradable_debited hqa) hpassive.symm id
    rw [evaluate_result]
    exact Nat.le.intro hfill
  | evaluated => exact Nat.le_refl _
  | @triggered s p stop working K r ht =>
    simp only [Config.live, enterConverted, outstanding_matching, outstanding_triggers,
      credit_append, credit_cons]
    exact Nat.le_refl _
  | @kept s p stop working K r ht =>
    simp only [Config.live, outstanding_triggers, credit_append,
      credit_perm (outstanding_kept s stop _)]
    exact Nat.le_refl _

end Config

/-! ### Events -/

/-- What an event hands over is all that can be traded on top of what was live. -/
private theorem credit_start {t : Engine ReferenceBook} {e : OrderEvent} (hm : NoModify e)
    {r : MatchResult} (id : OrderId) : credit (Config.start t e).live id ≤
      credit ((handed t e).toList.map Order.entering) id + credit (Config.live ⟨t, [], r⟩) id := by
  have henter (s : Engine ReferenceBook) {o : Order} (ho : handed t e = some o)
      (hlive : List.Sublist (Config.live ⟨s, [], {}⟩) (Config.live ⟨t, [], r⟩)) :
      credit (Config.enter s o [] {}).live id ≤
        credit ((handed t e).toList.map Order.entering) id +
          credit (Config.live ⟨t, [], r⟩) id := by
    obtain ⟨st, hperm⟩ := live_enter s o {}
    have hle := credit_sublist hlive id
    have hsame : credit [{ o.entering with status := st }] id = credit [o.entering] id := by
      rw [credit_cons, credit_cons]
      rfl
    rw [credit_perm hperm, ← List.singleton_append, credit_append, hsame, ho]
    exact Nat.add_le_add_left hle _
  have hidle {c : Config ReferenceBook} (hlive : List.Sublist c.live (Config.live ⟨t, [], r⟩)) :
      credit c.live id ≤ credit ((handed t e).toList.map Order.entering) id +
        credit (Config.live ⟨t, [], r⟩) id := by
    have hle := credit_sublist hlive id
    omega
  have hcancel (id' : OrderId) : List.Sublist (t.book.cancelOrder id').allOrders
      t.book.allOrders := by
    rw [ReferenceBook.allOrders_cancelOrder]
    exact List.filter_sublist
  have hstart := Config.starts t e
  generalize Config.start t e = c at hstart
  cases hstart with
  | @newOrder e => exact henter { t with sequence := t.sequence + 1 } rfl (List.Sublist.refl _)
  | @replaced e hh =>
    exact henter { t with sequence := t.sequence + 1, book := cancelOrder t.book e.oldOrderId }
      (by simp [handed, hh]) ((hcancel e.oldOrderId).append_right _)
  | @stopCancelled e stop =>
    refine hidle (List.Sublist.append_left ?_ _)
    exact (List.eraseP_sublist.map Order.converted)
  | @orderCancelled e o => exact hidle ((hcancel e.orderId).append_right _)
  | cancelRejected | replaceRejected => exact hidle (List.Sublist.refl _)
  | requeued | reduced | unmodified => exact absurd hm fun h ↦ h

/-- The invariant of the machine: only limit orders and icebergs rest, the trades are between
known orders, and what an order has traded, also in the trades `ts` of earlier events, and can
still trade is within its quantity. -/
structure Budgeted (U : OrderId → Prop) (ts : List Trade) (os : List Order)
    (c : Config ReferenceBook) : Prop where
  rests : ∀ o ∈ c.engine.book.allOrders, o.type = .limit ∨ o.type = .iceberg
  known : ∀ tr ∈ ts ++ c.result.trades, U tr.aggressorId ∧ U tr.passiveId
  within : ∀ x ∈ os, traded (ts ++ c.result.trades) x.id + credit c.live x.id ≤ x.quantity.toNat

/-- Every move stays within the budget. -/
theorem Budgeted.moves {U : OrderId → Prop} {ts : List Trade} {os : List Order}
    {c d : Config ReferenceBook} (ho : Orderly U c) (h : Budgeted U ts os c)
    (hm : Config.Moves c d) : Budgeted U ts os d := by
  constructor
  · exact hm.rests ho h.rests
  · intro tr htr
    rcases hm.newTrade ho.distinct with he | ⟨s, a, K, r, passive, q, rfl, hmem, -, -, he⟩
    · exact h.known tr (he ▸ htr)
    · rw [he, ← List.append_assoc, List.mem_append, List.mem_singleton] at htr
      rcases htr with htr | rfl
      · exact h.known tr htr
      · exact ⟨ho.outstanding a List.mem_cons_self, ho.known passive hmem⟩
  · intro x hx
    have hwithin := h.within x hx
    have hspends := hm.spends ho h.rests x.id
    rw [traded_append] at hwithin ⊢
    omega

/-! ### Runs -/

/-- A new order, a replacement or a cancel; the reserve of the order that it hands over is covered
by its quantity. -/
def CoversReserve {B : Type} [BookOps B] (s : Engine B) (e : OrderEvent) : Prop :=
  NoModify e ∧ ∀ o ∈ handed s e, o.Covered

instance {B : Type} [BookOps B] (s : Engine B) (e : OrderEvent) : Decidable (CoversReserve s e) :=
  inferInstanceAs (Decidable (_ ∧ _))

section Run

variable {es : List OrderEvent} {e : OrderEvent} {s : Engine (OrderBook PriceLevel)}
  {t t' : Engine ReferenceBook} {rs : List MatchResult} {r : MatchResult} {ts : List Trade}

/-- Every event that covers its order starts within the budget. -/
theorem budgeted_start (ho : Orderly (· ∈ submittedIds es) ⟨t, [], {}⟩)
    (h : Budgeted (· ∈ submittedIds es) ts (submittedOrders es) ⟨t, [], {}⟩)
    (hf : Fresh (es ++ [e])) (he : CoversReserve t e) :
    Budgeted (· ∈ submittedIds (es ++ [e])) ts (submittedOrders (es ++ [e])) (.start t e) := by
  have hmono {id : OrderId} (hid : id ∈ submittedIds es) : id ∈ submittedIds (es ++ [e]) := by
    rw [submittedIds_append]
    exact List.mem_append_left _ hid
  have hknown := h.known
  simp only [List.append_nil] at hknown
  constructor
  · exact fun o hmem ↦ h.rests o (resting_start he.1 hmem)
  · intro tr htr
    rw [start_trades, List.append_nil] at htr
    exact ⟨hmono (hknown tr htr).1, hmono (hknown tr htr).2⟩
  · intro x hx
    have hcredit := credit_start (r := {}) he.1 x.id (t := t)
    rw [start_trades, List.append_nil]
    rw [submittedOrders_append, submittedOrders_singleton, List.mem_append] at hx
    rcases hx with hx | hx
    · have hwithin := h.within x hx
      simp only [List.append_nil] at hwithin
      have hother : credit ((handed t e).toList.map Order.entering) x.id = 0 := by
        apply credit_eq_zero
        intro o hmem hid
        obtain ⟨y, hy, rfl⟩ := List.mem_map.mp hmem
        rw [y.entering_id] at hid
        exact hf.handed (Option.mem_toList.mp hy) (hid ▸ List.mem_map_of_mem hx)
      omega
    · -- an order submitted just now has neither traded nor been live
      have hfresh : x.id ∉ submittedIds es := hf.not_mem (List.mem_map_of_mem hx)
      have htraded : traded ts x.id = 0 :=
        List.sumOver_eq_zero fun tr htr ↦ tr.involves_eq_false (hknown tr htr) hfresh
      have hlive : credit (Config.live ⟨t, [], {}⟩) x.id = 0 := credit_eq_zero (ho.live_ne hfresh)
      have hhanded : credit ((handed t e).toList.map Order.entering) x.id ≤ x.quantity.toNat := by
        cases hh : handed t e with
        | none => exact Nat.zero_le _
        | some y =>
          have hxy : x = y := by
            rw [orders_of_handed hh] at hx
            exact List.mem_singleton.mp hx
          subst hxy
          have hle := (he.2 x hh).tradable x.entering.status
          rw [Option.toList_some, List.map_singleton, credit_cons, if_pos x.entering_id]
          exact hle
      omega

/-- A fresh run that covers its orders refines a run of the reference engine within budget. -/
private theorem Run.budgeted (h : Run CoversReserve es s rs) (hf : Fresh es) :
    ∃ t, Run Anything es t rs ∧
    Refines es s t ∧ Budgeted (· ∈ submittedIds es) (rs.flatMap MatchResult.trades)
      (submittedOrders es) ⟨t, [], {}⟩ := by
  refine h.refines_induction (fun he ↦ .of_keepsPlace (he.1.keepsPlace _))
    (P := fun es t rs ↦ Budgeted (· ∈ submittedIds es) (rs.flatMap MatchResult.trades)
      (submittedOrders es) ⟨t, [], {}⟩) ?_ ?_ hf
  · exact ⟨fun o ho ↦ absurd ho List.not_mem_nil, fun tr ht ↦ absurd ht List.not_mem_nil,
      fun x hx ↦ absurd hx List.not_mem_nil⟩
  · intro es e s t t' rs r href ht hf he hbudget hs
    have hhanded : handed t e = handed s e := by
      cases e with
      | replaceOrder e =>
        have hhas := href.tracks.represents.hasOrder_eq e.oldOrderId
        simp only [handed, hhas]
      | newOrder | cancelOrder | modifyOrder => rfl
    have he' : CoversReserve t e := ⟨he.1, hhanded ▸ he.2⟩
    have hbudget' : Budgeted (· ∈ submittedIds (es ++ [e])) (rs.flatMap MatchResult.trades)
        (submittedOrders (es ++ [e])) ⟨t', [], r⟩ :=
      ht.submit_induction hf hs
        (fun _ ↦ budgeted_start (ht.orderly hf.left {}) hbudget hf he')
        fun _ _ ho hc hm ↦ hc.moves ho hm
    rw [List.flatMap_append, List.flatMap_singleton]
    constructor
    · exact hbudget'.rests
    · simpa only [List.append_nil] using hbudget'.known
    · intro x hx
      have hwithin := hbudget'.within x hx
      simp only [List.append_nil]
      exact hwithin

/-- The trades of an order are within the quantity it was submitted with, and so is what an iceberg
in the book still shows and has in reserve on top of them. -/
structure WithinQuantity (s : Engine (OrderBook PriceLevel)) (rs : List MatchResult) (x : Order) :
    Prop where
  trades : traded (rs.flatMap MatchResult.trades) x.id ≤ x.quantity.toNat
  reserve : ∀ o, s.book.findOrder x.id = some o → o.type = .iceberg →
    traded (rs.flatMap MatchResult.trades) x.id + o.quantity.toNat + o.reserveQty.toNat ≤
      x.quantity.toNat

/-- In a fresh run of new orders, replacements and cancels in which every reserve is covered, no
order trades more than the quantity it was submitted with. -/
theorem orders_within_quantity (h : Run CoversReserve es s rs) (hf : Fresh es) :
    ∀ x ∈ submittedOrders es, WithinQuantity s rs x := by
  obtain ⟨t, ht, href, hbudget⟩ := h.budgeted hf
  intro x hx
  have hwithin := hbudget.within x hx
  simp only [List.append_nil] at hwithin
  constructor
  · omega
  · intro o ho htype
    rw [href.tracks.represents.find] at ho
    obtain ⟨hmem, hid⟩ := ReferenceBook.mem_of_findOrder ho
    have hperm : List.Perm t.book.allOrders (o :: t.book.allOrders.filter (·.id != o.id)) :=
      href.tracks.represents.distinct.perm_of_mem hmem
    have hcredit : o.tradable ≤ credit (Config.live ⟨t, [], {}⟩) x.id := by
      rw [Config.live, credit_append, credit_perm hperm, credit_cons, if_pos hid]
      omega
    have htradable : o.tradable = o.quantity.toNat + o.reserveQty.toNat := by
      simp [Order.tradable, Order.showsReserve, htype]
    omega

end Run

/-- Iceberg 2 trades on arrival, rests, is replenished twice and used up; the peak of order 1 is no
reserve. -/
private def usedUp : List OrderEvent :=
  [.newOrder ⟨{ id := 1, side := .sell, price := 100, quantity := 4, peakQty := 9 }⟩,
    .newOrder ⟨{ id := 2, type := .iceberg, price := 100, quantity := 12, peakQty := 5 }⟩,
    .newOrder ⟨{ id := 3, side := .sell, price := 100, quantity := 20 }⟩]

theorem orders_within_quantity_used_up : ∃ (s : Engine (OrderBook PriceLevel))
    (rs : List MatchResult), Run CoversReserve usedUp s rs ∧
      (rs.flatMap MatchResult.trades).map Trade.quantity = [4, 1, 5, 2] ∧
      traded (rs.flatMap MatchResult.trades) 2 ≤ 12 := by
  obtain ⟨s, rs, hrun, hq⟩ := Run.exists_of_play (B := OrderBook PriceLevel) CoversReserve 50 usedUp
    (fun _ rs ↦ (rs.flatMap MatchResult.trades).map Trade.quantity = [4, 1, 5, 2])
    (by decide +kernel)
  have hwithin := orders_within_quantity hrun (by decide)
    { id := 2, type := .iceberg, price := 100, quantity := 12, peakQty := 5 } (by decide)
  exact ⟨s, rs, hrun, hq, hwithin.trades⟩

/-- Iceberg 1 has quantity 5 and shows a peak of 10. -/
private def peakTooLarge : List OrderEvent :=
  [.newOrder ⟨{ id := 1, side := .sell, type := .iceberg, price := 100, quantity := 5
                peakQty := 10 }⟩,
    .newOrder ⟨{ id := 2, price := 100, quantity := 50 }⟩]

/-- An iceberg of quantity 5 trades 50. -/
theorem order_not_within_quantity : ¬∀ (es : List OrderEvent) (s : Engine (OrderBook PriceLevel))
    (rs : List MatchResult), Run Anything es s rs → Fresh es →
      (∀ e ∈ es, NoModify e ∧ ∀ o ∈ e.orders, o.reserveQty = 0) →
      ∀ x ∈ submittedOrders es, WithinQuantity s rs x := by
  intro hall
  obtain ⟨s, rs, hrun, hq⟩ := Run.exists_of_play (B := OrderBook PriceLevel) Anything 50
    peakTooLarge (fun _ rs ↦ traded (rs.flatMap MatchResult.trades) 1 = 50) (by decide +kernel)
  have hwithin := hall _ _ _ hrun (by decide) (by decide)
    { id := 1, side := .sell, type := .iceberg, price := 100, quantity := 5, peakQty := 10 }
    (by decide)
  have htrades := hwithin.trades
  rw [hq] at htrades
  exact absurd htrades (by decide)

end LobEngine
