import LobEngine.Lib.SumOver
import LobEngine.Properties.Live

/-!
# What a move does to the amounts

The ledger of the reference machine: what every order still has to trade, in its peak, its
reserve and its match loop, and what its trades have filled. A fill moves one quantity from
the first to the second for both of its orders; every other move leaves both alone, except
that an exhausted market order is written off.
-/

namespace LobEngine

open BookOps Engine

/-- The quantity an order still has to trade. -/
def Order.unfilled (o : Order) : Nat := o.quantity.toNat + o.reserveQty.toNat

/-- The quantity an order can still trade passively: what it shows, and its reserve if a fill
replenishes it. -/
def Order.worth (o : Order) : Nat :=
  o.quantity.toNat + if o.isIceberg then o.reserveQty.toNat else 0

theorem Order.quantity_le_worth (o : Order) : o.quantity.toNat ≤ o.worth := Nat.le_add_right _ _

/-- The order is the aggressor or the passive order of the trade. -/
def Trade.involves (t : Trade) (id : OrderId) : Bool := t.aggressorId == id || t.passiveId == id

/-- A trade between known orders involves no other. -/
theorem Trade.involves_eq_false (t : Trade) {U : OrderId → Prop}
    (h : U t.aggressorId ∧ U t.passiveId) {id : OrderId} (hid : ¬U id) :
    t.involves id = false := by
  rw [Trade.involves, Bool.or_eq_false_iff, beq_eq_false_iff_ne, beq_eq_false_iff_ne]
  exact ⟨fun he ↦ hid (he ▸ h.1), fun he ↦ hid (he ▸ h.2)⟩

/-- The sum of the quantities of the trades that involve an order. -/
def traded (ts : List Trade) (id : OrderId) : Nat :=
  ts.sumOver (·.involves id) fun t ↦ t.quantity.toNat

/-- What the orders with an identifier hold of a measure. -/
def held (μ : Order → Nat) (os : List Order) (id : OrderId) : Nat := os.sumOver (·.id == id) μ

/-- What the orders with an identifier still have to trade. -/
def balance (os : List Order) (id : OrderId) : Nat := os.sumOver (·.id == id) Order.unfilled

/-- The orders in the book, in the active loops and pending. -/
def Config.live (c : Config ReferenceBook) : List Order :=
  c.engine.book.allOrders ++ c.engine.outstanding c.stack

/-- An order has a reserve only if it is an iceberg, and then it has a peak. A live order is
no stop. -/
structure Order.Sound (o : Order) : Prop where
  plain : o.type ≠ .iceberg → o.reserveQty = 0
  peak : o.type = .iceberg → o.peakQty > 0
  direct : o.type ≠ .stop ∧ o.type ≠ .stopLimit

theorem Order.Sound.descend {o x : Order} (h : x.Sound) (hd : o.Descends x) : o.Sound where
  plain ht := by
    have h0 := h.plain (hd.type_eq ▸ ht)
    have hle := hd.reserve_le
    rw [UInt64.eq_zero_iff_toNat] at h0 ⊢
    omega
  peak ht := by
    rw [hd.peak_eq]
    exact h.peak (hd.type_eq ▸ ht)
  direct := by
    rw [hd.type_eq]
    exact h.direct

/-- Splitting an iceberg keeps its quantity. -/
theorem splitIceberg_unfilled {o : Order} (h : o.peakQty ≤ o.quantity) :
    (splitIceberg o).unfilled = o.quantity.toNat := by
  have hsub := UInt64.toNat_sub_of_le _ _ h
  rw [UInt64.le_iff_toNat_le] at h
  change o.peakQty.toNat + (o.quantity - o.peakQty).toNat = _
  omega

/-- What is left of a sound order can be traded passively. -/
theorem Order.Sound.worth_eq {o : Order} (h : o.Sound) : o.worth = o.unfilled := by
  rw [Order.worth, Order.unfilled]
  by_cases hi : o.isIceberg = true
  · rw [if_pos hi]
  · have ht : o.type ≠ .iceberg := by
      intro ht
      apply hi
      simpa [Order.isIceberg] using h.peak ht
    rw [if_neg hi, h.plain ht, UInt64.toNat_zero]

/-- A new peak is not empty. -/
theorem Order.replenished_pos {o : Order} (h : o.isIceberg = true ∧ o.reserveQty > 0) :
    o.replenished.quantity > 0 :=
  UInt64.min_pos (by simpa [Order.isIceberg] using h.1) h.2

/-- What a fill leaves of an order shows a quantity. -/
theorem leftAfter_pos {o x : Order} {q : Quantity} (h : x ∈ (o.leftAfter q).toList) :
    x.quantity > 0 := by
  rw [Option.mem_toList, Order.leftAfter] at h
  split at h
  · split at h
    · next hr =>
      obtain rfl := Option.some.inj h
      exact Order.replenished_pos hr
    · exact absurd h (by simp)
  · next hne =>
    obtain rfl := Option.some.inj h
    exact UInt64.pos_iff_ne_zero.mpr hne

/-- What a fill leaves of an order is worth less by the quantity filled. -/
theorem worth_leftAfter {o : Order} {q : Quantity} (hq : q ≤ o.quantity) :
    ((o.leftAfter q).toList.map Order.worth).sum + q.toNat = o.worth := by
  have hsub := UInt64.toNat_sub_of_le _ _ hq
  rw [UInt64.le_iff_toNat_le] at hq
  rw [Order.leftAfter]
  by_cases h0 : o.quantity - q = 0
  · rw [if_pos h0]
    rw [UInt64.eq_zero_iff_toNat] at h0
    by_cases hr : o.isIceberg = true ∧ o.reserveQty > 0
    · have hres := UInt64.toNat_sub_min_right o.peakQty o.reserveQty
      have hmin := UInt64.toNat_min o.peakQty o.reserveQty
      have hice : o.replenished.isIceberg = true := hr.1
      rw [if_pos hr, Option.toList_some, List.map_singleton, List.sum_singleton, Order.worth,
        Order.worth, if_pos hice, if_pos hr.1]
      simp only [Order.replenished, hres, hmin]
      omega
    · rw [if_neg hr, Option.toList_none, List.map_nil, List.sum_nil, Order.worth]
      by_cases hi : o.isIceberg = true
      · have hres : o.reserveQty.toNat = 0 := by
          have hle : ¬0 < o.reserveQty := fun h ↦ hr ⟨hi, h⟩
          rw [UInt64.pos_iff_toNat_pos] at hle
          omega
        rw [if_pos hi]
        omega
      · rw [if_neg hi]
        omega
  · have hice : ({ o with quantity := o.quantity - q } : Order).isIceberg = o.isIceberg := rfl
    rw [if_neg h0, Option.toList_some, List.map_singleton, List.sum_singleton, Order.worth,
      Order.worth, hice]
    simp only
    omega

section Held

variable {μ : Order → Nat}

theorem held_cons (o : Order) (os : List Order) (id : OrderId) :
    held μ (o :: os) id = (if o.id = id then μ o else 0) + held μ os id := by
  rw [held, List.sumOver_cons]
  simp only [beq_iff_eq]
  rfl

theorem held_append (os os' : List Order) (id : OrderId) :
    held μ (os ++ os') id = held μ os id + held μ os' id := List.sumOver_append _ _ _ _

theorem held_perm {os os' : List Order} (h : List.Perm os os') (id : OrderId) :
    held μ os id = held μ os' id := h.sumOver_eq

theorem held_eq_zero {os : List Order} {id : OrderId} (h : ∀ o ∈ os, o.id ≠ id) :
    held μ os id = 0 := List.sumOver_eq_zero fun o ho ↦ beq_eq_false_iff_ne.mpr (h o ho)

end Held

theorem balance_cons (o : Order) (os : List Order) (id : OrderId) :
    balance (o :: os) id = (if o.id = id then o.unfilled else 0) + balance os id :=
  held_cons o os id

private theorem balance_append (os os' : List Order) (id : OrderId) :
    balance (os ++ os') id = balance os id + balance os' id := held_append os os' id

theorem traded_append (ts ts' : List Trade) (id : OrderId) :
    traded (ts ++ ts') id = traded ts id + traded ts' id := List.sumOver_append _ _ _ _

theorem balance_perm {os os' : List Order} (h : List.Perm os os') (id : OrderId) :
    balance os id = balance os' id := held_perm h id

theorem balance_eq_zero {os : List Order} {id : OrderId} (h : ∀ o ∈ os, o.id ≠ id) :
    balance os id = 0 := held_eq_zero h

theorem balance_filter {os : List Order} {id x : OrderId} (h : id ≠ x) :
    balance (os.filter (·.id != x)) id = balance os id :=
  List.sumOver_filter fun _ _ ho ↦ bne_iff_ne.mpr fun he ↦ h ((beq_iff_eq.mp ho).symm.trans he)

namespace Config

variable {U : OrderId → Prop} {c d : Config ReferenceBook} {id : OrderId}

/-- Orders that are live after a move descend from orders that were live before. -/
theorem Moves.live (h : Moves c d) (ho : Orderly U c) {o : Order} (hl : o ∈ d.live) :
    ∃ x ∈ c.live, o.Descends x := by
  rcases List.mem_append.mp hl with hl | hl
  · obtain ⟨x, hx, hd⟩ := h.resting ho.distinct hl
    exact ⟨x, List.mem_append.mpr hx, hd⟩
  · obtain ⟨x, hx, hd⟩ := h.outstanding hl
    exact ⟨x, List.mem_append_right _ hx, hd⟩

end Config

/-- No live order has an identifier that is not known. -/
theorem Orderly.live_ne {U : OrderId → Prop} {c : Config ReferenceBook} (h : Orderly U c)
    {id : OrderId} (hid : ¬U id) : ∀ o ∈ c.live, o.id ≠ id := by
  intro o hl he
  rcases List.mem_append.mp hl with hl | hl
  · exact hid (he ▸ h.known o hl)
  · exact hid (he ▸ h.outstanding o hl)

/-- A new order, a replacement or a cancel. -/
def NoModify : OrderEvent → Prop
  | .modifyOrder _ => False
  | .newOrder _ | .cancelOrder _ | .replaceOrder _ => True

instance : DecidablePred NoModify
  | .modifyOrder _ => .isFalse fun h ↦ h
  | .newOrder _ | .cancelOrder _ | .replaceOrder _ => .isTrue trivial

theorem NoModify.keepsPlace {B : Type} [BookOps B] {e : OrderEvent} (h : NoModify e)
    (s : Engine B) : KeepsPlace s e := by
  cases e with
  | modifyOrder => exact absurd h id
  | newOrder | cancelOrder | replaceOrder => trivial

/-- Only a modify changes an order of the book before any matching. -/
theorem resting_start {t : Engine ReferenceBook} {e : OrderEvent} (hm : NoModify e) {o : Order}
    (ho : o ∈ (Config.start t e).engine.book.allOrders) : o ∈ t.book.allOrders := by
  have hstart := Config.starts t e
  generalize Config.start t e = c at hstart ho
  cases hstart with
  | newOrder =>
    rw [enter_book] at ho
    exact ho
  | replaced =>
    rw [enter_book] at ho
    exact (ReferenceBook.mem_cancelOrder.mp ho).1
  | orderCancelled => exact (ReferenceBook.mem_cancelOrder.mp ho).1
  | stopCancelled | cancelRejected | replaceRejected => exact ho
  | requeued | reduced | unmodified => exact absurd hm id

/-- What is live when an event starts was live before or is the order it submits. -/
theorem live_start {t : Engine ReferenceBook} {e : OrderEvent} (hm : NoModify e) {r : MatchResult}
    {o : Order} (hl : o ∈ (Config.start t e).live) : o ∈ Config.live ⟨t, [], r⟩ ∨
      ∃ x st, handed t e = some x ∧ o = { x.entering with status := st } := by
  rcases List.mem_append.mp hl with hl | hl
  · exact .inl (List.mem_append_left _ (resting_start hm hl))
  · rcases outstanding_start hl with ho | hnew
    · exact .inl (List.mem_append_right _ ho)
    · exact .inr hnew

/-- A submitted order becomes live. -/
theorem live_enter (s : Engine ReferenceBook) (o : Order) (r : MatchResult) :
    ∃ st, List.Perm (Config.enter s o [] r).live
      ({ o.entering with status := st } :: Config.live ⟨s, [], r⟩) := by
  obtain ⟨st, hperm⟩ := outstanding_enter s o [] r
  refine ⟨st, ?_⟩
  rw [Config.live, enter_book]
  exact (hperm.append_left _).trans List.perm_middle

namespace Config

variable {U : OrderId → Prop} {c d : Config ReferenceBook} {id : OrderId}

/-! ### Leaving a match loop -/

/-- A settled order takes what it has not traded to the book. -/
private theorem balance_settle {s : Engine ReferenceBook} {a : Order} (hs : a.Sound)
    (hm : a.type = .market → a.quantity = 0) (id : OrderId) :
    balance (settle s a).book.allOrders id = balance (a :: s.book.allOrders) id := by
  have hin : balance (s.insert a).book.allOrders id = balance (a :: s.book.allOrders) id :=
    balance_perm (ReferenceBook.allOrders_insertOrder _ _) id
  have hout (hq : a.quantity = 0) (hr : a.reserveQty = 0) :
      balance s.book.allOrders id = balance (a :: s.book.allOrders) id := by
    rw [balance_cons, Order.unfilled, hq, hr]
    simp
  unfold settle
  split
  · next ht =>
    split
    · exact hin
    · next hq => exact hout (by simpa using hq) (hs.plain (by simp [ht]))
  · next ht =>
    split
    · exact hin
    · next hq =>
      rw [not_or] at hq
      exact hout (by simpa using hq.1) (by simpa using hq.2)
  · next hl hi =>
    cases ht : a.type with
    | limit => exact absurd ht hl
    | iceberg => exact absurd ht hi
    | market => exact hout (hm ht) (hs.plain (by simp [ht]))
    | stop => exact absurd ht hs.direct.1
    | stopLimit => exact absurd ht hs.direct.2

/-- What is live after a match loop is left. -/
private theorem live_settle {s : Engine ReferenceBook} {a : Order} {K : List Frame}
    {r r' : MatchResult} (hs : a.Sound) (hm : a.type = .market → a.quantity = 0) (id : OrderId) :
    balance (live ⟨settle s a, K, r⟩) id = balance (live ⟨s, .matching a :: K, r'⟩) id := by
  simp only [live, outstanding_settle, outstanding_matching, balance_append, balance_settle hs hm,
    balance_cons]
  omega

/-! ### Fills -/

/-- What a fill leaves of a sound order. -/
private theorem unfilled_leftAfter {o : Order} {q : Quantity} (hs : o.Sound)
    (hq : q ≤ o.quantity) :
    ((o.leftAfter q).toList.map Order.unfilled).sum + q.toNat = o.unfilled := by
  have hworth : (o.leftAfter q).toList.map Order.unfilled =
      (o.leftAfter q).toList.map Order.worth := by
    apply List.map_congr_left
    intro x hx
    exact (hs.descend (leftAfter_descends hx)).worth_eq.symm
  rw [hworth, worth_leftAfter hq, hs.worth_eq]

/-- A trade fills both of its orders. -/
private theorem traded_fill {a passive : Order} (hne : passive.id ≠ a.id) (q : Quantity)
    (id : OrderId) : traded [fillTrade a passive q] id =
      (if a.id = id then q.toNat else 0) + if passive.id = id then q.toNat else 0 := by
  have hinv : (fillTrade a passive q).involves id = (a.id == id || passive.id == id) := rfl
  rw [traded, List.sumOver_cons, List.sumOver_nil, hinv]
  by_cases ha : a.id = id
  · have hp : ¬passive.id = id := fun hp ↦ hne (hp.trans ha.symm)
    simp [ha, hp, fillTrade]
  · simp [ha, fillTrade]

/-- What a fill leaves of its passive order holds the rest of what the order held, up to a loss. -/
private theorem held_leftAfter {μ : Order → Nat} {o : Order} {q : Quantity} {loss : Nat}
    (h : ((o.leftAfter q).toList.map μ).sum + q.toNat + loss = μ o) (id : OrderId) :
    held μ (o.leftAfter q).toList id + (if o.id = id then q.toNat + loss else 0) =
      if o.id = id then μ o else 0 := by
  have hnil : held μ [] id = 0 := rfl
  cases hl : o.leftAfter q with
  | none =>
    rw [hl] at h
    simp only [Option.toList_none, List.map_nil, List.sum_nil, Nat.zero_add] at h
    rw [Option.toList_none, hnil, h, Nat.zero_add]
  | some x =>
    have hid : x.id = o.id := (leftAfter_descends (o := o) (q := q) (by simp [hl])).id_eq
    rw [hl] at h
    simp only [Option.toList_some, List.map_cons, List.map_nil, List.sum_cons, List.sum_nil] at h
    rw [Option.toList_some, held_cons, hid, hnil]
    split <;> omega

/-- A fill takes its quantity from the passive order. -/
private theorem held_filled {μ : Order → Nat} {b b' : ReferenceBook} {o : Order} {q : Quantity}
    {loss : Nat} (hf : b.Filled o q b') (hd : b.Distinct) (ho : o ∈ b.allOrders)
    (h : ((o.leftAfter q).toList.map μ).sum + q.toNat + loss = μ o) (id : OrderId) :
    held μ b'.allOrders id + (if o.id = id then q.toNat + loss else 0) =
      held μ b.allOrders id := by
  have hleft := held_leftAfter h id
  rw [held_perm hf.perm, held_perm (hd.perm_of_mem ho), held_append, held_cons]
  omega

/-- A fill moves its quantity from what its two orders hold to what they have traded. -/
theorem held_fill {μ : Order → Nat} {s : Engine ReferenceBook} {a passive : Order}
    {K : List Frame} {r : MatchResult} {book' : ReferenceBook} {q : Quantity} {loss : Nat}
    (hd : s.book.Distinct) (hmem : passive ∈ s.book.allOrders) (hne : passive.id ≠ a.id)
    (hf : s.book.Filled passive q book')
    (hactive : μ { a with quantity := a.quantity - q } + q.toNat = μ a)
    (hpassive : ((passive.leftAfter q).toList.map μ).sum + q.toNat + loss = μ passive)
    (id : OrderId) :
    traded (r.pushTrade (fillTrade a passive q)).trades id +
        held μ (live (evaluate ⟨{ s with book := book' }.log (.fill (fillTrade a passive q)),
          .matching { a with quantity := a.quantity - q } :: K,
          r.pushTrade (fillTrade a passive q)⟩)) id + (if passive.id = id then loss else 0) =
      traded r.trades id + held μ (live ⟨s, .matching a :: K, r⟩) id := by
  have hbook := held_filled hf hd hmem hpassive id
  have hout : (⟨book', s.sequence, s.pendingStops, s.ghost ++ [GhostEvent.fill
      (fillTrade a passive q)]⟩ : Engine ReferenceBook).outstanding K = s.outstanding K := rfl
  rw [live, evaluate_book, held_append, held_perm (outstanding_evaluate _)]
  simp only [live, outstanding_matching, held_append, held_cons, MatchResult.pushTrade,
    traded_append, traded_fill hne, Engine.log, hout] at hbook ⊢
  by_cases ha : a.id = id
  · have hp : ¬passive.id = id := fun hp ↦ hne (hp.trans ha.symm)
    simp only [if_pos ha, if_neg hp] at hbook ⊢
    omega
  · by_cases hp : passive.id = id
    · simp only [if_neg ha, if_pos hp] at hbook ⊢
      omega
    · simp only [if_neg ha, if_neg hp] at hbook ⊢
      omega

end Config

/-- The result rejects the identifier for this reason. -/
def MatchResult.Answers (r : MatchResult) (id : OrderId) (reason : RejectReason) : Prop :=
  ∃ rej ∈ r.rejections, rej.orderId = id ∧ rej.reason = reason

namespace Config

variable {U : OrderId → Prop} {c d : Config ReferenceBook}

/-- A move fills its two orders from what they have left, or writes an order off. -/
theorem Moves.conserves (h : Moves c d) (ho : Orderly U c) (hs : ∀ o ∈ c.live, o.Sound)
    (id : OrderId) : (d.result.Answers id .marketExhausted ∧ ∀ o ∈ d.live, o.id ≠ id) ∨
      traded d.result.trades id + balance d.live id =
        traded c.result.trades id + balance c.live id := by
  have hagg {s : Engine ReferenceBook} {a : Order} {K : List Frame} {r : MatchResult}
      (hs : ∀ o ∈ Config.live ⟨s, .matching a :: K, r⟩, o.Sound) : a.Sound :=
    hs a (List.mem_append_right _ List.mem_cons_self)
  cases h with
  | @filled s a K r h0 =>
    right
    have hmark : balance (Config.live ⟨s, .matching (markFilled a) :: K, r⟩) id =
        balance (Config.live ⟨s, .matching a :: K, r⟩) id := by
      simp only [Config.live, outstanding_matching, balance_append, balance_cons,
        (markFilled_descends a).id_eq]
      rw [markFilled]
      split <;> rfl
    have h0' : (markFilled a).quantity = 0 := (markFilled_quantity a).trans h0
    rw [live_settle ((hagg hs).descend (markFilled_descends a)) (fun _ ↦ h0') id, hmark]
  | @uncrossed s a K r p hq hb ht =>
    right
    refine congrArg _ (live_settle (hagg hs) (fun hm ↦ ?_) id)
    rw [trades, hm] at ht
    exact absurd ht (by simp)
  | @unopposed s a K r hq hb ht =>
    right
    exact congrArg _ (live_settle (hagg hs) (fun hm ↦ absurd hm ht) id)
  | @exhausted s a K r hq hb ht =>
    by_cases hid : a.id = id
    · left
      refine ⟨⟨exhaustion a, List.mem_append_right _ List.mem_cons_self, hid, rfl⟩, ?_⟩
      intro o hl he
      have hne := ho.nodup
      rw [outstanding_matching, List.map_cons, List.nodup_cons] at hne
      rcases List.mem_append.mp hl with hl | hl
      · exact ho.apart a List.mem_cons_self o hl (he.trans hid.symm)
      · exact hne.1 (hid ▸ he ▸ List.mem_map_of_mem hl)
    · right
      change traded r.trades id + balance (s.book.allOrders ++ s.outstanding K) id = _
      simp only [Config.live, outstanding_matching, balance_append, balance_cons, if_neg hid]
      omega
  | @fill s a passive K r p key book book' q hq hb ht hp hqq hset =>
    right
    obtain ⟨rfl, rfl, ⟨rest, hrest⟩, -⟩ := ho.distinct.of_pickPassive hp
    have hmem := (ReferenceBook.mem_of_head hrest).1
    have hne := ho.apart a List.mem_cons_self passive hmem
    have hqa : q ≤ a.quantity := hqq ▸ Std.min_le_left
    have hqp : q ≤ passive.quantity := hqq ▸ Std.min_le_right
    have hactive : ({ a with quantity := a.quantity - q } : Order).unfilled + q.toNat =
        a.unfilled := by
      have hsub := UInt64.toNat_sub_of_le _ _ hqa
      rw [UInt64.le_iff_toNat_le] at hqa
      simp only [Order.unfilled, hsub]
      omega
    have hpassive : ((passive.leftAfter q).toList.map Order.unfilled).sum + q.toNat + 0 =
        passive.unfilled := unfilled_leftAfter (hs passive (List.mem_append_left _ hmem)) hqp
    have hfill := held_fill (r := r) (K := K) ho.distinct hmem hne
      (ho.distinct.filled hmem hset) hactive hpassive id
    rw [ite_self, Nat.add_zero] at hfill
    rw [evaluate_result]
    exact hfill
  | evaluated => exact .inr rfl
  | @triggered s p stop working K r ht =>
    right
    simp only [Config.live, enterConverted, outstanding_matching, outstanding_triggers,
      balance_append, balance_cons]
    rfl
  | @kept s p stop working K r ht =>
    right
    simp only [Config.live, outstanding_triggers, balance_append,
      balance_perm (outstanding_kept s stop _)]

end Config

end LobEngine
