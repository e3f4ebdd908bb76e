import Mathlib.Algebra.Order.BigOperators.Group.List
import Mathlib.Algebra.Order.Group.Nat
import LobEngine.Properties.Overtrading

/-!
# How many fills a stream can cause

Every fill empties its aggressor, its passive order or the shown peak of an iceberg, and an order
can be emptied no more often than its peaks allow. The count of the fills and what the orders in
the engine can still be emptied never grows but by what is submitted; it is an amortised bound on
the work of the match loops.
-/

namespace LobEngine

open BookOps Engine

namespace Order

/-- How often an order that rests can be emptied: once as it is, and once for each peak that its
reserve still fills. -/
def clips (o : Order) : Nat :=
  if o.isIceberg then 1 + (o.reserveQty.toNat + o.peakQty.toNat - 1) / o.peakQty.toNat else 1

/-- How often an order that matches, or would once it is triggered, can be emptied, then and when
it comes to rest. -/
def allowance (o : Order) : Nat :=
  match o.type with
  | .limit => if o.quantity > 0 then o.clips else 0
  | .iceberg =>
    (if o.quantity > 0 then 1 else 0) +
      if o.quantity > 0 ∨ o.reserveQty > 0 then o.clips else 0
  | .market | .stop | .stopLimit => if o.quantity > 0 then 1 else 0

private theorem one_le_clips (o : Order) : 1 ≤ o.clips := by
  rw [clips]
  split
  · exact Nat.le_add_right _ _
  · exact Nat.le_refl _

/-- A replenished iceberg has one peak less. -/
private theorem clips_replenished {o : Order} (h : o.isIceberg = true) (hr : o.reserveQty > 0) :
    o.replenished.clips + 1 ≤ o.clips := by
  have hpeak : 0 < o.peakQty.toNat := by
    simpa [isIceberg, UInt64.pos_iff_toNat_pos] using h
  have hres : 0 < o.reserveQty.toNat := UInt64.pos_iff_toNat_pos.mp hr
  have hsub := UInt64.toNat_sub_min_right o.peakQty o.reserveQty
  have hsame : o.replenished.isIceberg = o.isIceberg := rfl
  have hquot : (o.reserveQty.toNat - o.peakQty.toNat + o.peakQty.toNat - 1) / o.peakQty.toNat + 1 ≤
      (o.reserveQty.toNat + o.peakQty.toNat - 1) / o.peakQty.toNat := by
    by_cases hle : o.peakQty.toNat ≤ o.reserveQty.toNat
    · rw [← Nat.add_div_right _ hpeak]
      apply Nat.div_le_div_right
      omega
    · have hlast :
          o.reserveQty.toNat - o.peakQty.toNat + o.peakQty.toNat - 1 < o.peakQty.toNat := by
        omega
      rw [Nat.div_eq_of_lt hlast, Nat.zero_add]
      apply (Nat.one_le_div_iff hpeak).mpr
      omega
  rw [clips, clips, hsame, if_pos h, if_pos h]
  simp only [replenished, hsub]
  omega

/-- A fill that leaves the passive order lowers it by one; any other fill leaves it. -/
private theorem clips_leftAfter (o : Order) (q : Quantity) :
    ((o.leftAfter q).toList.map clips).sum + 1 ≤ o.clips ∨
      o.quantity - q ≠ 0 ∧ ((o.leftAfter q).toList.map clips).sum = o.clips := by
  rw [leftAfter]
  split
  · left
    split
    · next hre => exact clips_replenished hre.1 hre.2
    · exact one_le_clips o
  · next h0 => exact .inr ⟨h0, rfl⟩

/-- An order that settles was allowed to be emptied at rest. -/
private theorem allowance_markFilled (o : Order) : (markFilled o).allowance = o.allowance := by
  rw [markFilled]
  split <;> rfl

/-- The status plays no part. -/
private theorem allowance_status (o : Order) (st : OrderStatus) :
    ({ o with status := st } : Order).allowance = o.allowance := rfl

/-- The allowance of an order with another quantity. -/
private theorem allowance_withQuantity (a : Order) (q : Quantity) :
    ({ a with quantity := q } : Order).allowance = match a.type with
      | .limit => if q > 0 then a.clips else 0
      | .iceberg =>
        (if q > 0 then 1 else 0) + if q > 0 ∨ a.reserveQty > 0 then a.clips else 0
      | .market | .stop | .stopLimit => if q > 0 then 1 else 0 := rfl

/-- A fill never raises what is left to an aggressor. -/
private theorem allowance_debited {a : Order} (ha : a.quantity > 0) (q : Quantity) :
    ({ a with quantity := a.quantity - q } : Order).allowance ≤ a.allowance := by
  rw [allowance_withQuantity, allowance]
  cases a.type with
  | limit | market | stop | stopLimit =>
    simp only [if_pos ha]
    split <;> omega
  | iceberg =>
    simp only [if_pos ha, if_pos (Or.inl ha)]
    split <;> split <;> omega

/-- A fill that empties the aggressor lowers it by one. -/
private theorem allowance_emptied {a : Order} {q : Quantity} (ha : a.quantity > 0)
    (h0 : a.quantity - q = 0) :
    ({ a with quantity := a.quantity - q } : Order).allowance + 1 ≤ a.allowance := by
  have hone := a.one_le_clips
  have hempty : ¬(0 : Quantity) > 0 := by decide
  rw [allowance_withQuantity, allowance, h0]
  cases a.type with
  | limit | market | stop | stopLimit =>
    simp only [if_pos ha, if_neg hempty]
    omega
  | iceberg =>
    simp only [if_pos ha, if_neg hempty, if_pos (Or.inl ha), gt_iff_lt]
    split <;> omega

end Order

/-! ### Moves -/

namespace Config

/-- How often the orders in the engine can still be emptied. -/
def allowance (c : Config ReferenceBook) : Nat :=
  (c.engine.book.allOrders.map Order.clips).sum +
    ((c.engine.outstanding c.stack).map Order.allowance).sum

variable {U : OrderId → Prop} {c d : Config ReferenceBook}

/-- An order that settles takes no more than it was allowed. -/
private theorem allowance_settle (s : Engine ReferenceBook) (a : Order) (K : List Frame)
    (r r' : MatchResult) : allowance ⟨settle s a, K, r⟩ ≤ allowance ⟨s, .matching a :: K, r'⟩ := by
  have hout : ((s.outstanding K).map Order.allowance).sum + a.allowance =
      ((s.outstanding (.matching a :: K)).map Order.allowance).sum := by
    rw [outstanding_matching, List.map_cons, List.sum_cons, Nat.add_comm]
  have hin (hle : a.clips ≤ a.allowance) :
      allowance ⟨s.insert a, K, r⟩ ≤ allowance ⟨s, .matching a :: K, r'⟩ := by
    have hbook : ((s.insert a).book.allOrders.map Order.clips).sum =
        a.clips + (s.book.allOrders.map Order.clips).sum := by
      show ((s.book.insertOrder a).allOrders.map Order.clips).sum = _
      rw [((ReferenceBook.allOrders_insertOrder s.book a).map Order.clips).sum_nat, List.map_cons,
        List.sum_cons]
    have hsame : (s.insert a).outstanding K = s.outstanding K := rfl
    simp only [allowance, hbook, hsame, ← hout]
    omega
  have hgone : allowance ⟨s, K, r⟩ ≤ allowance ⟨s, .matching a :: K, r'⟩ := by
    simp only [allowance, ← hout]
    omega
  unfold settle
  split
  · next ht =>
    split
    · next hq =>
      apply hin
      simp only [Order.allowance, ht, if_pos hq]
      exact Nat.le_refl _
    · exact hgone
  · next ht =>
    split
    · next hq =>
      apply hin
      simp only [Order.allowance, ht, if_pos hq]
      omega
    · exact hgone
  · exact hgone

/-- A fill takes one from what the aggressor and the book can still be emptied. -/
private theorem allowance_fill {s : Engine ReferenceBook} {a passive : Order} {K : List Frame}
    {r r' : MatchResult} {q : Quantity} {book' : ReferenceBook} (ev : GhostEvent)
    (hd : s.book.Distinct) (ha : a.quantity > 0) (hmem : passive ∈ s.book.allOrders)
    (hq : q = min a.quantity passive.quantity) (hf : s.book.Filled passive q book') :
    allowance ⟨{ s with book := book' }.log ev,
      .matching { a with quantity := a.quantity - q } :: K, r⟩ + 1 ≤
      allowance ⟨s, .matching a :: K, r'⟩ := by
  have hbook : (s.book.allOrders.map Order.clips).sum = passive.clips +
      ((s.book.allOrders.filter (·.id != passive.id)).map Order.clips).sum := by
    rw [((hd.perm_of_mem hmem).map Order.clips).sum_nat, List.map_cons, List.sum_cons]
  have hbook' : (book'.allOrders.map Order.clips).sum =
      ((passive.leftAfter q).toList.map Order.clips).sum +
        ((s.book.allOrders.filter (·.id != passive.id)).map Order.clips).sum := by
    rw [(hf.perm.map Order.clips).sum_nat, List.map_append, List.sum_append]
  have hout : ({ s with book := book' }.log ev).outstanding K = s.outstanding K := rfl
  have hnew : ({ s with book := book' }.log ev).book = book' := rfl
  simp only [allowance, outstanding_matching, List.map_cons, List.sum_cons, hout, hnew, hbook,
    hbook']
  rcases passive.clips_leftAfter q with hclips | ⟨hleft, hclips⟩
  · have hle := Order.allowance_debited ha q
    omega
  · have hzero : a.quantity - q = 0 := by
      rw [hq, ne_eq, UInt64.eq_zero_iff_toNat, UInt64.toNat_sub_min_right] at hleft
      rw [hq, UInt64.eq_zero_iff_toNat, UInt64.toNat_sub_min]
      omega
    have hless := Order.allowance_emptied ha hzero
    omega

private theorem allowance_evaluate (c : Config ReferenceBook) :
    (evaluate c).allowance = c.allowance := by
  simp only [allowance, evaluate_book]
  rw [((outstanding_evaluate c).map Order.allowance).sum_nat]

/-- No move raises the count of the fills and what the orders can still be emptied. -/
theorem Moves.allowance (h : Moves c d) (ho : Orderly U c) :
    d.result.trades.length + d.allowance ≤ c.result.trades.length + c.allowance := by
  cases h with
  | @filled s a K r h0 =>
    have hle := allowance_settle s (markFilled a) K r r
    have hsame : Config.allowance ⟨s, .matching (markFilled a) :: K, r⟩ =
        Config.allowance ⟨s, .matching a :: K, r⟩ := by
      simp only [Config.allowance, outstanding_matching, List.map_cons, Order.allowance_markFilled]
    rw [hsame] at hle
    exact Nat.add_le_add_left hle _
  | uncrossed | unopposed => exact Nat.add_le_add_left (allowance_settle _ _ _ _ _) _
  | @exhausted s a K r =>
    apply Nat.add_le_add_left
    show (s.book.allOrders.map Order.clips).sum + ((s.outstanding K).map Order.allowance).sum ≤ _
    simp only [Config.allowance, outstanding_matching, List.map_cons, List.sum_cons]
    omega
  | @fill s a passive K r p key book book' q hq hb ht hp hqq hset =>
    obtain ⟨rfl, rfl, ⟨rest, hrest⟩, -⟩ := ho.distinct.of_pickPassive hp
    have hmem := (ReferenceBook.mem_of_head hrest).1
    have hfill : Config.allowance
        ⟨{ s with book := book' }.log (.fill (fillTrade a passive q)),
          .matching { a with quantity := a.quantity - q } :: K,
          r.pushTrade (fillTrade a passive q)⟩ + 1 ≤ Config.allowance ⟨s, .matching a :: K, r⟩ :=
      allowance_fill _ ho.distinct hq hmem hqq (ho.distinct.filled hmem hset)
    have hcount : (r.pushTrade (fillTrade a passive q)).trades.length = r.trades.length + 1 :=
      List.length_append
    rw [evaluate_result, allowance_evaluate]
    simp only [hcount]
    omega
  | evaluated => exact Nat.le_refl _
  | @triggered s p stop working K r ht =>
    apply Nat.add_le_add_left
    simp only [Config.allowance, enterConverted, outstanding_matching, outstanding_triggers,
      List.map_cons]
    exact Nat.le_refl _
  | @kept s p stop working K r ht =>
    apply Nat.add_le_add_left
    simp only [Config.allowance, outstanding_triggers,
      ((outstanding_kept s stop _).map Order.allowance).sum_nat]
    exact Nat.le_refl _

end Config

/-! ### Events and runs -/

/-- Another order in the place of an order of the book. -/
private theorem clips_perm {b b' : ReferenceBook} (hd : b.Distinct) {o x : Order}
    (ho : o ∈ b.allOrders) (hp : List.Perm b'.allOrders (x :: b.allOrders.filter (·.id != o.id)))
    (hx : x.clips = o.clips) :
    (b'.allOrders.map Order.clips).sum = (b.allOrders.map Order.clips).sum := by
  rw [(hp.map Order.clips).sum_nat, ((hd.perm_of_mem ho).map Order.clips).sum_nat, List.map_cons,
    List.map_cons, List.sum_cons, List.sum_cons, hx]

/-- An event adds what the order that it hands over is allowed. -/
private theorem allowance_start {t : Engine ReferenceBook} (hd : t.book.Distinct) (e : OrderEvent)
    (r : MatchResult) : (Config.start t e).allowance ≤
      ((handed t e).toList.map fun o ↦ o.entering.allowance).sum +
        Config.allowance ⟨t, [], r⟩ := by
  have henter (s : Engine ReferenceBook) {o : Order} (ho : handed t e = some o)
      (hle : Config.allowance ⟨s, [], r⟩ ≤ Config.allowance ⟨t, [], r⟩) :
      (Config.enter s o [] {}).allowance ≤
        ((handed t e).toList.map fun o ↦ o.entering.allowance).sum +
          Config.allowance ⟨t, [], r⟩ := by
    obtain ⟨st, hperm⟩ := outstanding_enter s o [] {}
    have hout := (hperm.map Order.allowance).sum_nat
    rw [List.map_cons, List.sum_cons, Order.allowance_status] at hout
    rw [ho]
    simp only [Config.allowance, enter_book, hout, Option.toList_some, List.map_cons, List.map_nil,
      List.sum_cons, List.sum_nil] at hle ⊢
    omega
  have hidle {c : Config ReferenceBook} (hle : c.allowance ≤ Config.allowance ⟨t, [], r⟩) :
      c.allowance ≤ ((handed t e).toList.map fun o ↦ o.entering.allowance).sum +
        Config.allowance ⟨t, [], r⟩ := Nat.le_add_left_of_le hle
  have hcancel (id : OrderId) : ((t.book.cancelOrder id).allOrders.map Order.clips).sum ≤
      (t.book.allOrders.map Order.clips).sum := by
    rw [ReferenceBook.allOrders_cancelOrder]
    exact (List.filter_sublist.map Order.clips).sum_le_sum fun _ _ ↦ Nat.zero_le _
  have hstart := Config.starts t e
  generalize Config.start t e = c at hstart
  cases hstart with
  | @newOrder e => exact henter { t with sequence := t.sequence + 1 } rfl (Nat.le_refl _)
  | @replaced e hh =>
    exact henter { t with sequence := t.sequence + 1, book := cancelOrder t.book e.oldOrderId }
      (by simp [handed, hh]) (Nat.add_le_add_right (hcancel e.oldOrderId) _)
  | @stopCancelled e stop =>
    apply hidle
    apply Nat.add_le_add_left
    have hsub : List.Sublist (t.pendingStops.eraseP (·.id == e.orderId)) t.pendingStops :=
      List.eraseP_sublist
    exact ((hsub.map Order.converted).map Order.allowance).sum_le_sum fun _ _ ↦ Nat.zero_le _
  | @orderCancelled e o => exact hidle (Nat.add_le_add_right (hcancel e.orderId) _)
  | @requeued e o hfind =>
    obtain ⟨hmem, hid⟩ := ReferenceBook.mem_of_findOrder hfind
    apply hidle
    apply Nat.add_le_add_right
    apply Nat.le_of_eq
    apply clips_perm hd hmem _ (x := modified e o) rfl
    refine (ReferenceBook.allOrders_insertOrder _ _).trans ?_
    rw [← hid]
    exact (hd.cancelOrder_perm (hd.perm_of_mem hmem)).cons _
  | @reduced e o hfind =>
    obtain ⟨hmem, hid⟩ := ReferenceBook.mem_of_findOrder hfind
    apply hidle
    apply Nat.add_le_add_right
    apply Nat.le_of_eq
    apply clips_perm hd hmem _ (x := { o with quantity := e.newQuantity }) rfl
    have hperm := hd.updateOrderQuantity_perm (hd.perm_of_mem hmem) e.newQuantity
    rw [hid] at hperm ⊢
    exact hperm
  | cancelRejected | replaceRejected | unmodified => exact hidle (Nat.le_refl _)

/-- The orders that an event hands over are among those that it submits. -/
private theorem allowance_handed (t : Engine ReferenceBook) (e : OrderEvent) :
    ((handed t e).toList.map fun o ↦ o.entering.allowance).sum ≤
      (e.orders.map fun o ↦ o.entering.allowance).sum := by
  cases hh : handed t e with
  | none => exact Nat.zero_le _
  | some o =>
    rw [orders_of_handed hh]
    exact Nat.le_refl _

/-- How often the orders in the engine can still be emptied between two events. -/
def Engine.allowance (s : Engine (OrderBook PriceLevel)) : Nat :=
  (s.book.storedOrders.map Order.clips).sum +
    ((s.pendingStops.map Order.converted).map Order.allowance).sum

/-- How often the orders that an event submits can be emptied. -/
def OrderEvent.allowance (e : OrderEvent) : Nat :=
  (e.orders.map fun o ↦ o.entering.allowance).sum

theorem Refines.allowance {es : List OrderEvent} {s : Engine (OrderBook PriceLevel)}
    {t : Engine ReferenceBook} (h : Refines es s t) :
    Config.allowance ⟨t, [], {}⟩ = s.allowance := by
  have hpending : t.outstanding [] = s.pendingStops.map Order.converted := by
    rw [h.agree]
    simp [outstanding, withBook]
  rw [Config.allowance, Engine.allowance, hpending,
    (h.tracks.represents.storedOrders_perm.map Order.clips).sum_nat]

section Run

variable {es : List OrderEvent} {e : OrderEvent} {rs : List MatchResult} {r : MatchResult}

/-- The fills of an event are paid for by what it submits and by the orders in the engine. -/
theorem Run.event_fills {t t' : Engine ReferenceBook} (h : Run Anything es t rs)
    (hf : Fresh (es ++ [e])) (hs : Submits t e t' r) :
    r.trades.length + Config.allowance ⟨t', [], {}⟩ ≤
      e.allowance + Config.allowance ⟨t, [], {}⟩ := by
  have hevent : r.trades.length + Config.allowance ⟨t', [], r⟩ ≤ (Config.start t e).allowance :=
    h.submit_induction hf hs
      (P := fun c ↦ c.result.trades.length + c.allowance ≤ (Config.start t e).allowance)
      (fun _ ↦ by rw [start_trades]; exact Nat.le_of_eq (Nat.zero_add _))
      (fun c d ho hc hm ↦ (hm.allowance ho).trans hc)
  have hstart := allowance_start (h.orderly hf.left {}).distinct e {}
  have hhanded := allowance_handed t e
  exact hevent.trans (hstart.trans (Nat.add_le_add_right hhanded _))

variable {s : Engine (OrderBook PriceLevel)}

/-- In a fresh run whose modifies land the fills, and what the orders of the book and the pending
stops can still be emptied, come to no more than the submitted orders are allowed. -/
theorem run_fills_bounded (h : Run Lands es s rs) (hf : Fresh es) :
    (rs.flatMap MatchResult.trades).length + s.allowance ≤
      (es.map OrderEvent.allowance).sum := by
  obtain ⟨t, -, href, hbound⟩ := h.refines_induction (fun hl ↦ hl)
    (P := fun es t rs ↦ (rs.flatMap MatchResult.trades).length + Config.allowance ⟨t, [], {}⟩ ≤
      (es.map OrderEvent.allowance).sum) (Nat.le_refl _) (by
    intro es e s t t' rs r _ ht hf _ hbound hs
    have hevent := ht.event_fills hf hs
    rw [List.flatMap_append, List.flatMap_singleton, List.length_append, List.map_append,
      List.sum_append, List.map_singleton, List.sum_singleton]
    omega) hf
  rwa [href.allowance] at hbound

end Run

/-- Iceberg 2 is emptied on arrival and once at rest, by order 3. -/
private def refilled : List OrderEvent :=
  [.newOrder ⟨{ id := 1, side := .sell, price := 100, quantity := 8 }⟩,
    .newOrder ⟨{ id := 2, type := .iceberg, price := 100, quantity := 12, peakQty := 5 }⟩,
    .newOrder ⟨{ id := 3, side := .sell, price := 99, quantity := 6 }⟩,
    .newOrder ⟨{ id := 4, side := .sell, price := 105, quantity := 2 }⟩,
    .newOrder ⟨{ id := 5, type := .stop, stopPrice := 110, quantity := 2 }⟩]

/-- Four fills; three orders rest and a stop is pending. -/
theorem run_fills_bounded_refilled : ∃ (s : Engine (OrderBook PriceLevel))
    (rs : List MatchResult), Run Lands refilled s rs ∧
      (rs.flatMap MatchResult.trades).length = 4 ∧ 4 + s.allowance ≤ 8 := by
  obtain ⟨s, rs, hrun, hcount⟩ := Run.exists_of_play (B := OrderBook PriceLevel) KeepsPlace 50
    refilled (fun _ rs ↦ (rs.flatMap MatchResult.trades).length = 4) (by decide +kernel)
  have hlands : Run Lands refilled s rs := hrun.mono fun _ _ ↦ .of_keepsPlace
  have hbound := run_fills_bounded hlands (by decide)
  rw [hcount] at hbound
  exact ⟨s, rs, hlands, hcount, hbound.trans (by decide)⟩

end LobEngine
