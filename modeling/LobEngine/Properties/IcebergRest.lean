import LobEngine.Properties.Repricing
import LobEngine.Properties.Sweep
import LobEngine.Properties.Uncrossed

/-!
# An iceberg rests after one peak

`process_new_order` splits an incoming iceberg before it matches it, so its match loop ends with
the peak. Whether the opposite side is exhausted when the rest comes to rest depends on how much
the acceptable orders can trade, and, where that is exactly the peak, on the order in which the
worst acceptable level is emptied.
-/

namespace LobEngine

open BookOps Engine

/-! ### The worst acceptable level -/

/-- Of the prices that pass a test, `p` is the last one with orders. -/
structure Worst (side : Side) (m : Price → Bool) (queue : Price → List Order) (p : Price) :
    Prop where
  passes : m p = true
  orders : queue p ≠ []
  last : ∀ p', m p' = true → queue p' ≠ [] → (side.cmp p' p).isLE = true

/-- Trading all that the queue can trade reaches its last order: some order has a reserve behind
its peak, with which it comes back behind the others, or the last order shows a quantity. -/
def ClearsOut (queue : List Order) : Prop :=
  (∃ x ∈ queue, x.isIceberg = true ∧ x.reserveQty > 0) ∨
    ∃ z, queue.getLast? = some z ∧ z.quantity > 0

/-- Where an acceptable level is left, trading all of it reaches its last order. -/
def ClearsWorst (side : Side) (m : Price → Bool) (queue : Price → List Order) : Prop :=
  ∀ p, Worst side m queue p → ClearsOut (queue p)

section Queues

variable {side : Side} {m : Price → Bool} {queue queue' : Price → List Order}

theorem Worst.congr (h : ∀ p, queue' p = [] ↔ queue p = []) {p : Price}
    (hw : Worst side m queue p) : Worst side m queue' p where
  passes := hw.passes
  orders := mt (h p).mp hw.orders
  last p' hm hne := hw.last p' hm (mt (h p').mpr hne)

/-- The queue of one price has changed, and none has been emptied. -/
private theorem clearsWorst_congr {p₀ : Price} (hothers : ∀ p, p ≠ p₀ → queue' p = queue p)
    (hne : queue p₀ ≠ []) (hne' : queue' p₀ ≠ [])
    (hclears : ClearsOut (queue' p₀) ↔ ClearsOut (queue p₀)) :
    ClearsWorst side m queue' ↔ ClearsWorst side m queue := by
  have hnil (p : Price) : queue' p = [] ↔ queue p = [] := by
    by_cases hp : p = p₀
    · rw [hp]
      exact iff_of_false hne' hne
    · rw [hothers p hp]
  have hall (p : Price) : ClearsOut (queue' p) ↔ ClearsOut (queue p) := by
    by_cases hp : p = p₀
    · rw [hp]
      exact hclears
    · rw [hothers p hp]
  constructor
  · intro hc p hw
    exact (hall p).mp (hc p (hw.congr hnil))
  · intro hc p hw
    exact (hall p).mpr (hc p (hw.congr fun p ↦ (hnil p).symm))

/-- The queue of the best price has been emptied. -/
private theorem clearsWorst_emptied {p₀ : Price} (hothers : ∀ p, p ≠ p₀ → queue' p = queue p)
    (hempty : queue' p₀ = []) (hbest : ∀ p, queue p ≠ [] → (side.cmp p₀ p).isLE = true)
    (hclears : Worst side m queue p₀ → ClearsOut (queue p₀)) :
    ClearsWorst side m queue' ↔ ClearsWorst side m queue := by
  constructor
  · intro hc p hw
    by_cases hp : p = p₀
    · subst hp
      exact hclears hw
    · have hw' : Worst side m queue' p := by
        refine ⟨hw.passes, hothers p hp ▸ hw.orders, fun p' hm' hne ↦ hw.last p' hm' ?_⟩
        by_cases hp' : p' = p₀
        · rw [hp', hempty] at hne
          exact absurd rfl hne
        · rwa [← hothers p' hp']
      rw [← hothers p hp]
      exact hc p hw'
  · intro hc p hw
    have hp : p ≠ p₀ := by
      rintro rfl
      exact hw.orders hempty
    have hne : queue p ≠ [] := hothers p hp ▸ hw.orders
    have hw' : Worst side m queue p := by
      refine ⟨hw.passes, hne, fun p' hm' hne' ↦ ?_⟩
      by_cases hp' : p' = p₀
      · rw [hp']
        exact hbest p hne
      · rw [← hothers p' hp'] at hne'
        exact hw.last p' hm' hne'
    rw [hothers p hp]
    exact hc p hw'

/-- An order that trades something, and returns or stands last, is the only one needed. -/
private theorem clearsOut_concat {front : List Order} {z : Order} (hz : z.quantity > 0) :
    ClearsOut (front ++ [z]) := .inr ⟨z, List.getLast?_concat, hz⟩

/-- An order without a reserve matters only where it stands last. -/
private theorem clearsOut_cons {o : Order} {back : List Order}
    (ho : ¬(o.isIceberg = true ∧ o.reserveQty > 0)) (hback : back ≠ []) :
    ClearsOut (o :: back) ↔ ClearsOut back := by
  have hlast : (o :: back).getLast? = back.getLast? := by
    rw [List.getLast?_cons, List.getLast?_eq_some_getLast hback]
    rfl
  rw [ClearsOut, ClearsOut, hlast]
  simp only [List.exists_mem_cons_iff, or_iff_right ho]

end Queues

section Offer

variable {b b' : ReferenceBook} {side : Side} {m : Price → Bool} {o : Order} {rest : List Order}

/-- An offer that is worth something holds an order that is. -/
theorem exists_worth {os : List Order} (h : 0 < offered Order.worth side m os) :
    ∃ x ∈ os, x.side = side ∧ m x.price = true ∧ 0 < x.worth := by
  induction os with
  | nil => exact absurd h (Nat.lt_irrefl 0)
  | cons x os ih =>
    rw [offered_cons] at h
    by_cases hx : (x.side = side ∧ m x.price = true) ∧ 0 < x.worth
    · exact ⟨x, List.mem_cons_self, hx.1.1, hx.1.2, hx.2⟩
    · have hrest : 0 < offered Order.worth side m os := by
        split at h
        · next hs =>
          have hzero : ¬0 < x.worth := fun hw ↦ hx ⟨hs, hw⟩
          omega
        · omega
      obtain ⟨y, hy, hprop⟩ := ih hrest
      exact ⟨y, List.mem_cons_of_mem x hy, hprop⟩

/-- An order that is worth something shows a quantity or has a reserve behind its peak. -/
private theorem clearsOut_singleton (h : 0 < o.worth) : ClearsOut [o] := by
  by_cases hr : o.isIceberg = true ∧ o.reserveQty > 0
  · exact .inl ⟨o, List.mem_cons_self, hr⟩
  · refine .inr ⟨o, rfl, ?_⟩
    rw [Order.worth] at h
    rw [gt_iff_lt, UInt64.pos_iff_toNat_pos]
    by_cases hi : o.isIceberg = true
    · have hres : ¬0 < o.reserveQty := fun hres ↦ hr ⟨hi, hres⟩
      rw [UInt64.pos_iff_toNat_pos] at hres
      rw [if_pos hi] at h
      omega
    · rw [if_neg hi] at h
      exact h

/-- A queue that clears out is worth something. -/
theorem ClearsOut.exists_worth {queue : List Order} (h : ClearsOut queue) :
    ∃ x ∈ queue, 0 < x.worth := by
  rcases h with ⟨x, hx, hi, hres⟩ | ⟨z, hz, hq⟩
  · rw [gt_iff_lt, UInt64.pos_iff_toNat_pos] at hres
    refine ⟨x, hx, ?_⟩
    rw [Order.worth, if_pos hi]
    omega
  · rw [gt_iff_lt, UInt64.pos_iff_toNat_pos] at hq
    exact ⟨z, List.mem_of_getLast? hz, hq.trans_le z.quantity_le_worth⟩

/-- An order at an acceptable price leaves a worst acceptable level. -/
private theorem exists_worst {x : Order} (hx : x ∈ b.orders side) (hm : m x.price = true) :
    ∃ p, Worst side m (b.atPrice side) p := by
  have hmem : x ∈ (b.orders side).filter fun o ↦ m o.price :=
    List.mem_filter.mpr ⟨hx, hm⟩
  have hsorted := (b.half side).ladder.sorted.filter fun o ↦ m o.price
  let z := ((b.orders side).filter fun o ↦ m o.price).getLast (List.ne_nil_of_mem hmem)
  have hz := List.mem_filter.mp (List.getLast_mem (List.ne_nil_of_mem hmem))
  refine ⟨z.price, hz.2, ?_, fun p hp hne ↦ ?_⟩
  · have hat := ReferenceBook.mem_orders.mp hz.1
    exact List.ne_nil_of_mem (ReferenceBook.mem_atPrice.mpr ⟨hat.1, hat.2, rfl⟩)
  · obtain ⟨y, hy⟩ := List.exists_mem_of_ne_nil _ hne
    obtain ⟨hyb, hys, rfl⟩ := ReferenceBook.mem_atPrice.mp hy
    have hmem : y ∈ (b.orders side).filter fun o ↦ m o.price :=
      List.mem_filter.mpr ⟨ReferenceBook.mem_orders.mpr ⟨hyb, hys⟩, hp⟩
    have hself : (side.cmp z.price z.price).isLE = true := by
      have heq : side.cmp z.price z.price = .eq := Std.ReflCmp.compare_self
      rw [heq]
      rfl
    exact hsorted.rel_getLast_of_rel_getLast_getLast hmem hself

/-- Where the acceptable orders are worth nothing, the worst level is cleared exactly where there
is none. -/
private theorem clearsWorst_iff_none (hd : b.Distinct)
    (h : offered Order.worth side m b.allOrders = 0) :
    ClearsWorst side m (b.atPrice side) ↔ ∀ x ∈ b.orders side, m x.price = false := by
  constructor
  · intro hc x hx
    by_contra hm
    obtain ⟨p, hw⟩ := exists_worst hx (Bool.eq_true_of_not_eq_false hm)
    obtain ⟨y, hy, hpos⟩ := (hc p hw).exists_worth
    obtain ⟨hyb, hside, rfl⟩ := ReferenceBook.mem_atPrice.mp hy
    have hle := worth_le_offered hd hyb hside hw.passes
    omega
  · intro hnone p hw
    obtain ⟨y, hy⟩ := List.exists_mem_of_ne_nil _ hw.orders
    obtain ⟨hyb, hside, rfl⟩ := ReferenceBook.mem_atPrice.mp hy
    have hfalse := hnone y (ReferenceBook.mem_orders.mpr ⟨hyb, hside⟩)
    rw [hw.passes] at hfalse
    exact absurd hfalse (by decide)

/-- A fill of a loop whose order asks for exactly what is offered. -/
private theorem clearsWorst_fill (hd : b.Distinct) (ho : b.orders side = o :: rest)
    (hm : m o.price = true) {n q : Quantity} (hn : n > 0) (hq : q = min n o.quantity)
    (hoffer : offered Order.worth side m b.allOrders = n.toNat)
    (hs : settlePassive b o.id o q = .ok b') :
    ClearsWorst side m (b'.atPrice side) ↔ ClearsWorst side m (b.atPrice side) := by
  obtain ⟨hmem, hside⟩ := ReferenceBook.mem_of_head ho
  subst hside
  have hat := ReferenceBook.atPrice_head ho
  have hqueue := hd.filled_queue hat hs
  have hothers (p : Price) (hp : p ≠ o.price) : b'.atPrice o.side p = b.atPrice o.side p :=
    (hd.filled hmem hs).elsewhere fun h ↦ hp h.2.symm
  generalize rest.filter (fun x ↦ x.price = o.price) = back at hat hqueue
  -- the order is filled as a whole, as it offers no more than everything
  have hwhole : o.quantity - q = 0 := by
    have hle := worth_le_offered hd hmem rfl hm
    have hqw := o.quantity_le_worth
    rw [UInt64.eq_zero_iff_toNat, hq, UInt64.toNat_sub_min_right]
    omega
  rw [Order.queueAfter, if_pos hwhole] at hqueue
  have hne : b.atPrice o.side o.price ≠ [] := hat ▸ List.cons_ne_nil o back
  by_cases hr : o.isIceberg = true ∧ o.reserveQty > 0
  · -- it comes back with a new peak, behind the others
    rw [if_pos hr] at hqueue
    have hpeak := Order.replenished_pos hr
    apply clearsWorst_congr hothers hne
    · rw [hqueue]
      exact List.append_ne_nil_of_right_ne_nil _ (List.cons_ne_nil _ _)
    · rw [hqueue, hat]
      exact iff_of_true (clearsOut_concat hpeak) (.inl ⟨o, List.mem_cons_self, hr⟩)
  rw [if_neg hr] at hqueue
  by_cases hback : back = []
  · -- it was alone at its price
    subst hback
    have hbest (p : Price) (hp : b.atPrice o.side p ≠ []) :
        (o.side.cmp o.price p).isLE = true := by
      obtain ⟨y, hy⟩ := List.exists_mem_of_ne_nil _ hp
      obtain ⟨hyb, hys, rfl⟩ := ReferenceBook.mem_atPrice.mp hy
      exact ReferenceBook.best_le ho (ReferenceBook.mem_orders.mpr ⟨hyb, hys⟩)
    apply clearsWorst_emptied hothers hqueue hbest
    intro hw
    rw [gt_iff_lt, UInt64.pos_iff_toNat_pos, ← hoffer] at hn
    obtain ⟨x, hx, hxs, hxm, hpos⟩ := exists_worth hn
    have hxat : x ∈ b.atPrice o.side x.price := ReferenceBook.mem_atPrice.mpr ⟨hx, hxs, rfl⟩
    have hprice : x.price = o.price := Std.LawfulEqCmp.eq_of_compare
      (Std.OrientedCmp.isLE_antisymm (hw.last x.price hxm (List.ne_nil_of_mem hxat))
        (hbest x.price (List.ne_nil_of_mem hxat)))
    rw [hprice, hat] at hxat
    obtain rfl := List.mem_singleton.mp hxat
    rw [hat]
    exact clearsOut_singleton hpos
  · -- the orders behind it remain
    apply clearsWorst_congr hothers hne
    · rwa [hqueue]
    · rw [hqueue, hat]
      exact (clearsOut_cons hr hback).symm

end Offer

/-! ### The loop of an iceberg -/

/-- While the loop asks for exactly what is offered, a move decides nothing about the worst
level. -/
theorem Sweeping.clears {U : OrderId → Prop} {b : ReferenceBook} {a₀ : Order}
    {c d : Config ReferenceBook} (ho : Orderly U c) (h : Sweeping b a₀ c)
    (hm : Config.Moves c d) (hoffer : offered Order.worth a₀.side.opposite (Config.trades a₀)
      b.allOrders = a₀.quantity.toNat) :
    ClearsWorst a₀.side.opposite (Config.trades a₀) (d.engine.book.atPrice a₀.side.opposite) ↔
      ClearsWorst a₀.side.opposite (Config.trades a₀)
        (c.engine.book.atPrice a₀.side.opposite) := by
  rcases h with ⟨a', hstack, h⟩ | ⟨hstack, -⟩
  · have hsettle {s : Engine ReferenceBook} {a : Order} (ha : a.side = a₀.side) :
        (Config.settle s a).book.atPrice a₀.side.opposite =
          s.book.atPrice a₀.side.opposite := by
      funext p
      rw [← ha]
      exact atPrice_settle s a p
    cases hm with
    | @filled s a K r =>
      obtain rfl := Frame.matching.inj (List.cons.inj hstack).1
      rw [hsettle ((markFilled_descends a).side_eq.trans h.side_eq)]
    | @uncrossed s a K r p =>
      obtain rfl := Frame.matching.inj (List.cons.inj hstack).1
      rw [hsettle h.side_eq]
    | @unopposed s a K r =>
      obtain rfl := Frame.matching.inj (List.cons.inj hstack).1
      rw [hsettle h.side_eq]
    | @fill s a passive K r p key book book' q hq hb ht hp hqq hset =>
      obtain rfl := Frame.matching.inj (List.cons.inj hstack).1
      obtain ⟨rfl, rfl, ⟨rest, hrest⟩, hbest⟩ := ho.distinct.of_pickPassive hp
      obtain rfl := Option.some.inj (hb.symm.trans hbest)
      have hleft : offered Order.worth a₀.side.opposite (Config.trades a₀) s.book.allOrders =
          a.quantity.toNat := by
        change Sweep b a₀ s a r at h
        have htaken := h.taken (Config.trades a₀) fun _ hp ↦ hp
        have hspent := h.spent
        omega
      rw [evaluate_book]
      exact clearsWorst_fill ho.distinct (h.side_eq ▸ hrest) (h.trades_eq _ ▸ ht) hq hqq hleft hset
    | exhausted | evaluated | triggered | kept => exact Iff.rfl
  · cases hm <;> exact absurd hstack (List.cons_ne_nil _ _)

/-- The same for the whole loop. -/
theorem Run.clears {Ok : Engine ReferenceBook → OrderEvent → Prop} {es : List OrderEvent}
    {e : OrderEvent} {t t₀ t' : Engine ReferenceBook} {rs : List MatchResult} {r : MatchResult}
    {a : Order} (h : Run Ok es t rs) (hf : Fresh (es ++ [e])) (hs : Submits t e t' r)
    (hstart : Config.start t e = ⟨t₀, [.matching a], {}⟩) (hp : t₀.pendingStops = [])
    (hoffer : offered Order.worth a.side.opposite (Config.trades a) t₀.book.allOrders =
      a.quantity.toNat) :
    ClearsWorst a.side.opposite (Config.trades a) (t'.book.atPrice a.side.opposite) ↔
      ClearsWorst a.side.opposite (Config.trades a) (t₀.book.atPrice a.side.opposite) := by
  let P : Config ReferenceBook → Prop := fun c ↦ Sweeping t₀.book a c ∧
    (ClearsWorst a.side.opposite (Config.trades a) (c.engine.book.atPrice a.side.opposite) ↔
      ClearsWorst a.side.opposite (Config.trades a) (t₀.book.atPrice a.side.opposite))
  suffices hP : P ⟨t', [], r⟩ from hP.2
  apply h.submit_induction hf hs
  · intro _
    rw [hstart]
    exact ⟨.inl ⟨a, rfl, .start hp⟩, Iff.rfl⟩
  · intro c d ho hc hm
    exact ⟨hc.1.moves ho hm, (hc.1.clears ho hm hoffer).trans hc.2⟩

namespace Swept

variable {b : ReferenceBook} {a₀ : Order} {t : Engine ReferenceBook} {r : MatchResult}

/-- The book stays uncrossed if no order is left that `a₀` crosses. -/
theorem uncrossed (h : Swept b a₀ t r) (hb : Uncrossed b)
    (hnone : ∀ x ∈ t.book.orders a₀.side.opposite, a₀.crosses x.price = false) :
    Uncrossed t.book := by
  obtain ⟨s, a, r₀, hsweep, -, hbook, -⟩ := h.last
  have hs : Uncrossed s.book := by
    apply hb.of_places
    intro x hx
    obtain ⟨y, hy, hxy⟩ := hsweep.descends x hx
    exact ⟨y, hy, hxy.side_eq, hxy.price_eq⟩
  rcases hbook with ht | ⟨x, hx, ht⟩
  · rwa [ht]
  · rw [ht]
    apply hs.insertOrder
    intro y hy hside
    have hmem : y ∈ t.book.orders a₀.side.opposite := by
      rw [ReferenceBook.mem_orders, ht, ReferenceBook.mem_insertOrder, ← hx.side_eq]
      exact ⟨.inr hy, hside⟩
    have hcross := hnone y hmem
    rwa [Order.crosses, Order.isBuy, Order.isSell, ← hx.side_eq, ← hx.price_eq] at hcross

/-- An iceberg comes to rest with what is left of its peak or with its reserve. -/
private theorem find_settle {s : Engine ReferenceBook} {a : Order} (ht : a.type = .iceberg)
    (hd : (Config.settle s a).book.Distinct) (hrest : a.quantity > 0 ∨ a.reserveQty > 0) :
    (Config.settle s a).book.findOrder a.id = some a := by
  have hsettle : Config.settle s a = s.insert a := by
    rw [Config.settle, ht]
    simp only [if_pos hrest]
  apply hd.findOrder_of_mem
  rw [hsettle]
  exact ReferenceBook.mem_insertOrder.mpr (.inl rfl)

/-- How the match loop of an iceberg ends: with the whole peak traded, where the order rests if it
has a reserve, or with orders left to trade but none to trade with. -/
private theorem iceberg_cases (h : Swept b a₀ t r) (ht : a₀.type = .iceberg) (hd : t.book.Distinct)
    (hnew : ∀ x ∈ b.allOrders, x.id ≠ a₀.id) :
    (volume r.trades = a₀.quantity.toNat ∧
      if a₀.reserveQty > 0 then ∃ x, t.book.findOrder a₀.id = some x ∧
        x.unfilled = a₀.reserveQty.toNat
      else t.book.findOrder a₀.id = none) ∨
    volume r.trades < a₀.quantity.toNat ∧
      (∀ x ∈ t.book.orders a₀.side.opposite, Config.trades a₀ x.price = false) ∧
      ∃ x, t.book.findOrder a₀.id = some x ∧
        volume r.trades + x.unfilled = a₀.unfilled := by
  cases h with
  | @filled s a r hsweep hq =>
    left
    have hspent := hsweep.spent
    have hquantity : (markFilled a).quantity = 0 := (markFilled_quantity a).trans hq
    have hreserve : a.reserveQty = a₀.reserveQty := by rw [hsweep.same]
    have hreserve' : (markFilled a).reserveQty = a₀.reserveQty :=
      (markFilled_reserveQty a).trans hreserve
    have hid : (markFilled a).id = a₀.id :=
      (markFilled_descends a).id_eq.trans hsweep.id_eq
    have htype : (markFilled a).type = .iceberg :=
      ((markFilled_descends a).type_eq.trans hsweep.type_eq).trans ht
    rw [hq, UInt64.toNat_zero, Nat.add_zero] at hspent
    refine ⟨hspent, ?_⟩
    by_cases hr : a₀.reserveQty > 0
    · rw [if_pos hr, ← hid]
      refine ⟨markFilled a, find_settle htype hd (.inr (hreserve' ▸ hr)), ?_⟩
      rw [Order.unfilled, hquantity, hreserve', UInt64.toNat_zero, Nat.zero_add]
    · have hnone : a.reserveQty = 0 := by
        rw [hreserve]
        simpa using hr
      rw [if_neg hr, Config.settle_markFilled hq fun _ ↦ hnone]
      exact hsweep.absent hnew
  | @blocked s a r hsweep hq _ hnone =>
    right
    have hspent := hsweep.spent
    have hpos := UInt64.pos_iff_toNat_pos.mp hq
    have hsettle := atPrice_settle s a
    rw [hsweep.side_eq] at hsettle
    refine ⟨by omega, fun x hx ↦ ?_, a, ?_, ?_⟩
    · obtain ⟨hx, hside⟩ := ReferenceBook.mem_orders.mp hx
      have hat := ReferenceBook.mem_atPrice.mpr ⟨hx, hside, rfl⟩
      rw [hsettle] at hat
      have hold := ReferenceBook.mem_atPrice.mp hat
      exact hnone x (ReferenceBook.mem_orders.mpr ⟨hold.1, hside⟩)
    · rw [← hsweep.id_eq]
      exact find_settle (hsweep.type_eq.trans ht) hd (.inl hq)
    · have hreserve : a.reserveQty = a₀.reserveQty := by rw [hsweep.same]
      rw [Order.unfilled, Order.unfilled, hreserve]
      omega
  | exhausted _ _ hm => exact absurd (ht.symm.trans hm) (by decide)

/-- Either all of the iceberg has traded, or the rest comes to rest on an uncrossed book that it
cannot trade with: this is so exactly where it has no reserve, where the peak is larger than the
offer, or where the peak is the offer and taking it empties the worst level. -/
private theorem iceberg_iff (h : Swept b a₀ t r) (ht : a₀.type = .iceberg) (hd : t.book.Distinct)
    (hnew : ∀ x ∈ b.allOrders, x.id ≠ a₀.id) (hb : Uncrossed b)
    (hclears : offered Order.worth a₀.side.opposite a₀.crosses b.allOrders = a₀.quantity.toNat →
      (ClearsWorst a₀.side.opposite a₀.crosses (t.book.atPrice a₀.side.opposite) ↔
        ClearsWorst a₀.side.opposite a₀.crosses (b.atPrice a₀.side.opposite))) :
    (volume r.trades = a₀.unfilled ∧ t.book.findOrder a₀.id = none ∨
      ∃ x, t.book.findOrder a₀.id = some x ∧ volume r.trades + x.unfilled = a₀.unfilled ∧
        (∀ y ∈ t.book.orders a₀.side.opposite, a₀.crosses y.price = false) ∧
          Uncrossed t.book) ↔
    a₀.reserveQty = 0 ∨
      offered Order.worth a₀.side.opposite a₀.crosses b.allOrders < a₀.quantity.toNat ∨
      offered Order.worth a₀.side.opposite a₀.crosses b.allOrders = a₀.quantity.toNat ∧
        ClearsWorst a₀.side.opposite a₀.crosses (b.atPrice a₀.side.opposite) := by
  have htrades : Config.trades a₀ = a₀.crosses := by
    funext p
    rw [Config.trades, ht]
    rfl
  have hvolume := h.volume_eq
  have htaken := h.taken fun _ hp ↦ hp
  have hunfilled : a₀.unfilled = a₀.quantity.toNat + a₀.reserveQty.toNat := rfl
  rcases h.iceberg_cases ht hd hnew with ⟨hall, hrest⟩ | ⟨hsome, hnone, x, hfind, hx⟩
  · by_cases hr : a₀.reserveQty > 0
    · rw [if_pos hr] at hrest
      obtain ⟨x, hfind, hx⟩ := hrest
      rw [htrades] at hvolume htaken
      constructor
      · rintro (⟨-, hnone⟩ | ⟨-, -, -, hnone, -⟩)
        · exact absurd (hnone.symm.trans hfind) (by simp)
        · have hzero := offered_eq_zero (μ := Order.worth) hnone
          have heq : offered Order.worth a₀.side.opposite a₀.crosses b.allOrders =
              a₀.quantity.toNat := by omega
          exact .inr (.inr ⟨heq, (hclears heq).mp ((clearsWorst_iff_none hd hzero).mpr hnone)⟩)
      · rintro (h0 | hlt | ⟨heq, hcl⟩)
        · rw [h0] at hr
          exact absurd hr (by decide)
        · omega
        · have hzero : offered Order.worth a₀.side.opposite a₀.crosses t.book.allOrders = 0 := by
            omega
          have hnone := (clearsWorst_iff_none hd hzero).mp ((hclears heq).mpr hcl)
          exact .inr ⟨x, hfind, by omega, hnone, h.uncrossed hb hnone⟩
    · have h0 : a₀.reserveQty = 0 := by simpa using hr
      rw [if_neg hr] at hrest
      refine iff_of_true (.inl ⟨?_, hrest⟩) (.inl h0)
      rw [hall, hunfilled, h0, UInt64.toNat_zero, Nat.add_zero]
  · rw [htrades] at hvolume hnone
    exact iff_of_true (.inr ⟨x, hfind, hx, hnone, h.uncrossed hb hnone⟩) (.inr (.inl (by omega)))

end Swept

/-! ### The engine -/

/-- An iceberg has no reserve where its peak is all of it. -/
private theorem splitIceberg_reserve {o : Order} (h : o.peakQty ≤ o.quantity) :
    (splitIceberg o).reserveQty = 0 ↔ o.peakQty = o.quantity := by
  have hsub := UInt64.toNat_sub_of_le _ _ h
  rw [UInt64.le_iff_toNat_le] at h
  rw [UInt64.eq_zero_iff_toNat, splitIceberg, hsub, ← UInt64.toNat_inj]
  omega

/-- The trades of one aggressor are all of its trades. -/
private theorem traded_eq_volume {ts : List Trade} {id : OrderId}
    (h : ∀ t ∈ ts, t.aggressorId = id) : traded ts id = volume ts := by
  rw [traded, List.sumOver, List.filter_eq_self.mpr]
  · rfl
  · intro t ht
    rw [Trade.involves, h t ht, beq_self_eq_true, Bool.true_or]

/-- A book is not crossed exactly where the reference book is not. -/
theorem Represents.notCrossed_iff {L : Type} [PriceLevelOps L] [LawfulPriceLevel L]
    {b : OrderBook L} {r : ReferenceBook} (h : Represents b r) :
    b.NotCrossed ↔ Uncrossed r := by
  rw [OrderBook.notCrossed_iff]
  constructor
  · intro hlevels o ho x hx hbuy hsell
    have hprice {y : Order} (hy : y ∈ r.allOrders) : y.price ∈ b.levels y.side :=
      h.mem_prices.mp ⟨y.id, y, (h.find y.id).trans (h.distinct.findOrder_of_mem hy), rfl, rfl⟩
    exact hlevels o.price (hbuy ▸ hprice ho) x.price (hsell ▸ hprice hx)
  · intro hu p hp q hq
    obtain ⟨id, o, ho, hbuy, rfl⟩ := h.mem_prices.mpr hp
    obtain ⟨id', x, hx, hsell, rfl⟩ := h.mem_prices.mpr hq
    rw [h.find] at ho hx
    exact hu o (ReferenceBook.mem_of_findOrder ho).1 x (ReferenceBook.mem_of_findOrder hx).1
      hbuy hsell

section Engine

variable {es : List OrderEvent} {s : Engine (OrderBook PriceLevel)} {rs : List MatchResult}
  {o : Order}

/-- What the opposite orders at acceptable prices can trade passively. -/
def OrderBook.tradable (b : OrderBook PriceLevel) (o : Order) : Nat :=
  offered Order.worth o.side.opposite o.crosses b.storedOrders

/-- The whole quantity has traded and the order is not in the book, or the rest of it is, no
opposite order has an acceptable price, and the book is uncrossed. -/
def Exhausts (s : Engine (OrderBook PriceLevel)) (o : Order) (r : MatchResult) : Prop :=
  traded r.trades o.id = o.quantity.toNat ∧ s.book.findOrder o.id = none ∨
    ∃ x, s.book.findOrder o.id = some x ∧ traded r.trades o.id + x.unfilled = o.quantity.toNat ∧
      (∀ y ∈ s.book.storedOrders, y.side = o.side.opposite → o.crosses y.price = false) ∧
        s.book.NotCrossed

/-- On an uncrossed book without pending stops a new iceberg exhausts the opposite orders exactly
where its peak is all of it, where its peak is larger than what they can trade, or where its peak
is exactly that and trading it empties the worst acceptable level. -/
theorem iceberg_exhausts_iff (h : Run (fun _ ↦ NoModify) es s rs)
    (hf : Fresh (es ++ [.newOrder ⟨o⟩])) (hu : s.book.NotCrossed) (hp : s.pendingStops = [])
    (ht : o.type = .iceberg) (hle : o.peakQty ≤ o.quantity) :
    ∃ s' r, Submits s (.newOrder ⟨o⟩) s' r ∧ (Exhausts s' o r ↔
      o.peakQty = o.quantity ∨ s.book.tradable o < o.peakQty.toNat ∨
        s.book.tradable o = o.peakQty.toNat ∧
          ClearsWorst o.side.opposite o.crosses (s.book.ordersAt o.side.opposite)) := by
  obtain ⟨t, hrun, href⟩ := h.refines (E := NoModify)
    (fun _ hm ↦ .of_keepsPlace (hm.keepsPlace _)) (fun hm ↦ hm) hf.left
  obtain ⟨s', t', r, hs, hs', href'⟩ := href.submits hf trivial
  have hstops : t.pendingStops = [] := by
    rw [href.agree]
    exact hp
  have hrep := href.tracks.represents
  have hrep' := href'.tracks.represents
  have hnew := (hrun.absent hf.left (hf.not_mem List.mem_cons_self)).1
  let a := splitIceberg o.accepted
  have hswept := hrun.swept hf hs' (start_iceberg ht) hstops
  change Swept t.book a t' r at hswept
  have htrades : Config.trades a = o.crosses := by
    funext p
    rw [Config.trades, show a.type = .iceberg from ht]
    rfl
  have htradable : s.book.tradable o =
      offered Order.worth o.side.opposite o.crosses t.book.allOrders :=
    offered_perm hrep.storedOrders_perm
  have hat : s.book.ordersAt o.side.opposite = t.book.atPrice o.side.opposite := by
    funext p
    exact hrep.ordersAt_eq _ p
  have hwhole : a.unfilled = o.quantity.toNat := splitIceberg_unfilled (o := o.accepted) hle
  have hreserve : a.reserveQty = 0 ↔ o.peakQty = o.quantity :=
    splitIceberg_reserve (o := o.accepted) hle
  have hclears := hrun.clears hf hs' (start_iceberg ht) hstops
  have hiff := hswept.iceberg_iff ht hrep'.distinct hnew (hrep.notCrossed_iff.mp hu) fun hoffer ↦ by
    have hcl := hclears (htrades.symm ▸ hoffer)
    rwa [htrades] at hcl
  refine ⟨s', r, hs, ?_⟩
  rw [htradable, hat, ← hreserve]
  refine Iff.trans ?_ hiff
  have hnone : (∀ y ∈ s'.book.storedOrders, y.side = o.side.opposite → o.crosses y.price = false) ↔
      ∀ y ∈ t'.book.orders o.side.opposite, o.crosses y.price = false := by
    simp only [ReferenceBook.mem_orders, hrep'.mem_storedOrders, and_imp]
  have htraded : traded r.trades o.id = volume r.trades := traded_eq_volume hswept.mine
  rw [Exhausts, htraded, hrep'.find, hnone, hrep'.notCrossed_iff, hwhole]
  exact Iff.rfl

/-- One ask of 5. -/
private def deepAsk : List OrderEvent :=
  [.newOrder ⟨{ id := 1, side := .sell, price := 100, quantity := 5 }⟩]

/-- An iceberg with a peak larger than the ask. -/
private def widePeak : Order :=
  { id := 2, type := .iceberg, price := 100, quantity := 8, peakQty := 6 }

/-- An iceberg with a peak smaller than the ask. -/
private def narrowPeak : Order :=
  { id := 2, type := .iceberg, price := 100, quantity := 8, peakQty := 3 }

/-- The result of an iceberg that trades its peak with the ask. -/
private def onePeak : MatchResult where
  trades := [{ aggressorId := 2, passiveId := 1, price := 100, quantity := 3
               aggressorSide := .buy }]

/-- The result of an order that rests. -/
private def noTrade : MatchResult := {}

theorem iceberg_exhausts_iff_widePeak : ∃ (s s' : Engine (OrderBook PriceLevel))
    (r : MatchResult), Submits s (.newOrder ⟨widePeak⟩) s' r ∧ Exhausts s' widePeak r := by
  obtain ⟨s, rs, hrun, hu, hp, hless⟩ := Run.exists_of_play (B := OrderBook PriceLevel)
    (fun _ ↦ NoModify) 50 deepAsk
    (fun s _ ↦ s.book.NotCrossed ∧ s.pendingStops = [] ∧ s.book.tradable widePeak = 5)
    (by decide +kernel)
  obtain ⟨s', r, hs, hiff⟩ := iceberg_exhausts_iff hrun (o := widePeak) (by decide) hu hp rfl
    (by decide)
  exact ⟨s, s', r, hs, hiff.mpr (.inr (.inl (by rw [hless]; decide)))⟩

/-- The iceberg rests after its first peak, at a price at which the ask is still there. -/
theorem iceberg_rests_after_peak : ¬∀ (es : List OrderEvent) (s s' : Engine (OrderBook PriceLevel))
    (rs : List MatchResult) (o : Order) (r : MatchResult), Run (fun _ ↦ NoModify) es s rs →
      Fresh (es ++ [.newOrder ⟨o⟩]) → s.book.NotCrossed → s.pendingStops = [] →
        o.type = .iceberg → 0 < o.peakQty → o.peakQty ≤ o.quantity →
          Submits s (.newOrder ⟨o⟩) s' r → Exhausts s' o r := by
  intro hall
  obtain ⟨s, rs, hrun, hu, hp⟩ := Run.exists_of_play (B := OrderBook PriceLevel)
    (fun _ ↦ NoModify) 50 deepAsk (fun s _ ↦ s.book.NotCrossed ∧ s.pendingStops = [])
    (by decide +kernel)
  obtain ⟨s', rs', hrun', rfl, y, hy, hside, hprice⟩ :=
    Run.exists_of_play (B := OrderBook PriceLevel) (fun _ ↦ NoModify) 50
      (deepAsk ++ [.newOrder ⟨narrowPeak⟩])
      (fun s rs ↦ rs = [noTrade] ++ [onePeak] ∧
        ∃ y ∈ s.book.findOrder 1, y.side = .sell ∧ y.price = 100) (by decide +kernel)
  obtain ⟨s₁, hrun₁, -, hs⟩ := hrun'.last
  obtain ⟨rfl, -⟩ := hrun.unique hrun₁
  rcases hall _ _ _ _ narrowPeak _ hrun (by decide) hu hp rfl (by decide) (by decide) hs with
    ⟨hsum, -⟩ | ⟨-, -, -, hnone, -⟩
  · exact absurd hsum (by decide)
  · have hcross := hnone y (OrderBook.mem_storedOrders_of_find hy) hside
    rw [hprice] at hcross
    exact absurd hcross (by decide)

end Engine

end LobEngine
