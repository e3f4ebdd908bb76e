import LobEngine.Gateway.ExchangeManager
import LobEngine.Refinement.Runs
import LobEngine.Refinement.Volumes

/-!
# The volumes of the levels

A fill that completes its passive order leaves the volume of the level alone, and the order is
cancelled with nothing left to take off. The volume stays too large until the level goes. So the
volumes agree with the orders after every event as long as no incoming order stops inside a level
of which it has filled an order.
-/

namespace LobEngine

open PriceLevelOps BookOps Engine

namespace OrderBook

variable {L : Type}

/-- The quantity that rests at a price. -/
def resting [PriceLevelOps L] (b : OrderBook L) (side : Side) (p : Price) : Nat :=
  ((b.ordersAt side p).map fun o ↦ o.quantity.toNat).sum

/-- The volume of every level is the quantity of the orders live in it. -/
def VolumesAgree (b : OrderBook PriceLevel) : Prop :=
  ∀ side p l, b.getLevel side p = some l → l.totalVolume.toNat = b.resting side p

end OrderBook

/-! ### The condition -/

/-- A limit or market order without a peak, a cancel or a modify. -/
def LimitOrMarket : OrderEvent → Prop
  | .newOrder e => (e.order.type = .limit ∨ e.order.type = .market) ∧ e.order.peakQty = 0 ∧
      e.order.quantity > 0
  | .cancelOrder _ | .modifyOrder _ => True
  | .replaceOrder _ => False

instance : DecidablePred LimitOrMarket
  | .newOrder e => inferInstanceAs (Decidable ((e.order.type = .limit ∨ e.order.type = .market) ∧
      e.order.peakQty = 0 ∧ e.order.quantity > 0))
  | .cancelOrder _ | .modifyOrder _ => .isTrue trivial
  | .replaceOrder _ => .isFalse fun h ↦ h

/-- The match loop of `a` trades with `x` when it gets there. -/
def Order.meets (a x : Order) : Bool := x.side == a.side.opposite && Config.trades a x.price

/-- The order is on a side, at a better price. -/
def Order.betterThan (side : Side) (p : Price) (o : Order) : Bool :=
  o.side == side && side.cmp o.price p == .lt

/-- The order does not stop inside a level once it has filled the first order there: for every
level that it may reach, the quantity ends within the first order or reaches the next level. -/
def WholeLevels (os : List Order) (ids : Side → Price → List OrderId) (a : Order) : Prop :=
  ∀ x ∈ os, a.meets x = true → (ids x.side x.price).head? = some x.id →
    a.quantity.toNat < quantityOf (Order.betterThan x.side x.price) os + x.quantity.toNat ∨
      quantityOf (Order.betterThan x.side x.price) os +
        quantityOf (Order.restsAt x.side x.price) os ≤ a.quantity.toNat

/-- What a limit order leaves for the book does not overflow the volume of its level. -/
def RoomToRest (os : List Order) (a : Order) : Prop :=
  a.type = .limit → a.quantity.toNat - quantityOf a.meets os +
    quantityOf (Order.restsAt a.side a.price) os < 2 ^ 64

/-- The condition on a new order, in the state before the event. -/
def TakesWholeLevels (s : Engine (OrderBook PriceLevel)) : OrderEvent → Prop
  | .newOrder e => WholeLevels s.book.storedOrders s.book.orderIds e.order ∧
      RoomToRest s.book.storedOrders e.order
  | .cancelOrder _ | .modifyOrder _ | .replaceOrder _ => True

instance (os : List Order) (ids : Side → Price → List OrderId) (a : Order) :
    Decidable (WholeLevels os ids a) := inferInstanceAs (Decidable (∀ x ∈ os, _ → _ → _))

instance (os : List Order) (a : Order) : Decidable (RoomToRest os a) :=
  inferInstanceAs (Decidable (_ → _))

instance (s : Engine (OrderBook PriceLevel)) (e : OrderEvent) : Decidable (TakesWholeLevels s e) :=
  match e with
  | .newOrder _ => inferInstanceAs (Decidable (_ ∧ _))
  | .cancelOrder _ | .modifyOrder _ | .replaceOrder _ => .isTrue trivial

/-! ### The book read as the reference book -/

namespace Represents

variable {L : Type} [PriceLevelOps L] [LawfulPriceLevel L] {b : OrderBook L} {r : ReferenceBook}

private theorem resting_eq (h : Represents b r) (side : Side) (p : Price) :
    b.resting side p = quantityOf (Order.restsAt side p) r.allOrders := by
  rw [OrderBook.resting, h.ordersAt_eq, quantityOf_restsAt]

end Represents

theorem WholeLevels.perm {os os' : List Order} {ids : Side → Price → List OrderId} {a : Order}
    (h : WholeLevels os ids a) (hp : List.Perm os os') : WholeLevels os' ids a := by
  intro x hx
  rw [← quantityOf_perm hp, ← quantityOf_perm hp]
  exact h x (hp.mem_iff.mpr hx)

theorem RoomToRest.perm {os os' : List Order} {a : Order} (h : RoomToRest os a)
    (hp : List.Perm os os') : RoomToRest os' a := by
  intro ht
  rw [← quantityOf_perm hp, ← quantityOf_perm hp]
  exact h ht

/-- Without an excess the volumes agree. -/
theorem VolumesBut.agree {b : OrderBook PriceLevel} {r : ReferenceBook} {side : Side} {p : Price}
    (h : VolumesBut side p 0 b r) (hr : Represents b r) : b.VolumesAgree := by
  intro side' p' l hl
  rw [← OrderBook.volume_of_level hl, h side' p', ite_self, Nat.add_zero, hr.resting_eq]

/-! ### One match loop -/

/-- Orders that rest without a peak. -/
def NoPeaks (r : ReferenceBook) : Prop := ∀ o ∈ r.allOrders, o.peakQty = 0 ∧ o.quantity ≠ 0

/-- The level at a price is the first, and the match loop of `a` will consume it. -/
structure Consumes (a : Order) (p : Price) (r : ReferenceBook) : Prop where
  trades : Config.trades a p = true
  covers : quantityOf (Order.restsAt a.side.opposite p) r.allOrders ≤ a.quantity.toNat
  first : ∀ o ∈ r.allOrders, o.side = a.side.opposite →
    (a.side.opposite.cmp p o.price).isLE = true

/-- What holds during the match loop of `a`: volumes exceed the quantities at most in the level
that it is consuming. -/
structure Working (a : Order) (b : OrderBook PriceLevel) (r : ReferenceBook) : Prop where
  type : a.type = .limit ∨ a.type = .market
  peak : a.peakQty = 0
  noPeaks : NoPeaks r
  volumes : ∃ p x, VolumesBut a.side.opposite p x b r ∧ (x ≠ 0 → Consumes a p r)
  whole : WholeLevels r.allOrders b.orderIds a
  room : RoomToRest r.allOrders a

private theorem meets_ofPlace (a : Order) : OfPlace a.meets := by
  intro o x hs hp
  rw [Order.meets, Order.meets, hs, hp]

private theorem betterThan_ofPlace (side : Side) (p : Price) :
    OfPlace (Order.betterThan side p) := by
  intro o x hs hp
  rw [Order.betterThan, Order.betterThan, hs, hp]

private theorem toNat_pos_of_ne {q : Quantity} (h : q ≠ 0) : 0 < q.toNat := by
  rw [ne_eq, UInt64.eq_zero_iff_toNat] at h
  omega

/-- What a fill leaves of an order without a peak. -/
private theorem leftAfter_of_peak {o x : Order} {q : Quantity} (hpeak : o.peakQty = 0)
    (h : x ∈ (o.leftAfter q).toList) :
    x = { o with quantity := o.quantity - q } ∧ o.quantity - q ≠ 0 := by
  rw [Option.mem_toList, Order.leftAfter] at h
  split at h
  · rw [if_neg (by simp [Order.isIceberg, hpeak])] at h
    exact absurd h (by simp)
  · next h0 => exact ⟨(Option.some.inj h).symm, h0⟩

theorem NoPeaks.filled {r r' : ReferenceBook} {o : Order} {q : Quantity} (h : NoPeaks r)
    (ho : o ∈ r.allOrders) (hf : r.Filled o q r') : NoPeaks r' := by
  intro x hx
  rcases List.mem_append.mp (hf.perm.mem_iff.mp hx) with hx | hx
  · obtain ⟨rfl, hne⟩ := leftAfter_of_peak (h o ho).1 hx
    exact ⟨(h o ho).1, hne⟩
  · exact h x (List.mem_filter.mp hx).1

section Fill

variable {a o : Order} {b b' : OrderBook PriceLevel} {r r' : ReferenceBook} {rest : List Order}
  {q : Quantity}

/-- No order has a better price than the first. -/
private theorem quantityOf_betterThan_first (ho : r.orders a.side.opposite = o :: rest) :
    quantityOf (Order.betterThan o.side o.price) r.allOrders = 0 := by
  have hside := (ReferenceBook.mem_of_head ho).2
  refine List.sumOver_eq_zero fun y hy ↦ ?_
  rw [Order.betterThan, Bool.and_eq_false_iff, beq_eq_false_iff_ne, beq_eq_false_iff_ne]
  by_cases hs : y.side = o.side
  · right
    intro hlt
    have hle := ReferenceBook.best_le ho (ReferenceBook.mem_orders.mpr ⟨hy, hs.trans hside⟩)
    rw [hside] at hlt
    rw [Std.OrientedCmp.gt_of_lt hlt] at hle
    exact absurd hle (by decide)
  · exact .inl hs

/-- An order at another price of the side of the first one is behind it. -/
private theorem betterThan_of_first (ho : r.orders a.side.opposite = o :: rest) {x : Order}
    (hx : x ∈ r.allOrders) (hs : x.side = a.side.opposite)
    (hne : ¬(o.side = x.side ∧ o.price = x.price)) : o.betterThan x.side x.price = true := by
  have hside := (ReferenceBook.mem_of_head ho).2
  have hle := ReferenceBook.best_le ho (ReferenceBook.mem_orders.mpr ⟨hx, hs⟩)
  rw [Order.betterThan, Bool.and_eq_true, beq_iff_eq, beq_iff_eq, hs]
  refine ⟨hside, ?_⟩
  cases hc : a.side.opposite.cmp o.price x.price with
  | lt => rfl
  | eq => exact absurd ⟨hside.trans hs.symm, Std.LawfulEqCmp.compare_eq_iff_eq.mp hc⟩ hne
  | gt =>
    rw [hc] at hle
    exact absurd hle (by decide)

/-- A fill keeps the condition on the levels. -/
theorem WholeLevels.fill (h : WholeLevels r.allOrders b.orderIds a) (hr : Represents b r)
    (hr' : Represents b' r') (hn : NoPeaks r) (ho : r.orders a.side.opposite = o :: rest)
    (hm : a.meets o = true) (hq : q = min a.quantity o.quantity) (hf : r.Filled o q r') :
    WholeLevels r'.allOrders b'.orderIds { a with quantity := a.quantity - q } := by
  have hmem := (ReferenceBook.mem_of_head ho).1
  have hmin := UInt64.toNat_min a.quantity o.quantity
  have hsub := UInt64.toNat_sub_min a.quantity o.quantity
  have hqo : q ≤ o.quantity := hq ▸ Std.min_le_right
  have hl := hr.distinct.losesQuantity_filled hmem (hn o hmem).1 hqo hf
  rw [← hq] at hmin hsub
  intro x hx hmx hhead
  have hpos := toNat_pos_of_ne ((hn.filled hmem hf) x hx).2
  simp only [hsub]
  by_cases hsmall : a.quantity.toNat ≤ o.quantity.toNat
  · omega
  -- the passive order is filled completely
  have hx' : x ∈ r.allOrders := by
    rcases List.mem_append.mp (hf.perm.mem_iff.mp hx) with hx | hx
    · obtain ⟨-, hne⟩ := leftAfter_of_peak (hn o hmem).1 hx
      have hzero := UInt64.toNat_sub_of_le _ _ hqo
      rw [ne_eq, UInt64.eq_zero_iff_toNat] at hne
      omega
    · exact (List.mem_filter.mp hx).1
  have hbetter := hl _ (betterThan_ofPlace x.side x.price)
  have hat := hl _ (Order.restsAt_ofPlace x.side x.price)
  by_cases hplace : o.side = x.side ∧ o.price = x.price
  · right
    have hids : (b.orderIds o.side o.price).head? = some o.id := by
      have hhead := ReferenceBook.atPrice_head ho
      rw [hr.orderIds_eq, (ReferenceBook.mem_of_head ho).2, hhead]
      rfl
    have hfirst := quantityOf_betterThan_first ho
    have hwhole := h o hmem hm hids
    rw [if_pos (Order.restsAt_iff.mpr hplace)] at hat
    rw [hplace.1, hplace.2] at hfirst hwhole
    omega
  · have hids : b'.orderIds x.side x.price = b.orderIds x.side x.price := by
      rw [hr'.orderIds_eq, hr.orderIds_eq, hf.elsewhere hplace]
    have hs : x.side = a.side.opposite := by
      rw [Order.meets, Bool.and_eq_true, beq_iff_eq] at hmx
      exact hmx.1
    have hwhole := h x hx' hmx (hids ▸ hhead)
    rw [if_pos (betterThan_of_first ho hx' hs hplace)] at hbetter
    rw [if_neg fun hr ↦ hplace (Order.restsAt_iff.mp hr)] at hat
    omega

/-- A fill keeps the condition on the rest. -/
theorem RoomToRest.fill (h : RoomToRest r.allOrders a) (hm : a.meets o = true)
    (hl : LosesQuantity r r' o q) (hq : q ≤ a.quantity) :
    RoomToRest r'.allOrders { a with quantity := a.quantity - q } := by
  intro ht
  have hroom := h ht
  have hsub := UInt64.toNat_sub_of_le _ _ hq
  have hmeets := hl _ (meets_ofPlace a)
  have hat := hl _ (Order.restsAt_ofPlace a.side a.price)
  have hne : ¬o.restsAt a.side a.price = true := by
    intro hr
    rw [Order.meets, Bool.and_eq_true, beq_iff_eq] at hm
    exact Side.opposite_ne a.side (hm.1.symm.trans (Order.restsAt_iff.mp hr).1)
  rw [if_pos hm] at hmeets
  rw [if_neg hne] at hat
  rw [UInt64.le_iff_toNat_le] at hq
  change (a.quantity - q).toNat - quantityOf a.meets r'.allOrders +
    quantityOf (Order.restsAt a.side a.price) r'.allOrders < 2 ^ 64
  omega

end Fill

namespace Working

variable {a : Order} {b : OrderBook PriceLevel} {r : ReferenceBook}

/-- When the loop is left there is no excess. -/
theorem exact (h : Working a b r) (hr : Represents b r) (hdone : a.quantity = 0 ∨
    ∀ o ∈ r.allOrders, o.side = a.side.opposite → Config.trades a o.price = false) :
    VolumesBut a.side.opposite 0 0 b r := by
  obtain ⟨p, x, hv, hx⟩ := h.volumes
  by_cases hzero : x = 0
  · subst hzero
    exact hv.move _ _
  · exfalso
    have hc := hx hzero
    obtain ⟨o, ho⟩ := hv.exists_mem hr hzero
    obtain ⟨hmem, hs, rfl⟩ := ReferenceBook.mem_atPrice.mp ho
    rcases hdone with h0 | hnone
    · have hle := hr.distinct.le_quantityOf hmem (Order.restsAt_iff.mpr ⟨hs, rfl⟩)
      have hpos := toNat_pos_of_ne (h.noPeaks o hmem).2
      have hcov := hc.covers
      rw [h0, UInt64.toNat_zero] at hcov
      omega
    · exact absurd hc.trades (by simp [hnone o hmem hs])

/-- What the loop leaves of a limit order fits into its level. -/
theorem fits (h : Working a b r) (hr : Represents b r) (ha : a.type = .limit)
    (hdone : ∀ o ∈ r.allOrders, o.side = a.side.opposite → Config.trades a o.price = false) :
    b.volume a.side a.price + a.quantity.toNat < 2 ^ 64 := by
  have hv := h.exact hr (.inr hdone) a.side a.price
  have hmeets : quantityOf a.meets r.allOrders = 0 := List.sumOver_eq_zero fun o ho ↦ by
    rw [Order.meets, Bool.and_eq_false_iff, beq_eq_false_iff_ne]
    by_cases hs : o.side = a.side.opposite
    · exact .inr (hdone o ho hs)
    · exact .inl hs
  have hroom := h.room ha
  rw [hmeets] at hroom
  rw [ite_self] at hv
  omega

/-- The condition does not depend on the dead entries of the queues. -/
theorem drain (h : Working a b r) (hr : Represents b r) {b' : OrderBook PriceLevel}
    (hr' : Represents b' r) (hv : ∀ side p, b'.volume side p = b.volume side p) :
    Working a b' r := by
  have hids : b'.orderIds = b.orderIds := by
    funext side p
    rw [hr'.orderIds_eq, hr.orderIds_eq]
  obtain ⟨p, x, hvol, hx⟩ := h.volumes
  exact ⟨h.type, h.peak, h.noPeaks, ⟨p, x, hvol.congr hv, hx⟩, hids ▸ h.whole, h.room⟩

/-- One fill of the first order of the opposite side. -/
theorem fill (h : Working a b r) (hr : Represents b r) {o : Order} {rest : List Order}
    (ho : r.orders a.side.opposite = o :: rest) (ht : Config.trades a o.price = true) {q : Quantity}
    (hq : q = min a.quantity o.quantity) {b' : OrderBook PriceLevel} {r' : ReferenceBook}
    (hr' : Represents b' r') (hb : settlePassive b o.id o q = .ok b')
    (hs : settlePassive r o.id o q = .ok r') :
    Working { a with quantity := a.quantity - q } b' r' := by
  obtain ⟨hmem, hside⟩ := ReferenceBook.mem_of_head ho
  have hpeak := (h.noPeaks o hmem).1
  have hf := hr.distinct.filled hmem hs
  have hmin := UInt64.toNat_min a.quantity o.quantity
  have hsub := UInt64.toNat_sub_min a.quantity o.quantity
  rw [← hq] at hmin hsub
  have hqo : q ≤ o.quantity := hq ▸ Std.min_le_right
  have hqa : q ≤ a.quantity := hq ▸ Std.min_le_left
  have hl := hr.distinct.losesQuantity_filled hmem hpeak hqo hf
  have hm : a.meets o = true := by rw [Order.meets, hside, beq_self_eq_true, ht]; rfl
  have hfirst {x : Order} (hx : x ∈ r.allOrders) (hxs : x.side = a.side.opposite) :
      (a.side.opposite.cmp o.price x.price).isLE = true :=
    ReferenceBook.best_le ho (ReferenceBook.mem_orders.mpr ⟨hx, hxs⟩)
  -- an excess is at the price of the first order
  obtain ⟨x, hv, hx⟩ : ∃ x, VolumesBut o.side o.price x b r ∧ (x ≠ 0 → Consumes a o.price r) := by
    obtain ⟨p, x, hv, hx⟩ := h.volumes
    by_cases hzero : x = 0
    · subst hzero
      exact ⟨0, hv.move _ _, fun hne ↦ absurd rfl hne⟩
    · have hc := hx hzero
      obtain ⟨y, hy⟩ := hv.exists_mem hr hzero
      obtain ⟨hmem', hys, rfl⟩ := ReferenceBook.mem_atPrice.mp hy
      have heq : y.price = o.price := Std.LawfulEqCmp.compare_eq_iff_eq.mp
        (Std.OrientedCmp.isLE_antisymm (hc.first o hmem hside) (hfirst hmem' hys))
      exact ⟨x, hside ▸ heq ▸ hv, fun _ ↦ heq ▸ hc⟩
  obtain ⟨x', hkeep, hv'⟩ := hv.settlePassive hr (hr.find o.id ▸ hr.distinct.findOrder_of_mem hmem)
    hpeak hqo hb hs
  refine ⟨h.type, h.peak, h.noPeaks.filled hmem hf, ⟨o.price, x', hside ▸ hv', fun hx' ↦ ?_⟩,
    h.whole.fill hr hr' h.noPeaks ho hm hq hf, h.room.fill hm hl hqa⟩
  have hcovers : quantityOf (Order.restsAt a.side.opposite o.price) r.allOrders ≤
      a.quantity.toNat := by
    by_cases hfull : q = o.quantity
    · have hids : (b.orderIds o.side o.price).head? = some o.id := by
        rw [hr.orderIds_eq, hside, ReferenceBook.atPrice_head ho]
        rfl
      have hwhole := h.whole o hmem hm hids
      rw [quantityOf_betterThan_first ho, hside] at hwhole
      rw [hfull] at hmin
      omega
    · exact (hx (hkeep hfull ▸ hx')).covers
  have hat := hl _ (Order.restsAt_ofPlace a.side.opposite o.price)
  rw [if_pos (Order.restsAt_iff.mpr ⟨hside, rfl⟩)] at hat
  refine ⟨ht, ?_, fun y hy hys ↦ ?_⟩
  · change quantityOf (Order.restsAt a.side.opposite o.price) r'.allOrders ≤ (a.quantity - q).toNat
    omega
  · obtain ⟨z, hz, hyz⟩ := hf.descends hmem hy
    rw [hyz.price_eq]
    exact hfirst hz (hyz.side_eq ▸ hys)

end Working

/-! ### One event -/

private theorem evaluate_of_noStops {B : Type} [BookOps B] {c : Config B}
    (h : c.engine.pendingStops = []) : Config.evaluate c = c := by
  rw [Config.evaluate, if_pos h]

/-- The invariant of the machine. Without stops at most one match loop is active. -/
inductive Paced (U : OrderId → Prop) : Config (OrderBook PriceLevel) → Prop
  | idle {s : Engine (OrderBook PriceLevel)} {r : ReferenceBook} {res : MatchResult} :
      s.pendingStops = [] → Tracks true U s.book [] r → NoPeaks r → VolumesBut .buy 0 0 s.book r →
      Paced U ⟨s, [], res⟩
  | matching {s : Engine (OrderBook PriceLevel)} {a : Order} {r : ReferenceBook}
      {res : MatchResult} : s.pendingStops = [] → Tracks true U s.book [a] r → Working a s.book r →
      Paced U ⟨s, [.matching a], res⟩

namespace Paced

variable {U : OrderId → Prop} {s : Engine (OrderBook PriceLevel)} {r : ReferenceBook} {a : Order}
  {res : MatchResult}

/-- Leaving a match loop. -/
theorem settle (hp : s.pendingStops = []) (ht : Tracks true U s.book [a] r)
    (hw : Working a s.book r)
    (hdone : ∀ o ∈ r.allOrders, o.side = a.side.opposite → Config.trades a o.price = false) :
    Paced U ⟨Config.settle s a, [], res⟩ := by
  have hv := hw.exact ht.represents (.inr hdone)
  have hout : Paced U ⟨s, [], res⟩ := .idle hp ht.tail hw.noPeaks (hv.move _ _)
  unfold Config.settle
  split
  · next hty =>
    split
    · next hq =>
      refine .idle hp (ht.insertOrder (by rw [Order.canRest, hty])) (fun o ho ↦ ?_)
        ((hv.insertOrder hw.peak (hw.fits ht.represents hty hdone)).move _ _)
      rcases ReferenceBook.mem_insertOrder.mp ho with rfl | ho
      · exact ⟨hw.peak, UInt64.pos_iff_ne_zero.mp hq⟩
      · exact hw.noPeaks o ho
    · exact hout
  · next hty =>
    rcases hw.type with h | h <;> exact absurd (h.symm.trans hty) (by decide)
  · exact hout

/-- Every move keeps the pace. -/
theorem moves {c d : Config (OrderBook PriceLevel)} (h : Paced U c) (hm : Config.Moves c d) :
    Paced U d := by
  cases h with
  | idle => cases hm
  | @matching s a r res hp ht hw =>
    have hr := ht.represents
    cases hm with
    | filled h0 =>
      have hplain : a.type ≠ .iceberg := by
        rcases hw.type with hty | hty <;> simp [hty]
      rw [Config.settle_markFilled h0 fun hty ↦ absurd hty hplain]
      exact .idle hp ht.tail hw.noPeaks ((hw.exact hr (.inl h0)).move _ _)
    | @uncrossed _ _ _ _ p hq hb hno =>
      refine settle hp ht hw fun x hx hs ↦ ?_
      rw [hr.bestPrice] at hb
      obtain ⟨o, rest, ho, rfl⟩ := ReferenceBook.exists_best hb
      rw [Config.trades, Bool.or_eq_false_iff] at hno ⊢
      exact ⟨hno.1, Order.crosses_of_behind hno.2
        (ReferenceBook.best_le ho (ReferenceBook.mem_orders.mpr ⟨hx, hs⟩))⟩
    | exhausted hq hb hty =>
      rw [hr.bestPrice] at hb
      refine .idle hp ht.tail hw.noPeaks ((hw.exact hr (.inr fun x hx hs ↦ ?_)).move _ _)
      exact absurd ⟨hx, hs⟩ (ReferenceBook.not_mem_of_bestPrice_none hb x)
    | unopposed hq hb hty =>
      rw [hr.bestPrice] at hb
      refine settle hp ht hw fun x hx hs ↦ ?_
      exact absurd ⟨hx, hs⟩ (ReferenceBook.not_mem_of_bestPrice_none hb x)
    | @fill _ _ passive _ _ p key book book' q hq hb htr hpick hqq hset =>
      obtain ⟨rfl, rfl, ⟨rest, ho⟩, hr₁, hs₁⟩ := hr.of_pickPassive hb hpick
      obtain ⟨b₂, r₂, hset', hsetr, hr₂, hs₂⟩ := hr₁.settlePassive ho q
      obtain rfl : book' = b₂ := Except.ok.inj (hset.symm.trans hset')
      have hworking := (hw.drain hr hr₁ (OrderBook.volume_pickPassive hpick)).fill hr₁ ho htr hqq
        hr₂ hset hsetr
      have hstand : ({ a with quantity := a.quantity - q } : Order).StandsFor a :=
        standsFor_of_eq rfl rfl rfl rfl
      rw [evaluate_of_noStops]
      · exact .matching (s := { s with book := book' }.log _) hp ((ht.stand hstand).shrink hr₂
          (hs₂.trans hs₁)) hworking
      · exact hp

/-- An order is cancelled. -/
private theorem cancelled (hp : s.pendingStops = []) (ht : Tracks true U s.book [] r)
    (hn : NoPeaks r) (hv : VolumesBut .buy 0 0 s.book r) {id : OrderId} {o : Order}
    (ho : findOrder s.book id = some o) :
    Paced U ⟨{ s with book := cancelOrder s.book id }, [], res⟩ := by
  have hr := ht.represents
  obtain ⟨hmem, rfl⟩ := ReferenceBook.mem_of_findOrder ((hr.find id).symm.trans ho)
  obtain ⟨x, hx, hv'⟩ := (hv.move o.side o.price).cancelOrder hr ho (hn o hmem).1
  rw [or_self] at hx
  subst hx
  exact .idle hp (ht.shrink (hr.cancelOrder o.id) (hr.shrinks_cancelOrder o.id))
    (fun x hx ↦ hn x (ReferenceBook.mem_cancelOrder.mp hx).1) (hv'.move _ _)

/-- A quantity is reduced. -/
private theorem reduced (hp : s.pendingStops = []) (ht : Tracks true U s.book [] r)
    (hn : NoPeaks r) (hv : VolumesBut .buy 0 0 s.book r) {id : OrderId} {o : Order} {q : Quantity}
    (ho : findOrder s.book id = some o) (hq : q ≠ 0) (hlt : q < o.quantity) :
    Paced U ⟨{ s with
      book := reduceLevelVolume (updateOrderQuantity s.book id q) o.side o.price
        (o.quantity - q) }, [], res⟩ := by
  have hr := ht.represents
  obtain ⟨hmem, rfl⟩ := ReferenceBook.mem_of_findOrder ((hr.find id).symm.trans ho)
  obtain ⟨hu, hus⟩ := hr.updateOrderQuantity o.id q
  obtain ⟨hred, hreds⟩ := hu.reduceLevelVolume o.side o.price (o.quantity - q)
  have hl := hr.distinct.losesQuantity_updateOrderQuantity hmem (UInt64.le_of_lt hlt)
  refine .idle hp (ht.shrink hred (hreds.trans hus)) (fun x hx ↦ ?_)
    ((hv.congr fun side p ↦ OrderBook.volume_updateOrderQuantity _ _ _ side p).reduceLevelVolume hl)
  have hperm := hr.distinct.updateOrderQuantity_perm (hr.distinct.perm_of_mem hmem) q
  rcases List.mem_cons.mp (hperm.mem_iff.mp hx) with rfl | hx
  · exact ⟨(hn o hmem).1, hq⟩
  · exact hn x (List.mem_filter.mp hx).1

/-- Every event starts at this pace. -/
theorem start {es : List OrderEvent} {e : OrderEvent} {t : Engine ReferenceBook}
    (href : Refines es s t) (hp : s.pendingStops = []) (hn : NoPeaks t.book)
    (hv : VolumesBut .buy 0 0 s.book t.book) (hf : Fresh (es ++ [e])) (hz : LimitOrMarket e)
    (hk : KeepsPlace s e) (hw : TakesWholeLevels s e) :
    Paced (· ∈ submittedIds (es ++ [e])) (.start s e) := by
  have hout : s.outstanding [] = [] := by simp [Engine.outstanding, hp]
  have ht := href.extend e
  have hadmits := href.admits hf (.of_keepsPlace hk)
  have hstart := Config.starts s e
  generalize Config.start s e = c at hstart
  cases hstart with
  | @newOrder e =>
    have hcons := ht.cons hadmits
    rw [hout] at hcons
    have henter : Config.enter { s with sequence := s.sequence + 1 } e.order [] {} =
        ⟨{ s with sequence := s.sequence + 1 }, [.matching { e.order with status := .resting }],
          {}⟩ := by
      rcases hz.1 with h | h <;> simp only [Config.enter, h]
    rw [henter]
    have hperm := ht.represents.storedOrders_perm
    exact .matching (s := { s with sequence := s.sequence + 1 }) hp
      (hcons.stand (standsFor_of_eq rfl rfl rfl rfl))
      ⟨hz.1, hz.2.1, hn, ⟨0, 0, hv.move _ _, fun hne ↦ absurd rfl hne⟩, hw.1.perm hperm,
        hw.2.perm hperm⟩
  | stopCancelled hfind =>
    rw [hp] at hfind
    exact absurd hfind (by simp)
  | orderCancelled _ ho =>
    rw [hout] at ht
    exact cancelled (s := { s with sequence := s.sequence + 1 }) hp ht hn hv ho
  | requeued ho _ hq => exact absurd (hk _ ho) (by simp [hq])
  | reduced ho _ _ hne hlt =>
    rw [hout] at ht
    exact reduced (s := { s with sequence := s.sequence + 1 }) hp ht hn hv ho hne hlt
  | cancelRejected | unmodified =>
    rw [hout] at ht
    exact .idle (s := { s with sequence := s.sequence + 1 }) hp ht hn hv
  | replaced | replaceRejected => exact absurd hz id

end Paced

/-! ### Runs -/

/-- Between two events no stop waits, nothing has a peak and the volumes are the quantities. -/
private theorem Run.volumes_settled {es : List OrderEvent} {s : Engine (OrderBook PriceLevel)}
    {rs : List MatchResult}
    (h : Run (fun s e ↦ LimitOrMarket e ∧ KeepsPlace s e ∧ TakesWholeLevels s e) es s rs)
    (hf : Fresh es) : ∃ t, Refines es s t ∧ s.pendingStops = [] ∧ NoPeaks t.book ∧
      VolumesBut .buy 0 0 s.book t.book := by
  induction h with
  | nil =>
    refine ⟨Engine.init, .init, rfl, fun o ho ↦ absurd ho List.not_mem_nil, fun side p ↦ ?_⟩
    have hnil : (BookOps.empty : ReferenceBook).atPrice side p = [] := by cases side <;> rfl
    have hr : Represents (BookOps.empty : OrderBook PriceLevel) BookOps.empty := .empty
    change OrderBook.volume BookOps.empty side p =
      quantityOf _ (BookOps.empty : ReferenceBook).allOrders + _
    rw [hr.volume_eq_zero hnil, quantityOf_eq_zero hnil, ite_self]
  | @snoc es e s s' rs r hrun hok hs ih =>
    obtain ⟨t, href, hp, hn, hv⟩ := ih hf.left
    have hpaced := hs.preserves (fun c d hc hstep ↦ hc.moves (Config.moves_of_step hstep))
      (Paced.start href hp hn hv hf hok.1 hok.2.1 hok.2.2)
    cases hpaced with
    | idle hp' ht hn' hv' =>
      have hout : s'.outstanding [] = [] := by simp [Engine.outstanding, hp']
      exact ⟨s'.withBook _, ⟨rfl, hout ▸ ht⟩, hp', hn', hv'⟩

/-- As long as every new order takes whole levels, the volume of every level is the quantity of
the orders live in it, and the snapshot of the engine publishes what rests at each price. -/
theorem run_volumes_agree {es : List OrderEvent} {s : Engine (OrderBook PriceLevel)}
    {rs : List MatchResult}
    (h : Run (fun s e ↦ LimitOrMarket e ∧ KeepsPlace s e ∧ TakesWholeLevels s e) es s rs)
    (hf : Fresh es) : s.book.VolumesAgree ∧
      ∀ (m : ExchangeManager) (now : Timestamp) (symbol : String), m.engine? symbol = some s →
        ∃ snap, m.snapshot now symbol = some snap ∧
          (∀ entry ∈ snap.bids, entry.2.toNat = s.book.resting .buy entry.1) ∧
          ∀ entry ∈ snap.asks, entry.2.toNat = s.book.resting .sell entry.1 := by
  obtain ⟨t, href, -, -, hv⟩ := h.volumes_settled hf
  have hagree := hv.agree href.tracks.represents
  refine ⟨hagree, fun m now symbol hm ↦ ?_⟩
  have hdepth (side : Side) : ∀ entry ∈ ExchangeManager.depth s.book side,
      entry.2.toNat = s.book.resting side entry.1 := by
    intro entry hentry
    obtain ⟨⟨p, l⟩, hl, rfl⟩ := List.mem_map.mp hentry
    exact hagree side p l (Std.ExtTreeMap.mem_toList_iff_getElem?_eq_some.mp hl)
  rw [ExchangeManager.snapshot, hm]
  exact ⟨_, rfl, hdepth .buy, hdepth .sell⟩

/-- Order 3 fills part of order 1; order 5 takes the rest of level 100 and stops inside the first
order of level 101. -/
private def wholeLevels : List OrderEvent :=
  [.newOrder ⟨{ id := 1, side := .sell, price := 100, quantity := 10 }⟩,
    .newOrder ⟨{ id := 2, side := .sell, price := 100, quantity := 5 }⟩,
    .newOrder ⟨{ id := 3, type := .market, quantity := 4 }⟩,
    .modifyOrder { orderId := 2, newQuantity := 3 },
    .newOrder ⟨{ id := 4, side := .sell, price := 101, quantity := 7 }⟩,
    .newOrder ⟨{ id := 6, side := .sell, price := 101, quantity := 2 }⟩,
    .newOrder ⟨{ id := 5, price := 101, quantity := 12 }⟩,
    .newOrder ⟨{ id := 7, side := .sell, price := 101, quantity := 9 }⟩,
    .cancelOrder { orderId := 6 }]

theorem run_volumes_agree_whole_levels : ∃ (s : Engine (OrderBook PriceLevel)) (l : PriceLevel),
    s.book.getLevel .sell 101 = some l ∧ l.orderIds = [4, 7] ∧ s.book.resting .sell 101 = 13 ∧
      l.totalVolume.toNat = 13 := by
  obtain ⟨s, rs, hrun, ⟨l, hl, hids⟩, hrest⟩ := Run.exists_of_play (B := OrderBook PriceLevel)
    (fun s e ↦ LimitOrMarket e ∧ KeepsPlace s e ∧ TakesWholeLevels s e) 50 wholeLevels
    (fun s _ ↦ (∃ l ∈ s.book.getLevel .sell 101, l.orderIds = [4, 7]) ∧
      s.book.resting .sell 101 = 13) (by decide +kernel)
  exact ⟨s, l, hl, hids, hrest, hrest ▸ (run_volumes_agree hrun (by decide)).1 .sell 101 l hl⟩

/-- Order 3 fills order 1 and stops; the level still counts order 1. -/
private def stopsInside : List OrderEvent :=
  [.newOrder ⟨{ id := 1, side := .sell, price := 100, quantity := 10 }⟩,
    .newOrder ⟨{ id := 2, side := .sell, price := 100, quantity := 5 }⟩,
    .newOrder ⟨{ id := 3, price := 100, quantity := 10 }⟩]

/-- An order that stops inside a level leaves its volume too large. -/
theorem volumes_do_not_agree : ¬∀ (es : List OrderEvent) (s : Engine (OrderBook PriceLevel))
    (rs : List MatchResult), Run (fun s e ↦ LimitOrMarket e ∧ KeepsPlace s e) es s rs →
      Fresh es → s.book.VolumesAgree := by
  intro hall
  obtain ⟨s, rs, hrun, ⟨l, hl, hvol⟩, hrest⟩ := Run.exists_of_play (B := OrderBook PriceLevel)
    (fun s e ↦ LimitOrMarket e ∧ KeepsPlace s e) 50 stopsInside
    (fun s _ ↦ (∃ l ∈ s.book.getLevel .sell 100, l.totalVolume = 15) ∧
      s.book.resting .sell 100 = 5) (by decide +kernel)
  have heq := hall _ s rs hrun (by decide) .sell 100 l hl
  rw [hvol, hrest] at heq
  exact absurd heq (by decide)

end LobEngine
