import LobEngine.Properties.Live
import LobEngine.Refinement.Volumes

/-!
# The additions of `push_back`

An order that comes to rest and an iceberg that is replenished add to the volume of a level. What
a level records, what the icebergs in it hold back and what the outstanding orders may bring to it
is never increased by a step, and every addition stays within it.
-/

namespace LobEngine

open PriceLevelOps LawfulPriceLevel BookOps Engine

/-- The match loop of the order is left; `src/engine/matching_engine.cpp:71–82,99–108`. -/
def Engine.Leaves {B : Type} [BookOps B] (s : Engine B) (a : Order) : Prop :=
  a.quantity = 0 ∨ ∀ p, bestPrice s.book a.side.opposite = some p → Config.trades a p = false

namespace Order

/-- What a match loop leaves of the order comes to rest;
`src/engine/matching_engine.cpp:34,57`. -/
def Rests (a : Order) : Prop :=
  a.type = .limit ∧ a.quantity > 0 ∨ a.type = .iceberg ∧ (a.quantity > 0 ∨ a.reserveQty > 0)

/-- What the order may still show at its price after what it shows now. -/
def hidden (o : Order) : Nat := if o.isIceberg then o.reserveQty.toNat else 0

/-- What the order may show at its price once it rests. -/
def demand (o : Order) : Nat := o.visibleQty.toNat + o.hidden

/-- The order may come to rest at a place. -/
def headsFor (side : Side) (p : Price) (o : Order) : Bool := o.canRest && o.restsAt side p

end Order

/-- The next step adds to the volume of a level in `push_back`: the volume recorded before, and the
quantity. The first order of the opposite side is replenished, or the order comes to rest. -/
inductive Config.Pushes : Config (OrderBook PriceLevel) → Quantity → Quantity → Prop
  | rested {s : Engine (OrderBook PriceLevel)} {a : Order} {K : List Frame} {r : MatchResult} :
      s.Leaves a → a.Rests →
      Pushes ⟨s, .matching a :: K, r⟩
        ((s.book.getLevel a.side a.price).getD (ofPrice a.price)).totalVolume a.visibleQty
  | replenished {s : Engine (OrderBook PriceLevel)} {a o : Order} {K : List Frame}
      {r : MatchResult} {p : Price} {key : OrderId} {book : OrderBook PriceLevel} {q : Quantity}
      {l l' : PriceLevel} :
      a.quantity > 0 → bestPrice s.book a.side.opposite = some p → trades a p = true →
      pickPassive s.book a.side.opposite = .ok (key, o, book) → q = min a.quantity o.quantity →
      o.quantity - q = 0 → o.isIceberg = true → o.reserveQty > 0 →
      book.getLevel o.side o.price = some l → l.popFront q = some l' →
      Pushes ⟨s, .matching a :: K, r⟩ l'.totalVolume (min o.peakQty o.reserveQty)

/-- What a level records, and what resting and outstanding orders may add to it. -/
def demandAt (b : OrderBook PriceLevel) (resting outstanding : List Order) (side : Side)
    (p : Price) : Nat :=
  b.volume side p + resting.sumOver (Order.restsAt side p) Order.hidden +
    outstanding.sumOver (Order.headsFor side p) Order.demand

/-! ### Operations on the book -/

/-- A reserve that a fill brings to display is not held back any more. -/
private theorem Order.volumeAfter_add_le (o : Order) (q : Quantity) (v : Nat) :
    o.volumeAfter q v + ((o.leftAfter q).toList.map Order.hidden).sum ≤ v + o.hidden := by
  unfold volumeAfter leftAfter
  split
  · split
    · next hi =>
      have hsub := UInt64.toNat_sub_min_right o.peakQty o.reserveQty
      have hmin := UInt64.toNat_min o.peakQty o.reserveQty
      have hmod := Nat.mod_le (v - q.toNat + (min o.peakQty o.reserveQty).toNat) (2 ^ 64)
      have hleft : o.replenished.hidden = o.reserveQty.toNat - o.peakQty.toNat := by
        have hice : o.replenished.isIceberg = o.isIceberg := rfl
        rw [hidden, hice, if_pos hi.1]
        exact hsub
      rw [Option.toList_some, List.map_singleton, List.sum_singleton, hleft, hidden, if_pos hi.1]
      omega
    · rw [Option.toList_none, List.map_nil, List.sum_nil]
      omega
  · have hleft : Order.hidden { o with quantity := o.quantity - q } = o.hidden := rfl
    rw [Option.toList_some, List.map_singleton, List.sum_singleton, hleft]
    omega

section Operations

variable {b b' : OrderBook PriceLevel} {r r' : ReferenceBook} {o : Order} (outs : List Order)
  (side : Side) (p : Price)

/-- An outstanding order comes to rest. -/
theorem demandAt_inserted (ho : o.canRest = true) :
    demandAt (b.insertOrder o) (r.insertOrder o).allOrders outs side p ≤
      demandAt b r.allOrders (o :: outs) side p := by
  have hperm := ReferenceBook.allOrders_insertOrder r o
  simp only [demandAt, OrderBook.volume_inserted, hperm.sumOver_eq, List.sumOver_cons,
    Order.headsFor, ho, Bool.true_and, Order.demand]
  split
  · have hmod := Nat.mod_le (b.volume side p + o.visibleQty.toNat) (2 ^ 64)
    omega
  · omega

/-- The first order of a side is filled. -/
theorem demandAt_settled (h : Represents b r) {side₀ : Side} {rest : List Order}
    (ho : r.orders side₀ = o :: rest) {q : Quantity}
    (hb : settlePassive b o.id o q = .ok b') (hf : r.Filled o q r') :
    demandAt b' r'.allOrders outs side p ≤ demandAt b r.allOrders outs side p := by
  have hmem := (ReferenceBook.mem_of_head ho).1
  have hleft : (o.leftAfter q).toList.sumOver (Order.restsAt side p) Order.hidden =
      if o.restsAt side p then ((o.leftAfter q).toList.map Order.hidden).sum else 0 := by
    cases hl : o.leftAfter q with
    | none => rw [Option.toList_none, List.map_nil, List.sum_nil, ite_self, List.sumOver_nil]
    | some x =>
      have hx := leftAfter_descends (hl ▸ List.mem_singleton_self x : x ∈ (o.leftAfter q).toList)
      have hat : x.restsAt side p = o.restsAt side p :=
        Order.restsAt_ofPlace side p hx.side_eq hx.price_eq
      rw [Option.toList_some, List.map_singleton, List.sum_singleton, List.sumOver_cons, hat,
        List.sumOver_nil, Nat.add_zero]
  have hafter := o.volumeAfter_add_le q (b.volume side p)
  simp only [demandAt, OrderBook.volume_settled hb, hf.perm.sumOver_eq,
    (h.distinct.perm_of_mem hmem).sumOver_eq, List.sumOver_append, List.sumOver_cons, hleft]
  split
  · split <;> omega
  · omega

/-- An order is cancelled. -/
theorem demandAt_cancelled {id : OrderId} (ho : b.findOrder id = some o) :
    demandAt (b.cancelOrder id).1 (r.cancelOrder id).allOrders outs side p ≤
      demandAt b r.allOrders outs side p := by
  have hsub : ((r.cancelOrder id).allOrders).sumOver (Order.restsAt side p) Order.hidden ≤
      r.allOrders.sumOver (Order.restsAt side p) Order.hidden := by
    rw [ReferenceBook.allOrders_cancelOrder]
    exact List.filter_sublist.sumOver_le
  have hvol : (b.cancelOrder id).1.volume side p ≤ b.volume side p := by
    rw [OrderBook.volume_cancelled ho]
    split
    · split <;> omega
    · exact Nat.le_refl _
  simp only [demandAt]
  omega

end Operations

/-! ### Steps -/

namespace Config

variable {c d : Config (OrderBook PriceLevel)} {r : ReferenceBook} {side : Side} {p : Price}

/-- Leaving a match loop. -/
private theorem volume_grows_settle {s : Engine (OrderBook PriceLevel)} {a a' : Order}
    {K : List Frame} {res : MatchResult} (hl : s.Leaves a) (ha : a' = a ∨ a' = markFilled a)
    (hlt : s.book.volume side p < (settle s a').book.volume side p) :
    ∃ v q, Pushes ⟨s, .matching a :: K, res⟩ v q ∧
      (settle s a').book.volume side p = (v.toNat + q.toNat) % 2 ^ 64 := by
  have hsame : a'.type = a.type ∧ a'.quantity = a.quantity ∧ a'.reserveQty = a.reserveQty ∧
      a'.side = a.side ∧ a'.price = a.price ∧ a'.visibleQty = a.visibleQty := by
    rcases ha with rfl | rfl
    · exact ⟨rfl, rfl, rfl, rfl, rfl, rfl⟩
    · rw [markFilled]
      split <;> exact ⟨rfl, rfl, rfl, rfl, rfl, rfl⟩
  obtain ⟨hty, hq, hres, hside, hprice, hvis⟩ := hsame
  have hin (hr : a.Rests) (hlt : s.book.volume side p < (s.insert a').book.volume side p) :
      ∃ v q, Pushes ⟨s, .matching a :: K, res⟩ v q ∧
        (s.insert a').book.volume side p = (v.toNat + q.toNat) % 2 ^ 64 := by
    have hvol : (s.insert a').book.volume side p = _ := OrderBook.volume_inserted s.book a' side p
    rw [hvol] at hlt ⊢
    split at hlt
    · next hat =>
      refine ⟨_, _, .rested hl hr, ?_⟩
      obtain ⟨rfl, rfl⟩ := Order.restsAt_iff.mp hat
      rw [if_pos hat, ← hside, ← hprice, OrderBook.toNat_totalVolume, hvis]
    · exact absurd hlt (Nat.lt_irrefl _)
  unfold settle at hlt ⊢
  split at hlt
  · next ht =>
    split at hlt
    · next hpos =>
      rw [if_pos hpos]
      exact hin (.inl ⟨hty ▸ ht, hq ▸ hpos⟩) hlt
    · exact absurd hlt (Nat.lt_irrefl _)
  · next ht =>
    split at hlt
    · next hpos =>
      rw [if_pos hpos]
      exact hin (.inr ⟨hty ▸ ht, hq ▸ hres ▸ hpos⟩) hlt
    · exact absurd hlt (Nat.lt_irrefl _)
  · exact absurd hlt (Nat.lt_irrefl _)

/-- A volume grows only by an addition of `push_back`. -/
theorem Moves.volume_grows (hm : Moves c d) (hr : Represents c.engine.book r)
    (hlt : c.engine.book.volume side p < d.engine.book.volume side p) :
    ∃ v q, c.Pushes v q ∧ d.engine.book.volume side p = (v.toNat + q.toNat) % 2 ^ 64 := by
  cases hm with
  | filled h0 => exact volume_grows_settle (.inl h0) (.inr rfl) hlt
  | uncrossed hq hb hno =>
    refine volume_grows_settle (.inr fun x hx ↦ ?_) (.inl rfl) hlt
    obtain rfl := Option.some.inj (hb.symm.trans hx)
    exact hno
  | unopposed hq hb ht =>
    exact volume_grows_settle (.inr fun x hx ↦ absurd (hb.symm.trans hx) (by simp)) (.inl rfl) hlt
  | @fill s a passive K res p₀ key book book' q hq hb htr hpick hqq hset =>
    rw [evaluate_book] at hlt ⊢
    obtain ⟨rfl, rfl, ⟨rest, ho⟩, hr₁, -⟩ := hr.of_pickPassive hb hpick
    have hvol := OrderBook.volume_settled hset side p
    change s.book.volume side p < book'.volume side p at hlt
    change ∃ v q, _ ∧ book'.volume side p = _
    rw [← OrderBook.volume_pickPassive hpick, hvol] at hlt
    split at hlt
    · next hat =>
      split at hlt
      · next hlevel =>
        obtain ⟨l, -, hl, hvalid, -, hids⟩ := hr₁.bestLevel ho
        obtain ⟨l', hpop, -⟩ := popFront_valid q hvalid hids
        have hpop' : l.popFront q = some l' := hpop
        obtain ⟨rfl, rfl⟩ := Order.restsAt_iff.mp hat
        rw [← (ReferenceBook.mem_of_head ho).2] at hl
        rw [hvol, if_pos hat, if_pos hlevel]
        unfold Order.volumeAfter at hlt ⊢
        split at hlt
        · next h0 =>
          split at hlt
          · next hi =>
            refine ⟨_, _, .replenished hq hb htr hpick hqq h0 hi.1 hi.2 hl hpop', ?_⟩
            rw [if_pos h0, if_pos hi, PriceLevel.totalVolume_popFront hpop', toNat_clampedSub,
              OrderBook.volume_of_level hl]
          · omega
        · omega
      · exact absurd hlt (Nat.not_lt_zero _)
    · exact absurd hlt (Nat.lt_irrefl _)
  | exhausted | evaluated | triggered | kept => exact absurd hlt (Nat.lt_irrefl _)

end Config

end LobEngine
