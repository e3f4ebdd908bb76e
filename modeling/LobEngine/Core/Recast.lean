import LobEngine.Core.Event

/-!
# Changes that matching cannot see

A recast renames the sides and rewrites the prices and the timestamps of whatever carries them.
It keeps the order in which a side ranks its prices, and it keeps the price 0 and the timestamp
0, which the engine uses for "none". The mirror, which swaps the sides and negates the prices,
is a recast, and so is forgetting the timestamps.
-/

namespace LobEngine

/-- Maps of sides, prices and timestamps that keep what the engine compares. -/
structure Recast where
  side : Side → Side
  price : Price → Price
  time : Timestamp → Timestamp
  side_opposite : ∀ s, side s.opposite = (side s).opposite
  price_eq_zero : ∀ p, price p = 0 ↔ p = 0
  time_zero : time 0 = 0
  cmp_eq : ∀ s p q, (side s).cmp (price p) (price q) = s.cmp p q

namespace Recast

/-- No change. -/
def refl : Recast where
  side s := s
  price p := p
  time t := t
  side_opposite _ := rfl
  price_eq_zero _ := Iff.rfl
  time_zero := rfl
  cmp_eq _ _ _ := rfl

/-- Swap the sides and negate every price. -/
def mirror : Recast where
  side := Side.opposite
  price p := -p
  time t := t
  side_opposite _ := rfl
  price_eq_zero _ := Int.neg_eq_zero
  time_zero := rfl
  cmp_eq s p q := by
    have hneg (p q : Int) : compare (-p) (-q) = compare q p := by
      simp only [compare, compareOfLessAndEq]
      grind
    cases s
    · exact hneg p q
    · exact hneg q p

/-- Forget the timestamps. -/
def untimed : Recast where
  side s := s
  price p := p
  time _ := 0
  side_opposite _ := rfl
  price_eq_zero _ := Iff.rfl
  time_zero := rfl
  cmp_eq _ _ _ := rfl

variable (φ : Recast)

@[simp] theorem price_zero : φ.price 0 = 0 := (φ.price_eq_zero 0).mpr rfl

theorem price_inj {p q : Price} : φ.price p = φ.price q ↔ p = q := by
  refine ⟨fun h ↦ ?_, fun h ↦ h ▸ rfl⟩
  have hself : (φ.side .buy).cmp (φ.price p) (φ.price q) = .eq := by
    rw [h]
    exact Std.ReflCmp.compare_self
  rw [φ.cmp_eq] at hself
  exact Std.LawfulEqCmp.eq_of_compare hself

/-- A recast leaves the sides as they are or swaps them. -/
theorem side_side (s : Side) : φ.side (φ.side s) = s := by
  have hopp := φ.side_opposite s
  cases s <;> cases hb : φ.side .buy <;> cases hs : φ.side .sell <;> simp_all [Side.opposite]

end Recast

/-- The side of an aggressor. -/
def Side.aggressor : Side → AggressorSide
  | .buy => .buy
  | .sell => .sell

/-! ### What is recast -/

section Recast

variable (φ : Recast)

def AggressorSide.recast : AggressorSide → AggressorSide
  | .buy => (φ.side .buy).aggressor
  | .sell => (φ.side .sell).aggressor
  | .none => .none

def Order.recast (o : Order) : Order :=
  { o with side := φ.side o.side, price := φ.price o.price, stopPrice := φ.price o.stopPrice
           timestamp := φ.time o.timestamp }

def Trade.recast (t : Trade) : Trade :=
  { t with price := φ.price t.price, timestamp := φ.time t.timestamp
           aggressorSide := t.aggressorSide.recast φ }

def ExecutionReport.recast (r : ExecutionReport) : ExecutionReport :=
  { r with avgFillPrice := φ.price r.avgFillPrice, timestamp := φ.time r.timestamp }

def Rejection.recast (r : Rejection) : Rejection := { r with timestamp := φ.time r.timestamp }

def MatchResult.recast (r : MatchResult) : MatchResult where
  trades := r.trades.map (Trade.recast φ)
  reports := r.reports.map (ExecutionReport.recast φ)
  rejections := r.rejections.map (Rejection.recast φ)

def OrderEvent.recast : OrderEvent → OrderEvent
  | .newOrder e => .newOrder ⟨e.order.recast φ⟩
  | .cancelOrder e => .cancelOrder { e with timestamp := φ.time e.timestamp }
  | .modifyOrder e =>
    .modifyOrder { e with newPrice := φ.price e.newPrice, timestamp := φ.time e.timestamp }
  | .replaceOrder e => .replaceOrder { e with newOrder := e.newOrder.recast φ }

variable {φ}

@[simp] theorem Order.id_recast (o : Order) : (o.recast φ).id = o.id := rfl
@[simp] theorem Order.side_recast (o : Order) : (o.recast φ).side = φ.side o.side := rfl
@[simp] theorem Order.type_recast (o : Order) : (o.recast φ).type = o.type := rfl
@[simp] theorem Order.price_recast (o : Order) : (o.recast φ).price = φ.price o.price := rfl
@[simp] theorem Order.stopPrice_recast (o : Order) :
    (o.recast φ).stopPrice = φ.price o.stopPrice := rfl
@[simp] theorem Order.quantity_recast (o : Order) : (o.recast φ).quantity = o.quantity := rfl
@[simp] theorem Order.peakQty_recast (o : Order) : (o.recast φ).peakQty = o.peakQty := rfl
@[simp] theorem Order.reserveQty_recast (o : Order) :
    (o.recast φ).reserveQty = o.reserveQty := rfl
@[simp] theorem Order.isResting_recast (o : Order) : (o.recast φ).isResting = o.isResting := rfl
@[simp] theorem Order.isIceberg_recast (o : Order) : (o.recast φ).isIceberg = o.isIceberg := rfl
@[simp] theorem Order.visibleQty_recast (o : Order) : (o.recast φ).visibleQty = o.visibleQty := rfl

/-- An order crosses a price that the opposite side ranks no later than its own. -/
private theorem Order.crosses_eq (o : Order) (p : Price) :
    o.crosses p = (o.side.opposite.cmp p o.price).isLE := by
  cases hs : o.side with
  | buy =>
    rw [Order.crosses_buy hs, Bool.eq_iff_iff, decide_eq_true_eq]
    exact Std.isLE_compare.symm
  | sell =>
    rw [Order.crosses_sell hs, Bool.eq_iff_iff, decide_eq_true_eq]
    exact Std.isLE_compare.symm

/-- A stop is triggered by a price that the opposite side ranks no earlier than its own. -/
private theorem Order.triggeredAt_eq (o : Order) (p : Price) :
    o.triggeredAt p = (o.side.opposite.cmp o.stopPrice p).isLE := by
  unfold Order.triggeredAt Order.isBuy Order.isSell
  cases hs : o.side with
  | buy =>
    have hle : (Side.sell.cmp o.stopPrice p).isLE = true ↔ o.stopPrice ≤ p := Std.isLE_compare
    rw [Bool.eq_iff_iff, Side.opposite, hle]
    simp
  | sell =>
    have hle : (Side.buy.cmp o.stopPrice p).isLE = true ↔ p ≤ o.stopPrice := Std.isLE_compare
    rw [Bool.eq_iff_iff, Side.opposite, hle]
    simp

@[simp] theorem Order.crosses_recast (o : Order) (p : Price) :
    (o.recast φ).crosses (φ.price p) = o.crosses p := by
  rw [Order.crosses_eq, Order.crosses_eq, Order.side_recast, ← φ.side_opposite,
    Order.price_recast, φ.cmp_eq]

@[simp] theorem Order.triggeredAt_recast (o : Order) (p : Price) :
    (o.recast φ).triggeredAt (φ.price p) = o.triggeredAt p := by
  rw [Order.triggeredAt_eq, Order.triggeredAt_eq, Order.side_recast, ← φ.side_opposite,
    Order.stopPrice_recast, φ.cmp_eq]

@[simp] theorem Order.converted_recast (o : Order) :
    (o.recast φ).converted = o.converted.recast φ := by
  unfold Order.converted
  rw [Order.type_recast]
  split
  · simp only [Order.recast, φ.price_zero]
  · rfl

@[simp] theorem MatchResult.recast_append (r q : MatchResult) :
    (r ++ q).recast φ = r.recast φ ++ q.recast φ := by
  apply MatchResult.ext <;> simp [MatchResult.recast]

@[simp] theorem MatchResult.recast_pushTrade (r : MatchResult) (t : Trade) :
    (r.pushTrade t).recast φ = (r.recast φ).pushTrade (t.recast φ) := by
  apply MatchResult.ext <;> simp [MatchResult.recast, MatchResult.pushTrade]

@[simp] theorem MatchResult.recast_pushRejection (r : MatchResult) (rej : Rejection) :
    (r.pushRejection rej).recast φ = (r.recast φ).pushRejection (rej.recast φ) := by
  apply MatchResult.ext <;> simp [MatchResult.recast, MatchResult.pushRejection]

end Recast

/-! ### Doing nothing -/

@[simp] theorem Order.recast_refl (o : Order) : o.recast .refl = o := rfl

@[simp] theorem AggressorSide.recast_refl (s : AggressorSide) : s.recast .refl = s := by
  cases s <;> rfl

@[simp] theorem Trade.recast_refl (t : Trade) : t.recast .refl = t := by
  rw [Trade.recast, AggressorSide.recast_refl]
  rfl

@[simp] theorem MatchResult.recast_refl (r : MatchResult) : r.recast .refl = r := by
  apply MatchResult.ext
  · change r.trades.map (Trade.recast .refl) = r.trades
    rw [List.map_congr_left (g := fun t ↦ t) fun t _ ↦ t.recast_refl, List.map_id']
  · change r.reports.map (ExecutionReport.recast .refl) = r.reports
    exact List.map_id' r.reports
  · change r.rejections.map (Rejection.recast .refl) = r.rejections
    exact List.map_id' r.rejections

@[simp] theorem OrderEvent.recast_refl (e : OrderEvent) : e.recast .refl = e := by
  cases e <;> rfl

end LobEngine
