import Mathlib.Data.UInt

/-!
# Orders

`src/core/enums.hpp`, `src/core/order.hpp`. Identifiers, quantities and timestamps
are the code's 64-bit words. A price is an integer number of ticks: the engine only
compares and copies prices. Where other code adds prices, the sum is narrowed.
-/

namespace LobEngine

/-- `using OrderId = uint64_t`; `src/core/order.hpp:8`. -/
abbrev OrderId := UInt64

/-- Integer price in ticks; `src/core/order.hpp:9`. -/
abbrev Price := Int

/-- The range of `std::int64_t`. -/
def InInt64 (n : Int) : Prop := -2 ^ 63 ≤ n ∧ n < 2 ^ 63

instance (n : Int) : Decidable (InInt64 n) := inferInstanceAs (Decidable (_ ∧ _))

/-- An integer narrowed to 64 bits: a sum that leaves the range wraps. -/
def narrow64 (n : Int) : Int := n.bmod (2 ^ 64)

theorem narrow64_of_inInt64 {n : Int} (h : InInt64 n) : narrow64 n = n :=
  Int.bmod_eq_of_le h.1 h.2

/-- `using Quantity = uint64_t`; arithmetic wraps modulo `2^64`. -/
abbrev Quantity := UInt64

/-- Nanoseconds since epoch; `src/core/order.hpp:11`. -/
abbrev Timestamp := UInt64

/-- `enum class Side`; `src/core/enums.hpp:6`. -/
inductive Side where
  | buy
  | sell
  deriving DecidableEq, Repr

/-- `enum class OrderType`; `src/core/enums.hpp:8`. -/
inductive OrderType where
  | limit
  | market
  | stop
  | stopLimit
  | iceberg
  deriving DecidableEq, Repr

/-- `enum class OrderStatus`; `src/core/enums.hpp:10–18`. -/
inductive OrderStatus where
  | new
  | resting
  | partialFill
  | filled
  | cancelled
  | rejected
  | triggered
  deriving DecidableEq, Repr

/-- `enum class RejectReason`; `src/core/enums.hpp:20–32`. -/
inductive RejectReason where
  | none
  | invalidPrice
  | invalidQuantity
  | duplicateOrderId
  | orderNotFound
  | orderNotCancellable
  | invalidModify
  | stopPriceInconsistent
  | priceBandViolation
  | maxSizeViolation
  | marketExhausted
  deriving DecidableEq, Repr

/-- `enum class AggressorSide`; `src/core/enums.hpp:36`. -/
inductive AggressorSide where
  | buy
  | sell
  | none
  deriving DecidableEq, Repr

/-- The side an aggressor trades against. -/
def Side.opposite : Side → Side
  | .buy => .sell
  | .sell => .buy

@[simp] theorem Side.opposite_opposite (s : Side) : s.opposite.opposite = s := by
  cases s <;> rfl

theorem Side.opposite_ne (s : Side) : s.opposite ≠ s := by
  cases s <;> decide

/-- The two sides are exhaustive. -/
theorem Side.eq_or_eq_opposite (s t : Side) : s = t ∨ s = t.opposite := by
  cases s <;> cases t <;> decide

/-- The iteration order of one side of the book: `std::map` with `std::greater` for
bids and the default comparator for asks; `src/book/order_book.hpp:55–57`. -/
def Side.cmp : Side → Price → Price → Ordering
  | .buy => fun p q ↦ compare q p
  | .sell => fun p q ↦ compare p q

instance (s : Side) : Std.TransCmp s.cmp := by
  cases s
  · exact inferInstanceAs (Std.TransCmp (fun p q : Price ↦ compare q p))
  · exact inferInstanceAs (Std.TransCmp (fun p q : Price ↦ compare p q))

instance (s : Side) : Std.LawfulEqCmp s.cmp where
  eq_of_compare {p q} h := by
    cases s
    · exact (Std.LawfulEqOrd.eq_of_compare h).symm
    · exact Std.LawfulEqOrd.eq_of_compare h

/-- `struct Order`; `src/core/order.hpp:13–36`. -/
structure Order where
  id : OrderId := 0
  side : Side := .buy
  type : OrderType := .limit
  price : Price := 0
  stopPrice : Price := 0
  quantity : Quantity := 0
  origQty : Quantity := 0
  peakQty : Quantity := 0
  reserveQty : Quantity := 0
  timestamp : Timestamp := 0
  status : OrderStatus := .new
  deriving DecidableEq, Repr

namespace Order

/-- `Order::is_buy`; `src/core/order.hpp:27`. -/
def isBuy (o : Order) : Bool := o.side == .buy

/-- `Order::is_sell`; `src/core/order.hpp:28`. -/
def isSell (o : Order) : Bool := o.side == .sell

/-- `Order::is_resting`; `src/core/order.hpp:29–31`. -/
def isResting (o : Order) : Bool := o.status == .resting || o.status == .partialFill

/-- `Order::is_iceberg`; `src/core/order.hpp:32`. -/
def isIceberg (o : Order) : Bool := decide (o.peakQty > 0)

/-- `Order::visible_qty`; `src/core/order.hpp:33–35`. -/
def visibleQty (o : Order) : Quantity := if o.isIceberg then o.peakQty else o.quantity

/-- The trigger condition shared by `process_new_order` and `evaluate_stop_triggers`;
`src/engine/matching_engine.cpp:41–46,200–203`. -/
def triggeredAt (o : Order) (lastPrice : Price) : Bool :=
  (o.isBuy && decide (lastPrice ≥ o.stopPrice)) || (o.isSell && decide (lastPrice ≤ o.stopPrice))

/-- The price a level must not be worse than for the order to trade there;
`src/engine/matching_engine.cpp:78–81`. -/
def crosses (o : Order) (levelPrice : Price) : Bool :=
  !((o.isBuy && decide (levelPrice > o.price)) || (o.isSell && decide (levelPrice < o.price)))

theorem crosses_buy {o : Order} (h : o.side = .buy) (p : Price) :
    o.crosses p = decide (p ≤ o.price) := by
  rw [crosses, isBuy, isSell, h]
  by_cases hp : p ≤ o.price
  · simp [hp]
  · simp [hp, Int.lt_of_not_ge hp]

theorem crosses_sell {o : Order} (h : o.side = .sell) (p : Price) :
    o.crosses p = decide (o.price ≤ p) := by
  rw [crosses, isBuy, isSell, h]
  by_cases hp : o.price ≤ p
  · simp [hp]
  · simp [hp, Int.lt_of_not_ge hp]

/-- An order that does not cross a price does not cross the prices behind it. -/
theorem crosses_of_behind {a : Order} {p q : Price} (hp : a.crosses p = false)
    (hle : (a.side.opposite.cmp p q).isLE = true) : a.crosses q = false := by
  cases hs : a.side with
  | buy =>
    have hpq : p ≤ q := by
      rw [hs] at hle
      exact Std.isLE_compare.mp hle
    rw [Order.crosses_buy hs, decide_eq_false_iff_not] at hp ⊢
    exact fun hq ↦ hp (hpq.trans hq)
  | sell =>
    have hpq : q ≤ p := by
      rw [hs] at hle
      exact Std.isLE_compare.mp hle
    rw [Order.crosses_sell hs, decide_eq_false_iff_not] at hp ⊢
    exact fun hq ↦ hp (hq.trans hpq)

/-- The order `process_triggered_stop` submits in place of a stop;
`src/engine/matching_engine.cpp:214–222`. -/
def converted (stop : Order) : Order :=
  if stop.type = .stop then { stop with status := .triggered, type := .market, price := 0 }
  else { stop with status := .triggered, type := .limit }

end Order

theorem converted_id (o : Order) : o.converted.id = o.id := by
  rw [Order.converted]
  split <;> rfl

theorem converted_type (o : Order) : o.converted.type = .market ∨ o.converted.type = .limit := by
  rw [Order.converted]
  split
  · exact .inl rfl
  · exact .inr rfl

theorem converted_ne_iceberg (o : Order) : o.converted.type ≠ .iceberg := by
  rcases converted_type o with ht | ht <;> simp [ht]

end LobEngine
