import LobEngine.Core.Order
import LobEngine.Lib.RawBytes

/-!
# How an order lies in memory

The members of `struct Order` in the order of their declaration, every word at a multiple of its
size: 80 bytes, 13 of which carry nothing. Every order whose prices are 64-bit numbers reads back.
-/

namespace LobEngine

open Layout

/-- The underlying value of `Side`; `src/core/enums.hpp:6`. -/
def Side.toByte : Side → UInt8
  | .buy => 0
  | .sell => 1

/-- The side with an underlying value. -/
def Side.ofByte : UInt8 → Side
  | 0 => .buy
  | _ => .sell

/-- The underlying value of `OrderType`; `src/core/enums.hpp:8`. -/
def OrderType.toByte : OrderType → UInt8
  | .limit => 0
  | .market => 1
  | .stop => 2
  | .stopLimit => 3
  | .iceberg => 4

/-- The order type with an underlying value. -/
def OrderType.ofByte : UInt8 → OrderType
  | 0 => .limit
  | 1 => .market
  | 2 => .stop
  | 3 => .stopLimit
  | _ => .iceberg

/-- The underlying value of `OrderStatus`; `src/core/enums.hpp:10–18`. -/
def OrderStatus.toByte : OrderStatus → UInt8
  | .new => 0
  | .resting => 1
  | .partialFill => 2
  | .filled => 3
  | .cancelled => 4
  | .rejected => 5
  | .triggered => 6

/-- The order status with an underlying value. -/
def OrderStatus.ofByte : UInt8 → OrderStatus
  | 0 => .new
  | 1 => .resting
  | 2 => .partialFill
  | 3 => .filled
  | 4 => .cancelled
  | 5 => .rejected
  | _ => .triggered

namespace Order

/-- The members, and the gaps behind the one-byte members. -/
abbrev Members : Type :=
  UInt64 × UInt8 × UInt8 × Unit × Int × Int × UInt64 × UInt64 × UInt64 × UInt64 × UInt64 ×
    UInt8 × Unit

/-- `struct Order`, member by member; `src/core/order.hpp:13–24`. -/
def members (o : Order) : Members :=
  (o.id, o.side.toByte, o.type.toByte, (), o.price, o.stopPrice, o.quantity, o.origQty, o.peakQty,
    o.reserveQty, o.timestamp, o.status.toByte, ())

/-- The order with the given members. -/
def ofMembers : Members → Order
  | (id, side, type, _, price, stopPrice, quantity, origQty, peakQty, reserveQty, timestamp,
      status, _) =>
    { id, side := .ofByte side, type := .ofByte type, price, stopPrice, quantity, origQty, peakQty,
      reserveQty, timestamp, status := .ofByte status }

/-- `Order` as it is stored with 8-byte alignment. -/
def layout : Layout Order :=
  (word64.pair <| byte.pair <| byte.pair <| (padding 6).pair <| int64.pair <| int64.pair <|
    word64.pair <| word64.pair <| word64.pair <| word64.pair <| word64.pair <| byte.pair <|
    padding 7).via members ofMembers

example : layout.size = 80 := rfl

/-- An order with 64-bit prices reads back as it was written. -/
theorem layout_restores {o : Order} (hp : -2 ^ 63 ≤ o.price ∧ o.price < 2 ^ 63)
    (hs : -2 ^ 63 ≤ o.stopPrice ∧ o.stopPrice < 2 ^ 63) : layout.Restores o := by
  apply via_restores
  · have hword {w : UInt64} : word64.Restores w := word64_restores w
    have hbyte {b : UInt8} : byte.Restores b := byte_restores b
    have hgap {k : Nat} : (padding k).Restores () := padding_restores k
    have htail := pair_restores (hword (w := o.timestamp))
      (pair_restores (hbyte (b := o.status.toByte)) (hgap (k := 7)))
    have hwords := pair_restores (hword (w := o.quantity)) (pair_restores (hword (w := o.origQty))
      (pair_restores (hword (w := o.peakQty)) (pair_restores (hword (w := o.reserveQty)) htail)))
    exact pair_restores hword (pair_restores hbyte (pair_restores hbyte (pair_restores hgap
      (pair_restores (int64_restores hp.1 hp.2)
        (pair_restores (int64_restores hs.1 hs.2) hwords)))))
  · have hside : Side.ofByte o.side.toByte = o.side := by cases o.side <;> rfl
    have htype : OrderType.ofByte o.type.toByte = o.type := by cases o.type <;> rfl
    have hstatus : OrderStatus.ofByte o.status.toByte = o.status := by cases o.status <;> rfl
    unfold members ofMembers
    simp only
    rw [hside, htype, hstatus]

end Order

end LobEngine
