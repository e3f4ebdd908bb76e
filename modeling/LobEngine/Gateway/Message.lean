import LobEngine.Core.Event

/-!
# Messages of the gateway

`src/events/order_message.hpp`, `src/events/exchange_events.hpp`.
-/

namespace LobEngine

/-- `enum class OrderAction`; `src/events/order_message.hpp:11`. -/
inductive OrderAction where
  | newOrder
  | cancelOrder
  deriving DecidableEq, Repr

/-- `struct OrderMessage`; `src/events/order_message.hpp:23–35`. -/
structure OrderMessage where
  orderId : OrderId := 0
  clientId : UInt64 := 0
  symbol : String := ""
  side : Side := .buy
  type : OrderType := .limit
  quantity : Quantity := 0
  price : Price := 0
  stopPrice : Price := 0
  peakQty : Quantity := 0
  timestamp : Timestamp := 0
  action : OrderAction := .newOrder
  deriving DecidableEq, Repr

/-- `struct OrderAcceptedEvent`; `src/events/exchange_events.hpp:20–29`. -/
structure OrderAcceptedEvent where
  timestamp : Timestamp := 0
  symbol : String := ""
  orderId : OrderId := 0
  clientId : UInt64 := 0
  price : Price := 0
  quantity : Quantity := 0
  side : Side := .buy
  type : OrderType := .limit
  deriving DecidableEq, Repr

/-- `struct OrderRejectedEvent`; `src/events/exchange_events.hpp:31–37`. -/
structure OrderRejectedEvent where
  timestamp : Timestamp := 0
  symbol : String := ""
  orderId : OrderId := 0
  clientId : UInt64 := 0
  reason : RejectReason := .none
  deriving DecidableEq, Repr

/-- `struct OrderCanceledEvent`; `src/events/exchange_events.hpp:39–44`. -/
structure OrderCanceledEvent where
  timestamp : Timestamp := 0
  symbol : String := ""
  orderId : OrderId := 0
  remainingQty : Quantity := 0
  deriving DecidableEq, Repr

/-- `struct TradeExecutedEvent`; `src/events/exchange_events.hpp:46–53`. -/
structure TradeExecutedEvent where
  timestamp : Timestamp := 0
  symbol : String := ""
  buyOrderId : OrderId := 0
  sellOrderId : OrderId := 0
  price : Price := 0
  quantity : Quantity := 0
  deriving DecidableEq, Repr

/-- `struct BookUpdatedEvent`; `src/events/exchange_events.hpp:55–63`. -/
structure BookUpdatedEvent where
  timestamp : Timestamp := 0
  symbol : String := ""
  bestBid : Price := 0
  bestAsk : Price := 0
  spread : Price := 0
  bidLevels : Nat := 0
  askLevels : Nat := 0
  deriving DecidableEq, Repr

/-- `struct SnapshotEvent`; `src/events/exchange_events.hpp:65–74`. -/
structure SnapshotEvent where
  timestamp : Timestamp := 0
  symbol : String := ""
  lastTradePrice : Price := 0
  bestBid : Price := 0
  bestAsk : Price := 0
  bids : List (Price × Quantity) := []
  asks : List (Price × Quantity) := []
  deriving DecidableEq, Repr

/-- `using ExchangeEvent = std::variant<...>`; `src/events/exchange_events.hpp:77–78`. -/
inductive ExchangeEvent where
  | orderAccepted (e : OrderAcceptedEvent)
  | orderRejected (e : OrderRejectedEvent)
  | orderCanceled (e : OrderCanceledEvent)
  | tradeExecuted (e : TradeExecutedEvent)
  | bookUpdated (e : BookUpdatedEvent)
  | snapshot (e : SnapshotEvent)
  deriving DecidableEq, Repr

end LobEngine
