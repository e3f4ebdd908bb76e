import LobEngine.Gateway.Message

/-!
# Serialized events

`src/serialization/serializer.cpp`. The JSON values are those that the code builds; `dump` stands
for `nlohmann::json::dump`, which prints a value.
-/

namespace LobEngine

/-- A JSON value, with the members of an object as the code lists them. -/
inductive Json where
  | number (n : Int)
  | string (s : String)
  | array (items : List Json)
  | object (members : List (String × Json))

namespace Json

def unsigned (n : UInt64) : Json := .number n.toNat

/-- An entry of the depth of a snapshot; `src/serialization/serializer.cpp:135–140`. -/
def level (entry : Price × Quantity) : Json :=
  .object [("price", .number entry.1), ("qty", .unsigned entry.2)]

end Json

/-- `side_to_str`; `src/serialization/serializer.cpp:8`. -/
def Side.toStr : Side → String
  | .buy => "BUY"
  | .sell => "SELL"

/-- `order_type_to_str`; `src/serialization/serializer.cpp:10–24`. -/
def OrderType.toStr : OrderType → String
  | .limit => "LIMIT"
  | .market => "MARKET"
  | .stop => "STOP"
  | .stopLimit => "STOP_LIMIT"
  | .iceberg => "ICEBERG"

/-- `reject_reason_to_str`; `src/serialization/serializer.cpp:26–52`. -/
def RejectReason.toStr : RejectReason → String
  | .invalidPrice => "INVALID_PRICE"
  | .invalidQuantity => "INVALID_QUANTITY"
  | .duplicateOrderId => "DUPLICATE_ORDER_ID"
  | .orderNotFound => "ORDER_NOT_FOUND"
  | .orderNotCancellable => "ORDER_NOT_CANCELLABLE"
  | .invalidModify => "INVALID_MODIFY"
  | .stopPriceInconsistent => "STOP_PRICE_INCONSISTENT"
  | .priceBandViolation => "PRICE_BAND_VIOLATION"
  | .maxSizeViolation => "MAX_SIZE_VIOLATION"
  | .marketExhausted => "MARKET_EXHAUSTED"
  | .none => "NONE"

/-- `serialize_event`; `src/serialization/serializer.cpp:115–177`. -/
def serializeEvent (dump : Json → String) : ExchangeEvent → String
  | .tradeExecuted e =>
    "TRADE " ++ dump (.object [("ts", .unsigned e.timestamp), ("type", .string "TRADE"),
      ("symbol", .string e.symbol), ("buy_id", .unsigned e.buyOrderId),
      ("sell_id", .unsigned e.sellOrderId), ("price", .number e.price),
      ("qty", .unsigned e.quantity)])
  | .bookUpdated e =>
    "BOOK " ++ dump (.object [("ts", .unsigned e.timestamp), ("type", .string "BOOK"),
      ("symbol", .string e.symbol), ("best_bid", .number e.bestBid),
      ("best_ask", .number e.bestAsk), ("spread", .number e.spread),
      ("bid_levels", .number e.bidLevels), ("ask_levels", .number e.askLevels)])
  | .snapshot e =>
    "SNAPSHOT " ++ dump (.object [("ts", .unsigned e.timestamp), ("type", .string "SNAPSHOT"),
      ("symbol", .string e.symbol), ("last_trade_price", .number e.lastTradePrice),
      ("best_bid", .number e.bestBid), ("best_ask", .number e.bestAsk),
      ("bids", .array (e.bids.map .level)), ("asks", .array (e.asks.map .level))])
  | .orderAccepted e =>
    "ACCEPTED " ++ dump (.object [("ts", .unsigned e.timestamp), ("type", .string "ACCEPTED"),
      ("symbol", .string e.symbol), ("order_id", .unsigned e.orderId),
      ("cid", .unsigned e.clientId), ("price", .number e.price), ("qty", .unsigned e.quantity),
      ("side", .string e.side.toStr), ("otype", .string e.type.toStr)])
  | .orderRejected e =>
    "REJECTED " ++ dump (.object [("ts", .unsigned e.timestamp), ("type", .string "REJECTED"),
      ("symbol", .string e.symbol), ("order_id", .unsigned e.orderId),
      ("cid", .unsigned e.clientId), ("reason", .string e.reason.toStr)])
  | .orderCanceled e =>
    "CANCELED " ++ dump (.object [("ts", .unsigned e.timestamp), ("type", .string "CANCELED"),
      ("symbol", .string e.symbol), ("order_id", .unsigned e.orderId),
      ("remaining_qty", .unsigned e.remainingQty)])

/-- A message begins with its topic. -/
private theorem serializeEvent_ne_empty (dump : Json → String) (e : ExchangeEvent) :
    serializeEvent dump e ≠ "" := by
  intro h
  have hnil := congrArg String.toList h
  cases e with
  | tradeExecuted | bookUpdated | snapshot | orderAccepted | orderRejected | orderCanceled =>
    rw [serializeEvent, String.toList_append] at hnil
    exact absurd hnil (by simp)

theorem serializeEvent_isEmpty (dump : Json → String) (e : ExchangeEvent) :
    (serializeEvent dump e).isEmpty = false := by
  rw [Bool.eq_false_iff]
  exact fun hempty ↦ serializeEvent_ne_empty dump e (String.isEmpty_iff.mp hempty)

end LobEngine
