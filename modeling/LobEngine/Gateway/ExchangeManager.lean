import LobEngine.Engine.MatchingEngine
import LobEngine.Gateway.Message

/-!
# The exchange manager

`src/gateway/exchange_manager.hpp`, `src/gateway/exchange_manager.cpp`: one matching engine for
each instrument, and the translation between messages and engine events. The two readings of
the clock that `process` can make are parameters.
-/

namespace LobEngine

open Engine

/-- `kInstrumentCount`; `src/gateway/exchange_manager.hpp:18`. -/
abbrev instrumentCount : Nat := 25

/-- `struct Instrument`; `src/gateway/exchange_manager.hpp:50–62`. -/
structure Instrument where
  symbol : String
  engine : Engine (OrderBook PriceLevel)

/-- `class ExchangeManager`. Every position in the index is one of an instrument;
`src/gateway/exchange_manager.hpp:64–65`. -/
structure ExchangeManager where
  instruments : Vector Instrument instrumentCount
  index : Std.ExtTreeMap String (Fin instrumentCount)

/-- The order a message describes; `src/gateway/exchange_manager.cpp:53–63`. -/
def OrderMessage.order (msg : OrderMessage) (now : Timestamp) : Order where
  id := msg.orderId
  side := msg.side
  type := msg.type
  price := msg.price
  stopPrice := msg.stopPrice
  quantity := msg.quantity
  origQty := msg.quantity
  peakQty := msg.peakQty
  timestamp := if msg.timestamp != 0 then msg.timestamp else now
  status := .new

/-- The engine event for a message; `src/gateway/exchange_manager.cpp:45–65`. -/
def OrderMessage.event (msg : OrderMessage) (now : Timestamp) : OrderEvent :=
  match msg.action with
  | .cancelOrder => .cancelOrder { orderId := msg.orderId, timestamp := msg.timestamp }
  | .newOrder => .newOrder ⟨msg.order now⟩

namespace ExchangeManager

/-- The symbol of the instrument at a position; `src/gateway/exchange_manager.cpp:14`. -/
def symbolAt (i : Fin instrumentCount) : String := "STOCK_" ++ toString (i.val + 1)

/-- `ExchangeManager::ExchangeManager`; `src/gateway/exchange_manager.cpp:11–18`. -/
def init : ExchangeManager where
  instruments := Vector.ofFn fun i ↦ ⟨symbolAt i, Engine.init⟩
  index := (List.finRange instrumentCount).foldl (fun index i ↦ index.insert (symbolAt i) i) ∅

/-- `ExchangeManager::has_symbol`; `src/gateway/exchange_manager.cpp:20–22`. -/
def hasSymbol (m : ExchangeManager) (sym : String) : Bool := m.index.contains sym

/-- The engine at a position. -/
def engineAt (m : ExchangeManager) (i : Fin instrumentCount) : Engine (OrderBook PriceLevel) :=
  m.instruments[i].engine

/-- Store the engine at a position. -/
def setEngine (m : ExchangeManager) (i : Fin instrumentCount)
    (engine : Engine (OrderBook PriceLevel)) : ExchangeManager :=
  { m with instruments := m.instruments.set i { m.instruments[i] with engine := engine } }

/-- The engine of a symbol. -/
def engine? (m : ExchangeManager) (sym : String) : Option (Engine (OrderBook PriceLevel)) :=
  (m.index[sym]?).map m.engineAt

/-- The event for a rejection; `src/gateway/exchange_manager.cpp:88–96`. -/
def rejectedEvent (msg : OrderMessage) (ts : Timestamp) (rej : Rejection) : OrderRejectedEvent where
  timestamp := ts
  symbol := msg.symbol
  orderId := rej.orderId
  clientId := msg.clientId
  reason := rej.reason

/-- The event for a cancel confirmation; `src/gateway/exchange_manager.cpp:101–106`. -/
def canceledEvent (msg : OrderMessage) (ts : Timestamp) (rep : ExecutionReport) :
    OrderCanceledEvent where
  timestamp := ts
  symbol := msg.symbol
  orderId := rep.orderId
  remainingQty := rep.remainingQty

/-- The event for a trade; `src/gateway/exchange_manager.cpp:110–121`. -/
def tradeEvent (msg : OrderMessage) (ts : Timestamp) (trade : Trade) : TradeExecutedEvent where
  timestamp := ts
  symbol := msg.symbol
  buyOrderId := if trade.aggressorSide = .buy then trade.aggressorId else trade.passiveId
  sellOrderId := if trade.aggressorSide = .buy then trade.passiveId else trade.aggressorId
  price := trade.price
  quantity := trade.quantity

/-- The event for an accepted order; `src/gateway/exchange_manager.cpp:125–134`. -/
def acceptedEvent (msg : OrderMessage) (ts : Timestamp) : OrderAcceptedEvent where
  timestamp := ts
  symbol := msg.symbol
  orderId := msg.orderId
  clientId := msg.clientId
  price := msg.price
  quantity := msg.quantity
  side := msg.side
  type := msg.type

/-- The event that closes every answer; `src/gateway/exchange_manager.cpp:139–147`. -/
def bookEvent (msg : OrderMessage) (ts : Timestamp) (book : OrderBook PriceLevel) :
    BookUpdatedEvent where
  timestamp := ts
  symbol := msg.symbol
  bestBid := book.bestBid.getD 0
  bestAsk := book.bestAsk.getD 0
  spread := book.spread.getD 0
  bidLevels := book.levelCount .buy
  askLevels := book.levelCount .sell

/-- `ExchangeManager::translate_result`; `src/gateway/exchange_manager.cpp:80–151`. -/
def translateResult (ts : Timestamp) (msg : OrderMessage) (res : MatchResult)
    (book : OrderBook PriceLevel) : List ExchangeEvent :=
  res.rejections.map (fun rej ↦ .orderRejected (rejectedEvent msg ts rej)) ++
    (res.reports.filter (·.status = .cancelled)).map
      (fun rep ↦ .orderCanceled (canceledEvent msg ts rep)) ++
    res.trades.map (fun trade ↦ .tradeExecuted (tradeEvent msg ts trade)) ++
    (if msg.action = .newOrder ∧ res.rejections = [] then [.orderAccepted (acceptedEvent msg ts)]
      else []) ++
    [.bookUpdated (bookEvent msg ts book)]

/-- `ExchangeManager::process`; `src/gateway/exchange_manager.cpp:38–67`. The clock reads `now`
for the order and `ts` for the answer. -/
def process (fuel : Nat) (now ts : Timestamp) (m : ExchangeManager) (msg : OrderMessage) :
    Except Fault (ExchangeManager × List ExchangeEvent) :=
  match m.index[msg.symbol]? with
  | none => .ok (m, [])
  | some i => do
    let (engine, result) ← (m.engineAt i).submit fuel (msg.event now)
    return (m.setEngine i engine, translateResult ts msg result engine.book)

/-- The published depth of one side; `src/gateway/exchange_manager.cpp:171–177`. -/
def depth (book : OrderBook PriceLevel) (side : Side) : List (Price × Quantity) :=
  (book.levels side).toList.map fun entry ↦ (entry.1, entry.2.totalVolume)

/-- `ExchangeManager::snapshot`; `src/gateway/exchange_manager.cpp:157–180`. `none` is the
failed assertion on an unknown symbol. -/
def snapshot (m : ExchangeManager) (now : Timestamp) (symbol : String) : Option SnapshotEvent :=
  (m.engine? symbol).map fun engine ↦
    { timestamp := now
      symbol := symbol
      lastTradePrice := engine.book.lastTradePrice
      bestBid := engine.book.bestBid.getD 0
      bestAsk := engine.book.bestAsk.getD 0
      bids := depth engine.book .buy
      asks := depth engine.book .sell }

/-- `ExchangeManager::snapshot_all`, which reads the clock once for each instrument;
`src/gateway/exchange_manager.cpp:182–188`. -/
def snapshotAll (m : ExchangeManager) (stamps : Fin instrumentCount → Timestamp) :
    Option (List SnapshotEvent) :=
  (List.finRange instrumentCount).mapM fun i ↦ m.snapshot (stamps i) m.instruments[i].symbol

end ExchangeManager

end LobEngine
