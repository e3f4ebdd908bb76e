import LobEngine.Book.BookOps
import LobEngine.Core.Event

/-!
# The matching engine

`src/engine/matching_engine.hpp`, `src/engine/matching_engine.cpp`, over any book. The
mutual recursion of matching and stop triggers runs on fuel: every call spends one unit,
and running out is a fault of its own, told apart from the two lookups the code leaves
unchecked. `ghost` records fills, exhaustion and conversions in the order in which they
happen; nothing reads it. `config_` is never read by the engine and is left out.
-/

namespace LobEngine

open BookOps

/-- Where a run of the engine has no result. `emptyLevel` is `front()` or `pop_front()` of
an empty deque, `missingOrder` a null `find_order_mut`. -/
inductive Fault where
  | outOfFuel
  | emptyLevel
  | missingOrder
  deriving DecidableEq, Repr

/-- What the ghost log records. -/
inductive GhostEvent where
  | fill (trade : Trade)
  | exhausted (rejection : Rejection)
  | triggered (stop : Order)
  deriving DecidableEq, Repr

/-- `class MatchingEngine`; `src/engine/matching_engine.hpp:16–54`. -/
structure Engine (B : Type) where
  book : B
  sequence : UInt64
  pendingStops : List Order
  ghost : List GhostEvent

namespace Engine

variable {B : Type} [BookOps B]

/-- A new engine; `src/engine/matching_engine.cpp:8`. -/
def init : Engine B := ⟨BookOps.empty, 0, [], []⟩

/-- Append to the ghost log. -/
def log (s : Engine B) (e : GhostEvent) : Engine B := { s with ghost := s.ghost ++ [e] }

/-- `book_.insert_order(order)`. -/
def insert (s : Engine B) (order : Order) : Engine B :=
  { s with book := insertOrder s.book order }

/-- Whether a stop is converted on submission; `src/engine/matching_engine.cpp:40–46`. -/
def immediatelyTriggered (s : Engine B) (order : Order) : Bool :=
  lastTradePrice s.book != 0 && order.triggeredAt (lastTradePrice s.book)

/-- The passive order of one iteration of a match loop: `front()`, then `find_order_mut`;
`src/engine/matching_engine.cpp:83–85,112–113`. -/
def pickPassive (b : B) (side : Side) : Except Fault (OrderId × Order × B) :=
  match frontOrder b side with
  | none => .error .emptyLevel
  | some (passiveId, b) =>
    match findOrder b passiveId with
    | none => .error .missingOrder
    | some passive => .ok (passiveId, passive, b)

/-- `MatchingEngine::replenish_iceberg`, on the order stored under `key`;
`src/engine/matching_engine.cpp:164–178`. -/
def replenishIceberg (b : B) (key : OrderId) (passive : Order) (filledQty : Quantity) :
    Except Fault B :=
  if hasLevel b passive.side passive.price then
    let newPeak := min passive.peakQty passive.reserveQty
    match rotateLevel b passive.side passive.price passive.id filledQty newPeak with
    | none => .error .emptyLevel
    | some b =>
      let passive :=
        { passive with reserveQty := passive.reserveQty - newPeak, quantity := newPeak }
      .ok (updateOrderQuantity (storeOrder b key passive) passive.id newPeak)
  else .ok b

/-- What `execute_fill` does to the book; `src/engine/matching_engine.cpp:131–133,143–155`. -/
def settlePassive (b : B) (key : OrderId) (passive : Order) (fillQty : Quantity) :
    Except Fault B :=
  let passive := { passive with quantity := passive.quantity - fillQty }
  let b := setLastTradePrice (storeOrder b key passive) passive.price
  if passive.quantity = 0 ∧ passive.isIceberg ∧ passive.reserveQty > 0 then
    replenishIceberg b key passive fillQty
  else if passive.quantity = 0 then
    .ok (cancelOrder (storeOrder b key { passive with status := .filled }) passive.id)
  else
    .ok (updateOrderQuantity (reduceLevelVolume b passive.side passive.price fillQty)
      passive.id passive.quantity)

/-- The trade of a fill; `src/engine/matching_engine.cpp:135–140`. -/
def fillTrade (aggressor passive : Order) (fillQty : Quantity) : Trade where
  aggressorId := aggressor.id
  passiveId := passive.id
  price := passive.price
  quantity := fillQty
  aggressorSide := if aggressor.isBuy then .buy else .sell

/-- `execute_fill` before the stop evaluation; `src/engine/matching_engine.cpp:126–155`. -/
def debitFill (s : Engine B) (aggressor : Order) (key : OrderId) (passive : Order)
    (fillQty : Quantity) : Except Fault (Engine B × Order × Trade) := do
  let book ← settlePassive s.book key passive fillQty
  let trade := fillTrade aggressor passive fillQty
  return ({ s with book := book }.log (.fill trade),
    { aggressor with quantity := aggressor.quantity - fillQty }, trade)

/-- The status a match loop leaves on its aggressor;
`src/engine/matching_engine.cpp:91–92,119–120`. -/
def markFilled (aggressor : Order) : Order :=
  if aggressor.quantity = 0 then { aggressor with status := .filled } else aggressor

@[simp] theorem markFilled_type (o : Order) : (markFilled o).type = o.type := by
  rw [markFilled]
  split <;> rfl

@[simp] theorem markFilled_quantity (o : Order) : (markFilled o).quantity = o.quantity := by
  rw [markFilled]
  split <;> rfl

@[simp] theorem markFilled_reserveQty (o : Order) : (markFilled o).reserveQty = o.reserveQty := by
  rw [markFilled]
  split <;> rfl

/-- The rejection of a market order that finds no level;
`src/engine/matching_engine.cpp:104–106`. -/
def exhaustion (aggressor : Order) : Rejection where
  orderId := aggressor.id
  reason := .marketExhausted

/-- An iceberg order split into peak and reserve; `src/engine/matching_engine.cpp:54–55`. -/
def splitIceberg (order : Order) : Order :=
  { order with reserveQty := order.quantity - order.peakQty, quantity := order.peakQty }

mutual

/-- `MatchingEngine::process_new_order`; `src/engine/matching_engine.cpp:27–65`. -/
def processNewOrder (fuel : Nat) (s : Engine B) (o : Order) :
    Except Fault (Engine B × MatchResult) :=
  match fuel with
  | 0 => .error .outOfFuel
  | fuel + 1 =>
    let order := { o with status := .resting }
    match order.type with
    | .limit => do
      let (s, order, result) ← matchLimit fuel s order {}
      return (if order.quantity > 0 then s.insert order else s, result)
    | .market => do
      let (s, _, result) ← matchMarket fuel s order {}
      return (s, result)
    | .stop | .stopLimit =>
      if s.immediatelyTriggered order then processTriggeredStop fuel s order {}
      else return ({ s with pendingStops := s.pendingStops ++ [order] }, {})
    | .iceberg => do
      let (s, order, result) ← matchLimit fuel s (splitIceberg order) {}
      return (if order.quantity > 0 ∨ order.reserveQty > 0 then s.insert order else s, result)

/-- `MatchingEngine::match_limit`; `src/engine/matching_engine.cpp:70–93`. -/
def matchLimit (fuel : Nat) (s : Engine B) (aggressor : Order) (result : MatchResult) :
    Except Fault (Engine B × Order × MatchResult) :=
  match fuel with
  | 0 => .error .outOfFuel
  | fuel + 1 =>
    if aggressor.quantity > 0 then
      match bestPrice s.book aggressor.side.opposite with
      | none => return (s, markFilled aggressor, result)
      | some levelPrice =>
        if aggressor.crosses levelPrice then do
          let (passiveId, passive, book) ← pickPassive s.book aggressor.side.opposite
          let fillQty := min aggressor.quantity passive.quantity
          let (s, aggressor, result) ←
            executeFill fuel { s with book := book } aggressor passiveId passive fillQty result
          matchLimit fuel s aggressor result
        else return (s, markFilled aggressor, result)
    else return (s, markFilled aggressor, result)

/-- `MatchingEngine::match_market`; `src/engine/matching_engine.cpp:98–121`. -/
def matchMarket (fuel : Nat) (s : Engine B) (aggressor : Order) (result : MatchResult) :
    Except Fault (Engine B × Order × MatchResult) :=
  match fuel with
  | 0 => .error .outOfFuel
  | fuel + 1 =>
    if aggressor.quantity > 0 then
      match bestPrice s.book aggressor.side.opposite with
      | none =>
        let rej := exhaustion aggressor
        return (s.log (.exhausted rej), { aggressor with status := .cancelled },
          result.pushRejection rej)
      | some _ => do
        let (passiveId, passive, book) ← pickPassive s.book aggressor.side.opposite
        let fillQty := min aggressor.quantity passive.quantity
        let (s, aggressor, result) ←
          executeFill fuel { s with book := book } aggressor passiveId passive fillQty result
        matchMarket fuel s aggressor result
    else return (s, markFilled aggressor, result)

/-- `MatchingEngine::execute_fill`; `src/engine/matching_engine.cpp:126–158`. -/
def executeFill (fuel : Nat) (s : Engine B) (aggressor : Order) (key : OrderId)
    (passive : Order) (fillQty : Quantity) (result : MatchResult) :
    Except Fault (Engine B × Order × MatchResult) :=
  match fuel with
  | 0 => .error .outOfFuel
  | fuel + 1 => do
    let (s, aggressor, trade) ← debitFill s aggressor key passive fillQty
    let (s, result) ← evaluateStopTriggers fuel s (result.pushTrade trade)
    return (s, aggressor, result)

/-- `MatchingEngine::evaluate_stop_triggers`; `src/engine/matching_engine.cpp:187–196`. -/
def evaluateStopTriggers (fuel : Nat) (s : Engine B) (result : MatchResult) :
    Except Fault (Engine B × MatchResult) :=
  match fuel with
  | 0 => .error .outOfFuel
  | fuel + 1 =>
    if s.pendingStops = [] then return (s, result)
    else if lastTradePrice s.book = 0 then return (s, result)
    else
      triggerLoop fuel { s with pendingStops := [] } (lastTradePrice s.book) s.pendingStops
        result

/-- The loop over the swapped-out stops; `src/engine/matching_engine.cpp:198–210`. -/
def triggerLoop (fuel : Nat) (s : Engine B) (lastPrice : Price) (working : List Order)
    (result : MatchResult) : Except Fault (Engine B × MatchResult) :=
  match fuel with
  | 0 => .error .outOfFuel
  | fuel + 1 =>
    match working with
    | [] => return (s, result)
    | stop :: working =>
      if stop.triggeredAt lastPrice then do
        let (s, result) ← processTriggeredStop fuel s stop result
        triggerLoop fuel s lastPrice working result
      else
        triggerLoop fuel { s with pendingStops := s.pendingStops ++ [stop] } lastPrice working
          result

/-- `MatchingEngine::process_triggered_stop`; `src/engine/matching_engine.cpp:213–230`. -/
def processTriggeredStop (fuel : Nat) (s : Engine B) (stop : Order) (result : MatchResult) :
    Except Fault (Engine B × MatchResult) :=
  match fuel with
  | 0 => .error .outOfFuel
  | fuel + 1 => do
    let (s, subResult) ← processNewOrder fuel (s.log (.triggered stop)) stop.converted
    return (s, result ++ subResult)

end

/-- A rejected request; `src/engine/matching_engine.cpp:253–257,262–266,287–290,323–326`. -/
def rejected (id : OrderId) (reason : RejectReason) (timestamp : Timestamp) : MatchResult :=
  { rejections := [{ orderId := id, reason := reason, timestamp := timestamp }] }

/-- A cancel confirmation; `src/engine/matching_engine.cpp:240–245,272–277`. -/
def cancelled (id : OrderId) (remainingQty : Quantity) (timestamp : Timestamp) : MatchResult :=
  { reports := [{ orderId := id, status := .cancelled, remainingQty := remainingQty
                  timestamp := timestamp }] }

/-- `MatchingEngine::process_cancel`; `src/engine/matching_engine.cpp:235–280`. -/
def processCancel (s : Engine B) (e : CancelOrderEvent) : Engine B × MatchResult :=
  match s.pendingStops.find? (·.id == e.orderId) with
  | some stop =>
    ({ s with pendingStops := s.pendingStops.eraseP (·.id == e.orderId) },
      cancelled e.orderId stop.quantity e.timestamp)
  | none =>
    match findOrder s.book e.orderId with
    | none => (s, rejected e.orderId .orderNotFound e.timestamp)
    | some order =>
      if order.isResting then
        ({ s with book := cancelOrder s.book e.orderId },
          cancelled e.orderId order.quantity e.timestamp)
      else (s, rejected e.orderId .orderNotCancellable e.timestamp)

/-- Whether a modify sends the order to the back of a queue: its price changes or its
quantity grows; `src/engine/matching_engine.cpp:295–298`. -/
def requeues (e : ModifyOrderEvent) (order : Order) : Bool :=
  (e.newPrice != 0 && e.newPrice != order.price) ||
    (e.newQuantity != 0 && decide (e.newQuantity > order.quantity))

/-- The order a requeueing modify inserts; `src/engine/matching_engine.cpp:301–305`. -/
def modified (e : ModifyOrderEvent) (order : Order) : Order :=
  { order with
    price := if e.newPrice != 0 then e.newPrice else order.price
    quantity := if e.newQuantity != 0 then e.newQuantity else order.quantity
    timestamp := e.timestamp }

/-- `MatchingEngine::process_modify`; `src/engine/matching_engine.cpp:282–317`. -/
def processModify (s : Engine B) (e : ModifyOrderEvent) : Engine B × MatchResult :=
  match findOrder s.book e.orderId with
  | none => (s, rejected e.orderId .orderNotFound 0)
  | some order =>
    if order.isResting then
      if requeues e order then
        ({ s with book := insertOrder (cancelOrder s.book e.orderId) (modified e order) }, {})
      else if e.newQuantity != 0 && decide (e.newQuantity < order.quantity) then
        let book := updateOrderQuantity s.book e.orderId e.newQuantity
        ({ s with book :=
            reduceLevelVolume book order.side order.price (order.quantity - e.newQuantity) }, {})
      else (s, {})
    else (s, rejected e.orderId .orderNotCancellable 0)

/-- `MatchingEngine::process_replace`; `src/engine/matching_engine.cpp:319–339`. -/
def processReplace (fuel : Nat) (s : Engine B) (e : ReplaceOrderEvent) :
    Except Fault (Engine B × MatchResult) :=
  if hasOrder s.book e.oldOrderId then
    processNewOrder fuel { s with book := cancelOrder s.book e.oldOrderId } e.newOrder
  else return (s, rejected e.oldOrderId .orderNotFound 0)

/-- `MatchingEngine::submit`; `src/engine/matching_engine.cpp:10–25`. -/
def submit (fuel : Nat) (s : Engine B) (event : OrderEvent) :
    Except Fault (Engine B × MatchResult) :=
  let s := { s with sequence := s.sequence + 1 }
  match event with
  | .newOrder e => processNewOrder fuel s e.order
  | .cancelOrder e => return s.processCancel e
  | .modifyOrder e => return s.processModify e
  | .replaceOrder e => processReplace fuel s e

end Engine

end LobEngine
