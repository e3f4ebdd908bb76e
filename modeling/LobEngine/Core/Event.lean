import LobEngine.Core.Order

/-!
# Engine events and results

`src/core/event.hpp`, `src/core/trade.hpp`, `src/engine/matching_engine.hpp:10–14`.
-/

namespace LobEngine

/-- `struct NewOrderEvent`; `src/core/event.hpp:8–10`. -/
structure NewOrderEvent where
  order : Order
  deriving DecidableEq, Repr

/-- `struct CancelOrderEvent`; `src/core/event.hpp:12–15`. -/
structure CancelOrderEvent where
  orderId : OrderId := 0
  timestamp : Timestamp := 0
  deriving DecidableEq, Repr

/-- `struct ModifyOrderEvent`, where a zero field asks for no change;
`src/core/event.hpp:17–22`. -/
structure ModifyOrderEvent where
  orderId : OrderId := 0
  newPrice : Price := 0
  newQuantity : Quantity := 0
  timestamp : Timestamp := 0
  deriving DecidableEq, Repr

/-- `struct ReplaceOrderEvent`; `src/core/event.hpp:24–27`. -/
structure ReplaceOrderEvent where
  oldOrderId : OrderId := 0
  newOrder : Order
  deriving DecidableEq, Repr

/-- `using OrderEvent = std::variant<...>`; `src/core/event.hpp:29–30`. -/
inductive OrderEvent where
  | newOrder (e : NewOrderEvent)
  | cancelOrder (e : CancelOrderEvent)
  | modifyOrder (e : ModifyOrderEvent)
  | replaceOrder (e : ReplaceOrderEvent)
  deriving DecidableEq, Repr

/-- `struct Trade`; `src/core/trade.hpp:7–14`. -/
structure Trade where
  aggressorId : OrderId := 0
  passiveId : OrderId := 0
  price : Price := 0
  quantity : Quantity := 0
  timestamp : Timestamp := 0
  aggressorSide : AggressorSide := .none
  deriving DecidableEq, Repr

/-- `struct ExecutionReport`; `src/core/trade.hpp:23–30`. -/
structure ExecutionReport where
  orderId : OrderId := 0
  status : OrderStatus := .new
  cumulativeQty : Quantity := 0
  remainingQty : Quantity := 0
  avgFillPrice : Price := 0
  timestamp : Timestamp := 0
  deriving DecidableEq, Repr

/-- `struct Rejection`; `src/core/trade.hpp:32–36`. -/
structure Rejection where
  orderId : OrderId := 0
  reason : RejectReason := .none
  timestamp : Timestamp := 0
  deriving DecidableEq, Repr

/-- `struct MatchResult`; `src/engine/matching_engine.hpp:10–14`. -/
structure MatchResult where
  trades : List Trade := []
  reports : List ExecutionReport := []
  rejections : List Rejection := []
  deriving DecidableEq, Repr

namespace MatchResult

/-- Append a sub-result to a result, vector by vector;
`src/engine/matching_engine.cpp:225–229,333–337`. -/
def append (r sub : MatchResult) : MatchResult :=
  ⟨r.trades ++ sub.trades, r.reports ++ sub.reports, r.rejections ++ sub.rejections⟩

instance : Append MatchResult := ⟨append⟩

/-- `result.trades.push_back(trade)`. -/
def pushTrade (r : MatchResult) (t : Trade) : MatchResult := { r with trades := r.trades ++ [t] }

/-- `result.rejections.push_back(rej)`. -/
def pushRejection (r : MatchResult) (rej : Rejection) : MatchResult :=
  { r with rejections := r.rejections ++ [rej] }

@[simp] theorem trades_append (r q : MatchResult) : (r ++ q).trades = r.trades ++ q.trades := rfl
@[simp] theorem reports_append (r q : MatchResult) :
    (r ++ q).reports = r.reports ++ q.reports := rfl
@[simp] theorem rejections_append (r q : MatchResult) :
    (r ++ q).rejections = r.rejections ++ q.rejections := rfl

@[ext] theorem ext {r q : MatchResult} (ht : r.trades = q.trades) (hr : r.reports = q.reports)
    (hj : r.rejections = q.rejections) : r = q := by
  cases r
  cases q
  simp_all

/-- Results form a monoid under append. -/
theorem append_assoc (r q p : MatchResult) : r ++ q ++ p = r ++ (q ++ p) := by
  apply ext <;> simp

@[simp] theorem empty_append (r : MatchResult) : ({} : MatchResult) ++ r = r := by
  apply ext <;> simp

@[simp] theorem append_empty (r : MatchResult) : r ++ ({} : MatchResult) = r := by
  apply ext <;> simp

/-- Pushing a trade after a prefix is pushing it after the whole. -/
theorem append_pushTrade (r q : MatchResult) (t : Trade) :
    r ++ q.pushTrade t = (r ++ q).pushTrade t := by
  apply ext <;> simp [pushTrade]

theorem append_pushRejection (r q : MatchResult) (rej : Rejection) :
    r ++ q.pushRejection rej = (r ++ q).pushRejection rej := by
  apply ext <;> simp [pushRejection]

end MatchResult

end LobEngine
