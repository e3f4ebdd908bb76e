import LobEngine.Book.OrderBook

/-!
# What the engine asks of a book

The members of `OrderBook`, and of the levels it hands out, that
`src/engine/matching_engine.cpp` calls. The engine is written once over this interface,
so that the book of the code and the reference book run under the same control flow.
-/

namespace LobEngine

/-- The book operations of the matching engine. `frontOrder` is `front()` on the best level
of a side, with the book it leaves behind; `hasLevel` is `get_level(..) != nullptr`. -/
class BookOps (B : Type) where
  empty : B
  lastTradePrice : B → Price
  setLastTradePrice : B → Price → B
  findOrder : B → OrderId → Option Order
  storeOrder : B → OrderId → Order → B
  insertOrder : B → Order → B
  cancelOrder : B → OrderId → B
  bestPrice : B → Side → Option Price
  frontOrder : B → Side → Option (OrderId × B)
  hasLevel : B → Side → Price → Bool
  reduceLevelVolume : B → Side → Price → Quantity → B
  rotateLevel : B → Side → Price → OrderId → Quantity → Quantity → Option B

namespace BookOps

variable {B : Type} [BookOps B]

/-- `OrderBook::has_order`; `src/book/order_book.cpp:47`. -/
def hasOrder (b : B) (id : OrderId) : Bool := (findOrder b id).isSome

/-- `OrderBook::update_order_quantity`; `src/book/order_book.cpp:106–110`. -/
def updateOrderQuantity (b : B) (id : OrderId) (newQty : Quantity) : B :=
  match findOrder b id with
  | none => b
  | some order => storeOrder b id { order with quantity := newQty }

end BookOps

/-- The book of the code. `bestPrice` is `price()` of the best level. -/
instance {L : Type} [PriceLevelOps L] : BookOps (OrderBook L) where
  empty := .empty
  lastTradePrice := OrderBook.lastTradePrice
  setLastTradePrice b p := { b with lastTradePrice := p }
  findOrder := OrderBook.findOrder
  storeOrder := OrderBook.storeOrder
  insertOrder := OrderBook.insertOrder
  cancelOrder b id := (b.cancelOrder id).1
  bestPrice b side := (b.bestLevel side).map fun entry ↦ PriceLevelOps.price entry.2
  frontOrder := OrderBook.frontOrder
  hasLevel b side price := (b.getLevel side price).isSome
  reduceLevelVolume := OrderBook.reduceLevelVolume
  rotateLevel := OrderBook.rotateLevel

end LobEngine
