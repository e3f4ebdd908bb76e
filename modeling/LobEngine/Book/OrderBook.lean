import LobEngine.Book.PriceLevel
import LobEngine.Lib.TreeMap

/-!
# The order book

`src/book/order_book.hpp`, `src/book/order_book.cpp`, over any price level. The two
sides differ only in their comparator, so a member that branches on the side is one
definition over `levels`.
-/

namespace LobEngine

open PriceLevelOps

/-- `class OrderBook`; `src/book/order_book.hpp:12–60`. -/
structure OrderBook (L : Type) where
  bids : Std.ExtTreeMap Price L Side.buy.cmp
  asks : Std.ExtTreeMap Price L Side.sell.cmp
  idMap : Std.ExtTreeMap OrderId Order
  lastTradePrice : Price

namespace OrderBook

variable {L : Type}

/-- A book without orders; `src/book/order_book.hpp:47,53–59`. -/
def empty : OrderBook L := ⟨∅, ∅, ∅, 0⟩

/-- `bids_` or `asks_`. -/
def levels (b : OrderBook L) : (side : Side) → Std.ExtTreeMap Price L side.cmp
  | .buy => b.bids
  | .sell => b.asks

/-- Replace `bids_` or `asks_`. -/
def setLevels (b : OrderBook L) : (side : Side) → Std.ExtTreeMap Price L side.cmp → OrderBook L
  | .buy, m => { b with bids := m }
  | .sell, m => { b with asks := m }

/-- `OrderBook::get_level`; `src/book/order_book.cpp:124–132`. -/
def getLevel (b : OrderBook L) (side : Side) (price : Price) : Option L := (b.levels side)[price]?

/-- Store a level back under its key, which a write through its address amounts to. -/
def setLevel (b : OrderBook L) (side : Side) (price : Price) (level : L) : OrderBook L :=
  b.setLevels side ((b.levels side).insert price level)

/-- `bids_.erase(lvl_it)` or `asks_.erase(lvl_it)`. -/
def eraseLevel (b : OrderBook L) (side : Side) (price : Price) : OrderBook L :=
  b.setLevels side ((b.levels side).erase price)

/-- `OrderBook::find_order`; `src/book/order_book.cpp:40–45`. -/
def findOrder (b : OrderBook L) (id : OrderId) : Option Order := b.idMap[id]?

/-- A write through the address that `find_order_mut` returned for `id`;
`src/book/order_book.cpp:49–54`. -/
def storeOrder (b : OrderBook L) (id : OrderId) (order : Order) : OrderBook L :=
  { b with idMap := b.idMap.insert id order }

/-- The orders in the identifier map. -/
def storedOrders (b : OrderBook L) : List Order := b.idMap.toList.map Prod.snd

variable [PriceLevelOps L]

/-- `OrderBook::insert_order`; `src/book/order_book.cpp:5–14`. -/
def insertOrder (b : OrderBook L) (order : Order) : OrderBook L :=
  let b := b.storeOrder order.id order
  let level := (b.getLevel order.side order.price).getD (ofPrice order.price)
  b.setLevel order.side order.price (pushBack level order.id order.visibleQty)

/-- `OrderBook::cancel_order`; `src/book/order_book.cpp:16–38`. -/
def cancelOrder (b : OrderBook L) (id : OrderId) : OrderBook L × Bool :=
  match b.idMap[id]? with
  | none => (b, false)
  | some order =>
    let b :=
      match b.getLevel order.side order.price with
      | none => b
      | some level =>
        let (isEmpty, level) := PriceLevelOps.empty (remove level id order.visibleQty)
        if isEmpty then b.eraseLevel order.side order.price
        else b.setLevel order.side order.price level
    ({ b with idMap := b.idMap.erase id }, true)

/-- `best_bid_level` or `best_ask_level`, with the key; `src/book/order_book.cpp:84–94`. -/
def bestLevel (b : OrderBook L) (side : Side) : Option (Price × L) := (b.levels side).first?

/-- `OrderBook::best_bid`; `src/book/order_book.cpp:56–60`. -/
def bestBid (b : OrderBook L) : Option Price := (b.bestLevel .buy).map Prod.fst

/-- `OrderBook::best_ask`; `src/book/order_book.cpp:62–66`. -/
def bestAsk (b : OrderBook L) : Option Price := (b.bestLevel .sell).map Prod.fst

/-- `OrderBook::spread`, before narrowing to 64 bits; `src/book/order_book.cpp:76–82`. -/
def spread (b : OrderBook L) : Option Price := do
  let bid ← b.bestBid
  let ask ← b.bestAsk
  return ask - bid

/-- `bid_level_count` and `ask_level_count`; `src/book/order_book.hpp:44–45`. -/
def levelCount (b : OrderBook L) (side : Side) : Nat := (b.levels side).size

/-- `OrderBook::order_count`; `src/book/order_book.hpp:43`. -/
def orderCount (b : OrderBook L) : Nat := b.idMap.size

/-- `order_ids()` of the level at a price, empty where there is no level. -/
def orderIds (b : OrderBook L) (side : Side) (price : Price) : List OrderId :=
  ((b.getLevel side price).map PriceLevelOps.orderIds).getD []

/-- The orders live at a price, first come first. -/
def ordersAt (b : OrderBook L) (side : Side) (p : Price) : List Order :=
  (b.orderIds side p).filterMap b.findOrder

/-- `front()` on the best level of a side: the identifier found, and the book with the
level drained. -/
def frontOrder (b : OrderBook L) (side : Side) : Option (OrderId × OrderBook L) :=
  match b.bestLevel side with
  | none => none
  | some (price, level) =>
    let (id, level) := front level
    id.map (·, b.setLevel side price level)

/-- `OrderBook::reduce_level_volume`; `src/book/order_book.cpp:112–122`. -/
def reduceLevelVolume (b : OrderBook L) (side : Side) (price : Price) (delta : Quantity) :
    OrderBook L :=
  match b.getLevel side price with
  | none => b
  | some level => b.setLevel side price (reduceFrontVolume level delta)

/-- `level->pop_front(filled)` and `level->push_back(id, newPeak)`, the queue operations of
`replenish_iceberg`; `src/engine/matching_engine.cpp:170,176`. `none` is `pop_front` on an
empty deque. -/
def rotateLevel (b : OrderBook L) (side : Side) (price : Price) (id : OrderId)
    (filledQty newPeak : Quantity) : Option (OrderBook L) := do
  let level ← b.getLevel side price
  let level ← popFront level filledQty
  return b.setLevel side price (pushBack level id newPeak)

/-! ### Field lemmas -/

section Fields

omit [PriceLevelOps L]

@[simp] theorem levels_setLevels (b : OrderBook L) (side : Side) (m) :
    (b.setLevels side m).levels side = m := by
  cases side <;> rfl

theorem levels_setLevels_opposite (b : OrderBook L) (side : Side) (m) :
    (b.setLevels side m).levels side.opposite = b.levels side.opposite := by
  cases side <;> rfl

@[simp] theorem idMap_setLevels (b : OrderBook L) (side : Side) (m) :
    (b.setLevels side m).idMap = b.idMap := by
  cases side <;> rfl

@[simp] theorem lastTradePrice_setLevels (b : OrderBook L) (side : Side) (m) :
    (b.setLevels side m).lastTradePrice = b.lastTradePrice := by
  cases side <;> rfl

@[simp] theorem findOrder_setLevel (b : OrderBook L) (side : Side) (p : Price) (l : L)
    (id : OrderId) : (b.setLevel side p l).findOrder id = b.findOrder id := by
  rw [findOrder, setLevel, idMap_setLevels, findOrder]

@[simp] theorem lastTradePrice_setLevel (b : OrderBook L) (side : Side) (p : Price) (l : L) :
    (b.setLevel side p l).lastTradePrice = b.lastTradePrice := by
  rw [setLevel, lastTradePrice_setLevels]

@[simp] theorem getLevel_storeOrder (b : OrderBook L) (id : OrderId) (o : Order) (side : Side)
    (p : Price) : (b.storeOrder id o).getLevel side p = b.getLevel side p := by
  cases side <;> rfl

theorem findOrder_storeOrder (b : OrderBook L) (id x : OrderId) (o : Order) :
    (b.storeOrder id o).findOrder x = if id = x then some o else b.findOrder x := by
  simp [findOrder, storeOrder, Std.ExtTreeMap.getElem?_insert]

theorem mem_storedOrders_of_find {b : OrderBook L} {id : OrderId} {o : Order}
    (h : b.findOrder id = some o) : o ∈ b.storedOrders :=
  List.mem_map.mpr ⟨(id, o), Std.ExtTreeMap.mem_toList_iff_getElem?_eq_some.mpr h, rfl⟩

/-- Setting one level changes that lookup only. -/
theorem getLevel_setLevel (b : OrderBook L) (side : Side) (p : Price) (l : L) (side' : Side)
    (p' : Price) : (b.setLevel side p l).getLevel side' p' =
      if side = side' ∧ p = p' then some l else b.getLevel side' p' := by
  rcases Side.eq_or_eq_opposite side' side with rfl | rfl
  · simp only [getLevel, setLevel, levels_setLevels, Std.ExtTreeMap.getElem?_insert,
      Std.LawfulEqCmp.compare_eq_iff_eq, true_and]
  · simp only [getLevel, setLevel, levels_setLevels_opposite,
      (Side.opposite_ne side).symm, false_and,
      ↓reduceIte]

/-- Erasing one level changes that lookup only. -/
private theorem getLevel_eraseLevel (b : OrderBook L) (side : Side) (p : Price) (side' : Side)
    (p' : Price) : (b.eraseLevel side p).getLevel side' p' =
      if side = side' ∧ p = p' then none else b.getLevel side' p' := by
  rcases Side.eq_or_eq_opposite side' side with rfl | rfl
  · simp only [getLevel, eraseLevel, levels_setLevels, Std.ExtTreeMap.getElem?_erase,
      Std.LawfulEqCmp.compare_eq_iff_eq, true_and]
  · simp only [getLevel, eraseLevel, levels_setLevels_opposite,
      (Side.opposite_ne side).symm, false_and,
      ↓reduceIte]

end Fields

omit [PriceLevelOps L] in
/-- The best price of a side is the first key of its map. -/
theorem best_iff {b : OrderBook L} {side : Side} {p : Price} :
    (b.bestLevel side).map Prod.fst = some p ↔
      p ∈ b.levels side ∧ ∀ q ∈ b.levels side, (side.cmp p q).isLE = true := by
  simp only [Option.map_eq_some_iff, Prod.exists, exists_and_right, exists_eq_right]
  constructor
  · rintro ⟨l, hl⟩
    obtain ⟨hg, hle⟩ := Std.ExtTreeMap.first?_eq_some_iff.mp hl
    refine ⟨?_, hle⟩
    rw [Std.ExtTreeMap.mem_iff_isSome_getElem?, hg]
    rfl
  · rintro ⟨hp, hle⟩
    obtain ⟨l, hg⟩ := Option.isSome_iff_exists.mp (Std.ExtTreeMap.mem_iff_isSome_getElem?.mp hp)
    exact ⟨l, Std.ExtTreeMap.first?_eq_some_iff.mpr ⟨hg, hle⟩⟩

theorem findOrder_insertOrder (b : OrderBook L) (o : Order) (id : OrderId) :
    (b.insertOrder o).findOrder id = if o.id = id then some o else b.findOrder id := by
  rw [insertOrder, findOrder_setLevel, findOrder_storeOrder]

/-- `cancel_order` erases the identifier, whatever happens to the level. -/
private theorem idMap_cancelOrder (b : OrderBook L) (id : OrderId) :
    (b.cancelOrder id).1.idMap = b.idMap.erase id := by
  rw [cancelOrder]
  cases ho : b.idMap[id]? with
  | none =>
    simp only
    apply Std.ExtTreeMap.ext_getElem?
    intro x
    rw [Std.ExtTreeMap.getElem?_erase]
    split
    · next hx =>
      rw [Std.LawfulEqCmp.compare_eq_iff_eq] at hx
      rw [← hx, ho]
    · rfl
  | some order =>
    simp only
    split
    · rfl
    · split <;> simp [eraseLevel, setLevel]

theorem findOrder_cancelOrder (b : OrderBook L) (id x : OrderId) :
    (b.cancelOrder id).1.findOrder x = if id = x then none else b.findOrder x := by
  rw [findOrder, idMap_cancelOrder, Std.ExtTreeMap.getElem?_erase, findOrder]
  simp only [Std.LawfulEqCmp.compare_eq_iff_eq]

/-- The levels after `cancel_order` on a stored order. -/
theorem getLevel_cancelOrder {b : OrderBook L} {id : OrderId} {o : Order} {l l' : L} {e : Bool}
    (ho : b.findOrder id = some o) (hg : b.getLevel o.side o.price = some l)
    (he : PriceLevelOps.empty (remove l id o.visibleQty) = (e, l')) (side : Side) (p : Price) :
    (b.cancelOrder id).1.getLevel side p =
      if o.side = side ∧ o.price = p then if e then none else some l'
      else b.getLevel side p := by
  rw [OrderBook.findOrder] at ho
  have hc : (b.cancelOrder id).1.getLevel side p =
      (if e then b.eraseLevel o.side o.price
        else b.setLevel o.side o.price l').getLevel side p := by
    simp only [OrderBook.cancelOrder, ho, hg, he]
    cases side <;> rfl
  rw [hc]
  cases e with
  | true => simp only [↓reduceIte, OrderBook.getLevel_eraseLevel]
  | false => simp only [Bool.false_eq_true, ↓reduceIte, OrderBook.getLevel_setLevel]

theorem lastTradePrice_cancelOrder (b : OrderBook L) (id : OrderId) :
    (b.cancelOrder id).1.lastTradePrice = b.lastTradePrice := by
  rw [cancelOrder]
  split
  · rfl
  · simp only
    split
    · rfl
    · split <;> simp [eraseLevel, setLevel]

end OrderBook

end LobEngine
