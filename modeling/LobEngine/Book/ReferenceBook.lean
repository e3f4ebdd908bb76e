import LobEngine.Book.BookOps
import LobEngine.Lib.Ladder

/-!
# The reference book

Each side is one list of whole orders, sorted by price priority and then by queue
position. Orders are erased at once, an iceberg whose peak is replenished goes behind the
other orders of its price, and no volumes are kept.
-/

namespace LobEngine

/-- The order is on a side, at a price. -/
def Order.restsAt (side : Side) (p : Price) (o : Order) : Bool :=
  o.side == side && o.price == p

theorem Order.restsAt_iff {side : Side} {p : Price} {o : Order} :
    o.restsAt side p = true ↔ o.side = side ∧ o.price = p := by
  rw [Order.restsAt, Bool.and_eq_true, beq_iff_eq, beq_iff_eq]

/-- One side of the reference book: sorted by price priority, every order on that side. -/
structure BookSide (side : Side) where
  ladder : Ladder side.cmp Order.price
  mine : ∀ o ∈ ladder.items, o.side = side

namespace BookSide

variable {side : Side}

/-- A side without orders. -/
def empty : BookSide side := ⟨.empty, fun _ h ↦ absurd h List.not_mem_nil⟩

/-- The orders of the side, best first. -/
def orders (s : BookSide side) : List Order := s.ladder.items

/-- The orders at one price, first come first. -/
def atPrice (s : BookSide side) (price : Price) : List Order := s.ladder.rung price

/-- Add an order behind its price. -/
def insert (s : BookSide side) (o : Order) (ho : o.side = side) : BookSide side where
  ladder := s.ladder.insert o
  mine x hx := by
    rcases Ladder.mem_insert.mp hx with rfl | hx
    · exact ho
    · exact s.mine x hx

/-- Erase the orders with an identifier. -/
def erase (s : BookSide side) (id : OrderId) : BookSide side where
  ladder := s.ladder.filter (·.id != id)
  mine x hx := s.mine x (List.mem_filter.mp hx).1

/-- Overwrite the order with an identifier, which keeps its place in the list. -/
def overwrite (id : OrderId) (o x : Order) : Order :=
  if x.id = id then { o with id := x.id, side := x.side, price := x.price } else x

private theorem overwrite_id (id : OrderId) (o x : Order) : (overwrite id o x).id = x.id := by
  rw [overwrite]
  split <;> rfl

private theorem overwrite_side (id : OrderId) (o x : Order) : (overwrite id o x).side = x.side := by
  rw [overwrite]
  split <;> rfl

private theorem overwrite_price (id : OrderId) (o x : Order) :
    (overwrite id o x).price = x.price := by
  rw [overwrite]
  split <;> rfl

/-- Overwrite in place on one side. -/
def store (s : BookSide side) (id : OrderId) (o : Order) : BookSide side where
  ladder := s.ladder.update (overwrite id o) (overwrite_price id o)
  mine x hx := by
    obtain ⟨y, hy, rfl⟩ := List.mem_map.mp hx
    rw [overwrite_side]
    exact s.mine y hy

end BookSide

/-- The reference book. -/
structure ReferenceBook where
  bids : BookSide .buy
  asks : BookSide .sell
  lastTradePrice : Price

namespace ReferenceBook

/-- One side of the book. -/
def half (b : ReferenceBook) : (side : Side) → BookSide side
  | .buy => b.bids
  | .sell => b.asks

/-- Replace one side of the book. -/
def setHalf (b : ReferenceBook) : (side : Side) → BookSide side → ReferenceBook
  | .buy, s => { b with bids := s }
  | .sell, s => { b with asks := s }

/-- The orders of one side, best first. -/
def orders (b : ReferenceBook) (side : Side) : List Order := (b.half side).orders

/-- The orders at one price of a side, first come first. -/
def atPrice (b : ReferenceBook) (side : Side) (price : Price) : List Order :=
  (b.half side).atPrice price

/-- Every order of the book. -/
def allOrders (b : ReferenceBook) : List Order := b.orders .buy ++ b.orders .sell

/-- The order with an identifier. -/
def findOrder (b : ReferenceBook) (id : OrderId) : Option Order :=
  b.allOrders.find? (·.id == id)

/-- Add an order behind its price. -/
def insertOrder (b : ReferenceBook) (o : Order) : ReferenceBook :=
  b.setHalf o.side ((b.half o.side).insert o rfl)

/-- Erase an order. -/
def cancelOrder (b : ReferenceBook) (id : OrderId) : ReferenceBook :=
  { b with bids := b.bids.erase id, asks := b.asks.erase id }

/-- Overwrite an order in place. -/
def storeOrder (b : ReferenceBook) (id : OrderId) (o : Order) : ReferenceBook :=
  { b with bids := b.bids.store id o, asks := b.asks.store id o }

/-- Move an order behind the others of its price. -/
def requeue (b : ReferenceBook) (id : OrderId) : ReferenceBook :=
  match b.findOrder id with
  | none => b
  | some o => (b.cancelOrder id).insertOrder o

instance : BookOps ReferenceBook where
  empty := ⟨.empty, .empty, 0⟩
  lastTradePrice := lastTradePrice
  setLastTradePrice b p := { b with lastTradePrice := p }
  findOrder := findOrder
  storeOrder := storeOrder
  insertOrder := insertOrder
  cancelOrder := cancelOrder
  bestPrice b side := (b.orders side).head?.map Order.price
  frontOrder b side := (b.orders side).head?.map fun o ↦ (o.id, b)
  hasLevel b side price := !(b.atPrice side price).isEmpty
  reduceLevelVolume b _ _ _ := b
  rotateLevel b _ _ id _ _ := some (b.requeue id)

/-- No two orders carry one identifier. -/
def Distinct (b : ReferenceBook) : Prop := (b.allOrders.map Order.id).Nodup

/-! ### Lookups -/

@[simp] theorem half_setHalf (b : ReferenceBook) (side : Side) (s : BookSide side) :
    (b.setHalf side s).half side = s := by
  cases side <;> rfl

private theorem half_setHalf_opposite (b : ReferenceBook) (side : Side) (s : BookSide side) :
    (b.setHalf side s).half side.opposite = b.half side.opposite := by
  cases side <;> rfl

@[simp] theorem lastTradePrice_setHalf (b : ReferenceBook) (side : Side) (s : BookSide side) :
    (b.setHalf side s).lastTradePrice = b.lastTradePrice := by
  cases side <;> rfl

@[simp] theorem lastTradePrice_insertOrder (b : ReferenceBook) (o : Order) :
    (b.insertOrder o).lastTradePrice = b.lastTradePrice := by
  rw [insertOrder, lastTradePrice_setHalf]

private theorem side_of_mem_orders {b : ReferenceBook} {side : Side} {o : Order}
    (h : o ∈ b.orders side) : o.side = side := (b.half side).mine o h

theorem mem_orders {b : ReferenceBook} {side : Side} {o : Order} :
    o ∈ b.orders side ↔ o ∈ b.allOrders ∧ o.side = side := by
  rw [allOrders, List.mem_append]
  constructor
  · intro h
    refine ⟨?_, side_of_mem_orders h⟩
    cases side with
    | buy => exact .inl h
    | sell => exact .inr h
  · rintro ⟨h | h, rfl⟩
    · rwa [side_of_mem_orders h]
    · rwa [side_of_mem_orders h]

theorem mem_atPrice {b : ReferenceBook} {side : Side} {p : Price} {o : Order} :
    o ∈ b.atPrice side p ↔ o ∈ b.allOrders ∧ o.side = side ∧ o.price = p := by
  rw [← and_assoc, ← mem_orders]
  exact Ladder.mem_rung

/-- The orders at one price, picked from all orders. -/
theorem filter_restsAt (b : ReferenceBook) (side : Side) (p : Price) :
    b.allOrders.filter (Order.restsAt side p) = b.atPrice side p := by
  have hown (os : List Order) (hos : ∀ o ∈ os, o.side = side) :
      os.filter (Order.restsAt side p) = os.filter fun o ↦ o.price = p := by
    apply List.filter_congr
    intro o ho
    rw [Order.restsAt, hos o ho, beq_self_eq_true, Bool.true_and]
    rfl
  have hother (os : List Order) (hos : ∀ o ∈ os, o.side = side.opposite) :
      os.filter (Order.restsAt side p) = [] := by
    apply List.filter_eq_nil_iff.mpr
    intro o ho
    simp [Order.restsAt, hos o ho, Side.opposite_ne side]
  rw [allOrders, List.filter_append]
  cases side with
  | buy =>
    rw [hown (b.orders .buy) b.bids.mine, hother (b.orders .sell) b.asks.mine, List.append_nil]
    rfl
  | sell =>
    rw [hown (b.orders .sell) b.asks.mine, hother (b.orders .buy) b.bids.mine, List.nil_append]
    rfl

/-- A book is determined by the orders at every price and its last trade price. -/
theorem ext_atPrice {b b' : ReferenceBook} (h : ∀ side p, b.atPrice side p = b'.atPrice side p)
    (hl : b.lastTradePrice = b'.lastTradePrice) : b = b' := by
  have hside {side : Side} {s s' : BookSide side} (hs : ∀ p, s.atPrice p = s'.atPrice p) :
      s = s' := by
    have hladder : s.ladder = s'.ladder := Ladder.ext_rung hs
    cases s
    cases s'
    cases hladder
    rfl
  have hb : b.bids = b'.bids := hside (h .buy)
  have ha : b.asks = b'.asks := hside (h .sell)
  cases b
  cases b'
  simp only at hb ha hl
  rw [hb, ha, hl]

theorem mem_of_findOrder {b : ReferenceBook} {id : OrderId} {o : Order}
    (h : b.findOrder id = some o) : o ∈ b.allOrders ∧ o.id = id :=
  ⟨List.mem_of_find?_eq_some h, by simpa using List.find?_some h⟩

theorem findOrder_eq_none_iff {b : ReferenceBook} {id : OrderId} :
    b.findOrder id = none ↔ ∀ o ∈ b.allOrders, o.id ≠ id := by
  simp [findOrder]

/-- With distinct identifiers, lookup is membership. -/
theorem Distinct.findOrder_eq_some_iff {b : ReferenceBook} (h : b.Distinct) {id : OrderId}
    {o : Order} : b.findOrder id = some o ↔ o ∈ b.allOrders ∧ o.id = id := by
  constructor
  · exact mem_of_findOrder
  · rintro ⟨hmem, rfl⟩
    cases hf : b.findOrder o.id with
    | none => exact absurd rfl (findOrder_eq_none_iff.mp hf o hmem)
    | some x =>
      have hx := mem_of_findOrder hf
      rw [List.inj_on_of_nodup_map h hx.1 hmem hx.2]

theorem Distinct.findOrder_of_mem {b : ReferenceBook} (h : b.Distinct) {o : Order}
    (ho : o ∈ b.allOrders) : b.findOrder o.id = some o := h.findOrder_eq_some_iff.mpr ⟨ho, rfl⟩

theorem Distinct.atPrice_nodup {b : ReferenceBook} (h : b.Distinct) (side : Side) (p : Price) :
    ((b.atPrice side p).map Order.id).Nodup := by
  have hsub : List.Sublist (b.atPrice side p) b.allOrders := by
    refine List.Sublist.trans (List.filter_sublist) (?_ : List.Sublist (b.orders side) _)
    cases side with
    | buy => exact List.sublist_append_left _ _
    | sell => exact List.sublist_append_right _ _
  exact h.sublist (hsub.map Order.id)

/-- No order at another price has the identifier of `o`. -/
private theorem Distinct.ne_of_elsewhere {b : ReferenceBook} (h : b.Distinct) {o : Order}
    (ho : o ∈ b.allOrders) {side : Side} {p : Price} (hne : ¬(o.side = side ∧ o.price = p)) :
    ∀ y ∈ b.atPrice side p, y.id ≠ o.id := by
  intro y hy hid
  have hy' := mem_atPrice.mp hy
  have heq : y = o := List.inj_on_of_nodup_map h hy'.1 ho hid
  exact hne ⟨heq ▸ hy'.2.1, heq ▸ hy'.2.2⟩

/-- The best order of a side is the first at its own price. -/
theorem atPrice_head {b : ReferenceBook} {side : Side} {o : Order} {rest : List Order}
    (h : b.orders side = o :: rest) :
    b.atPrice side o.price = o :: rest.filter (fun x ↦ x.price = o.price) := Ladder.rung_head h

/-- No order of a side has priority over the first. -/
theorem best_le {b : ReferenceBook} {side : Side} {o x : Order} {rest : List Order}
    (h : b.orders side = o :: rest) (hx : x ∈ b.orders side) :
    (side.cmp o.price x.price).isLE = true := Ladder.head_le h hx

/-- A best price is that of a first order. -/
theorem exists_best {b : ReferenceBook} {side : Side} {p : Price}
    (h : BookOps.bestPrice b side = some p) :
    ∃ o rest, b.orders side = o :: rest ∧ o.price = p := by
  have hhead : (b.orders side).head?.map Order.price = some p := h
  cases ho : b.orders side with
  | nil =>
    rw [ho] at hhead
    exact absurd hhead (by simp)
  | cons o rest =>
    rw [ho] at hhead
    exact ⟨o, rest, rfl, Option.some.inj hhead⟩

/-- A side without a best price has no orders. -/
theorem not_mem_of_bestPrice_none {b : ReferenceBook} {side : Side}
    (h : BookOps.bestPrice b side = none) (o : Order) : ¬(o ∈ b.allOrders ∧ o.side = side) := by
  intro ho
  have hmem := mem_orders.mpr ho
  have hhead : (b.orders side).head?.map Order.price = none := h
  rw [Option.map_eq_none_iff, List.head?_eq_none_iff] at hhead
  rw [hhead] at hmem
  exact List.not_mem_nil hmem

/-- The level of a resting order exists. -/
theorem hasLevel_of_mem {b : ReferenceBook} {o : Order} (ho : o ∈ b.allOrders) :
    BookOps.hasLevel b o.side o.price = true := by
  have hat : o ∈ b.atPrice o.side o.price := mem_atPrice.mpr ⟨ho, rfl, rfl⟩
  change (!(b.atPrice o.side o.price).isEmpty) = true
  cases hx : b.atPrice o.side o.price with
  | nil => rw [hx] at hat; exact absurd hat List.not_mem_nil
  | cons y ys => rfl

/-! ### Insertion -/

theorem allOrders_insertOrder (b : ReferenceBook) (o : Order) :
    List.Perm (b.insertOrder o).allOrders (o :: b.allOrders) := by
  have h : List.Perm ((b.insertOrder o).orders o.side) (o :: b.orders o.side) := by
    rw [orders, insertOrder, half_setHalf]
    exact Ladder.insert_perm o _
  have h' : (b.insertOrder o).orders o.side.opposite = b.orders o.side.opposite := by
    rw [orders, insertOrder, half_setHalf_opposite, orders]
  simp only [allOrders]
  cases hs : o.side with
  | buy =>
    rw [hs] at h h'
    exact (h.append (List.Perm.of_eq h')).trans (List.Perm.refl _)
  | sell =>
    rw [hs] at h h'
    exact ((List.Perm.of_eq h').append h).trans List.perm_middle

theorem mem_insertOrder {b : ReferenceBook} {o x : Order} :
    x ∈ (b.insertOrder o).allOrders ↔ x = o ∨ x ∈ b.allOrders := by
  rw [(allOrders_insertOrder b o).mem_iff, List.mem_cons]

/-- A new order goes behind the orders of its price. -/
theorem atPrice_insertOrder (b : ReferenceBook) (o : Order) (side : Side) (p : Price) :
    (b.insertOrder o).atPrice side p =
      b.atPrice side p ++ if o.side = side ∧ o.price = p then [o] else [] := by
  rcases Side.eq_or_eq_opposite side o.side with rfl | rfl
  · rw [atPrice, insertOrder, half_setHalf]
    simp only [true_and]
    exact Ladder.rung_insert o _ p
  · rw [atPrice, insertOrder, half_setHalf_opposite, atPrice]
    simp [(Side.opposite_ne o.side).symm]

/-- Orders inserted one after the other go behind the orders of their prices. -/
private theorem atPrice_foldl_insertOrder (os : List Order) (b : ReferenceBook) (side : Side)
    (p : Price) : (os.foldl insertOrder b).atPrice side p =
      b.atPrice side p ++ os.filter (Order.restsAt side p) := by
  induction os generalizing b with
  | nil => rw [List.foldl_nil, List.filter_nil, List.append_nil]
  | cons o os ih =>
    rw [List.foldl_cons, ih, atPrice_insertOrder, List.append_assoc, List.filter_cons]
    congr 1
    by_cases h : o.side = side ∧ o.price = p
    · rw [if_pos h, if_pos (Order.restsAt_iff.mpr h)]
      rfl
    · rw [if_neg h, if_neg (fun h' ↦ h (Order.restsAt_iff.mp h'))]
      rfl

theorem lastTradePrice_foldl_insertOrder (os : List Order) (b : ReferenceBook) :
    (os.foldl insertOrder b).lastTradePrice = b.lastTradePrice := by
  induction os generalizing b with
  | nil => rfl
  | cons o os ih => rw [List.foldl_cons, ih, lastTradePrice_insertOrder]

/-- Inserting the orders of a book into an empty one restores the book. -/
theorem foldl_insertOrder_allOrders (b : ReferenceBook) :
    b.allOrders.foldl insertOrder (BookOps.setLastTradePrice BookOps.empty b.lastTradePrice) =
      b := by
  apply ext_atPrice
  · intro side p
    rw [atPrice_foldl_insertOrder, filter_restsAt]
    cases side <;> rfl
  · rw [lastTradePrice_foldl_insertOrder]
    rfl

theorem Distinct.insertOrder {b : ReferenceBook} (h : b.Distinct) {o : Order}
    (ho : b.findOrder o.id = none) : (b.insertOrder o).Distinct := by
  rw [Distinct, ((allOrders_insertOrder b o).map Order.id).nodup_iff, List.map_cons,
    List.nodup_cons]
  refine ⟨?_, h⟩
  rw [List.mem_map]
  rintro ⟨x, hx, he⟩
  exact findOrder_eq_none_iff.mp ho x hx he

theorem Distinct.findOrder_insertOrder {b : ReferenceBook} (h : b.Distinct) {o : Order}
    (ho : b.findOrder o.id = none) (id : OrderId) :
    (b.insertOrder o).findOrder id = if o.id = id then some o else b.findOrder id := by
  have hd := h.insertOrder ho
  by_cases hid : o.id = id
  · subst hid
    rw [if_pos rfl]
    exact hd.findOrder_of_mem (mem_insertOrder.mpr (.inl rfl))
  · rw [if_neg hid]
    cases hf : b.findOrder id with
    | none =>
      rw [findOrder_eq_none_iff] at hf ⊢
      intro x hx
      rcases mem_insertOrder.mp hx with rfl | hx
      · exact hid
      · exact hf x hx
    | some x =>
      have hx := mem_of_findOrder hf
      exact hd.findOrder_eq_some_iff.mpr ⟨mem_insertOrder.mpr (.inr hx.1), hx.2⟩

/-! ### Erasure -/

theorem allOrders_cancelOrder (b : ReferenceBook) (id : OrderId) :
    (b.cancelOrder id).allOrders = b.allOrders.filter (·.id != id) :=
  (List.filter_append _ _).symm

theorem mem_cancelOrder {b : ReferenceBook} {id : OrderId} {x : Order} :
    x ∈ (b.cancelOrder id).allOrders ↔ x ∈ b.allOrders ∧ x.id ≠ id := by
  rw [allOrders_cancelOrder]
  simp

theorem atPrice_cancelOrder (b : ReferenceBook) (id : OrderId) (side : Side) (p : Price) :
    (b.cancelOrder id).atPrice side p = (b.atPrice side p).filter (·.id != id) := by
  cases side <;> exact Ladder.rung_filter _ _ p

theorem Distinct.cancelOrder {b : ReferenceBook} (h : b.Distinct) (id : OrderId) :
    (b.cancelOrder id).Distinct := by
  rw [Distinct, allOrders_cancelOrder]
  exact h.sublist ((List.filter_sublist).map _)

theorem findOrder_cancelOrder (b : ReferenceBook) (id x : OrderId) :
    (b.cancelOrder id).findOrder x = if id = x then none else b.findOrder x := by
  rw [findOrder, allOrders_cancelOrder, List.find?_filter]
  by_cases hx : id = x
  · subst hx
    rw [if_pos rfl, List.find?_eq_none]
    intro o _
    simp
  · rw [if_neg hx, findOrder]
    congr 1
    funext o
    by_cases ho : o.id = x
    · have hne : x ≠ id := fun he ↦ hx he.symm
      simp [ho, hne]
    · simp [ho]

/-! ### Overwriting -/

theorem allOrders_storeOrder (b : ReferenceBook) (id : OrderId) (o : Order) :
    (b.storeOrder id o).allOrders = b.allOrders.map (BookSide.overwrite id o) :=
  List.map_append.symm

theorem orders_storeOrder (b : ReferenceBook) (id : OrderId) (o : Order) (side : Side) :
    (b.storeOrder id o).orders side = (b.orders side).map (BookSide.overwrite id o) := by
  cases side <;> rfl

theorem atPrice_storeOrder (b : ReferenceBook) (id : OrderId) (o : Order) (side : Side)
    (p : Price) :
    (b.storeOrder id o).atPrice side p = (b.atPrice side p).map (BookSide.overwrite id o) := by
  cases side <;> exact Ladder.rung_update _ (BookSide.overwrite_price id o) _ p

/-- Overwriting keeps the identifiers at every price. -/
theorem ids_storeOrder (b : ReferenceBook) (id : OrderId) (o : Order) (side : Side)
    (p : Price) :
    ((b.storeOrder id o).atPrice side p).map Order.id = (b.atPrice side p).map Order.id := by
  rw [atPrice_storeOrder, List.map_map]
  apply List.map_congr_left
  intro x _
  exact BookSide.overwrite_id id o x

theorem Distinct.storeOrder {b : ReferenceBook} (h : b.Distinct) (id : OrderId) (o : Order) :
    (b.storeOrder id o).Distinct := by
  have he : (b.storeOrder id o).allOrders.map Order.id = b.allOrders.map Order.id := by
    rw [allOrders_storeOrder, List.map_map]
    apply List.map_congr_left
    intro x _
    exact BookSide.overwrite_id id o x
  rw [Distinct, he]
  exact h

/-- Overwriting an order by one with the same identifier, side and price. -/
theorem findOrder_storeOrder {b : ReferenceBook} {id : OrderId} {x o : Order}
    (hx : b.findOrder id = some x) (hid : o.id = id) (hs : o.side = x.side)
    (hp : o.price = x.price) (y : OrderId) :
    (b.storeOrder id o).findOrder y = if id = y then some o else b.findOrder y := by
  have hmap : (b.storeOrder id o).findOrder y =
      (b.findOrder y).map (BookSide.overwrite id o) := by
    rw [findOrder, allOrders_storeOrder, List.find?_map, findOrder]
    congr 2
    funext z
    simp [BookSide.overwrite_id]
  rw [hmap]
  by_cases hy : id = y
  · subst hy
    rw [if_pos rfl, hx, Option.map_some, BookSide.overwrite, if_pos (mem_of_findOrder hx).2,
      (mem_of_findOrder hx).2, ← hid, ← hs, ← hp]
  · rw [if_neg hy]
    cases hf : b.findOrder y with
    | none => rfl
    | some z =>
      have hz : z.id ≠ id := fun he ↦ hy (he.symm.trans (mem_of_findOrder hf).2)
      rw [Option.map_some, BookSide.overwrite, if_neg hz]

/-! ### Requeueing -/

section Requeue

variable {b : ReferenceBook} (h : b.Distinct)

@[simp] theorem lastTradePrice_requeue (b : ReferenceBook) (id : OrderId) :
    (b.requeue id).lastTradePrice = b.lastTradePrice := by
  rw [requeue]
  split
  · rfl
  · rw [lastTradePrice_insertOrder]
    rfl

include h

theorem Distinct.requeue (id : OrderId) : (b.requeue id).Distinct := by
  rw [ReferenceBook.requeue]
  cases hf : b.findOrder id with
  | none => exact h
  | some o =>
    apply (h.cancelOrder id).insertOrder
    rw [findOrder_cancelOrder, if_pos (mem_of_findOrder hf).2.symm]

/-- Requeueing changes no lookup. -/
theorem Distinct.findOrder_requeue (id x : OrderId) :
    (b.requeue id).findOrder x = b.findOrder x := by
  rw [ReferenceBook.requeue]
  cases hf : b.findOrder id with
  | none => rfl
  | some o =>
    have hid := (mem_of_findOrder hf).2
    have hnone : (b.cancelOrder id).findOrder o.id = none := by
      rw [findOrder_cancelOrder, if_pos hid.symm]
    simp only
    rw [(h.cancelOrder id).findOrder_insertOrder hnone, findOrder_cancelOrder, hid]
    split
    · next hx => rw [← hx, hf]
    · rfl

/-- Requeueing moves one order behind its price. -/
theorem Distinct.atPrice_requeue {o : Order} (ho : o ∈ b.allOrders) (side : Side) (p : Price) :
    (b.requeue o.id).atPrice side p =
      if o.side = side ∧ o.price = p then
        (b.atPrice side p).filter (·.id != o.id) ++ [o]
      else b.atPrice side p := by
  rw [ReferenceBook.requeue, h.findOrder_of_mem ho]
  simp only
  rw [atPrice_insertOrder, atPrice_cancelOrder]
  split
  · rfl
  · next hsp =>
    rw [List.append_nil, List.filter_eq_self]
    intro x hx
    simpa using h.ne_of_elsewhere ho hsp x hx

end Requeue

/-! ### One order among the others

Around one order `o` the book is a permutation of `o :: os`. -/

section Around

variable {b : ReferenceBook} {o x : Order} {os : List Order}

private theorem Distinct.ne_of_perm (h : b.Distinct) (hp : List.Perm b.allOrders (o :: os)) :
    ∀ y ∈ os, y.id ≠ o.id := by
  intro y hy he
  rw [Distinct, (hp.map Order.id).nodup_iff, List.map_cons, List.nodup_cons] at h
  exact h.1 (he ▸ List.mem_map_of_mem hy)

theorem Distinct.perm_of_mem (h : b.Distinct) (ho : o ∈ b.allOrders) :
    List.Perm b.allOrders (o :: b.allOrders.filter (·.id != o.id)) := by
  have hf : b.allOrders.filter (·.id != o.id) = b.allOrders.erase o := by
    have hn : b.allOrders.Nodup := List.Nodup.of_map _ h
    rw [hn.erase_eq_filter]
    apply List.filter_congr
    intro x hx
    by_cases he : x = o
    · simp only [he, bne_self_eq_false]
    · have hne : x.id ≠ o.id := fun hid ↦ he (List.inj_on_of_nodup_map h hx ho hid)
      rw [bne_iff_ne.mpr hne, bne_iff_ne.mpr he]
  rw [hf]
  exact List.perm_cons_erase ho

theorem Distinct.cancelOrder_perm (h : b.Distinct) (hp : List.Perm b.allOrders (o :: os)) :
    List.Perm (b.cancelOrder o.id).allOrders os := by
  have hne := h.ne_of_perm hp
  rw [allOrders_cancelOrder]
  refine (hp.filter _).trans (List.Perm.of_eq ?_)
  rw [List.filter_cons_of_neg (by simp), List.filter_eq_self]
  intro y hy
  simpa using hne y hy

theorem Distinct.storeOrder_perm (h : b.Distinct) (hp : List.Perm b.allOrders (o :: os))
    (hid : x.id = o.id) (hs : x.side = o.side) (hpr : x.price = o.price) :
    List.Perm (b.storeOrder o.id x).allOrders (x :: os) := by
  have hne := h.ne_of_perm hp
  rw [allOrders_storeOrder]
  refine (hp.map _).trans (List.Perm.of_eq ?_)
  have hx : BookSide.overwrite o.id x o = x := by
    rw [BookSide.overwrite, if_pos rfl, ← hid, ← hs, ← hpr]
  have hos : os.map (BookSide.overwrite o.id x) = os := by
    rw [List.map_congr_left (g := fun y ↦ y), List.map_id']
    intro y hy
    rw [BookSide.overwrite, if_neg (hne y hy)]
  rw [List.map_cons, hx, hos]

theorem Distinct.requeue_perm (h : b.Distinct) (hp : List.Perm b.allOrders (o :: os)) :
    List.Perm (b.requeue o.id).allOrders (o :: os) := by
  have ho : o ∈ b.allOrders := hp.mem_iff.mpr List.mem_cons_self
  rw [ReferenceBook.requeue, h.findOrder_of_mem ho]
  exact (allOrders_insertOrder _ o).trans ((h.cancelOrder_perm hp).cons o)

theorem Distinct.updateOrderQuantity_perm (h : b.Distinct)
    (hp : List.Perm b.allOrders (o :: os)) (q : Quantity) :
    List.Perm (BookOps.updateOrderQuantity b o.id q).allOrders
      ({ o with quantity := q } :: os) := by
  have ho : BookOps.findOrder b o.id = some o :=
    h.findOrder_of_mem (hp.mem_iff.mpr List.mem_cons_self)
  rw [BookOps.updateOrderQuantity, ho]
  exact h.storeOrder_perm hp rfl rfl rfl

theorem Distinct.updateOrderQuantity (h : b.Distinct) (id : OrderId) (q : Quantity) :
    (BookOps.updateOrderQuantity b id q).Distinct := by
  rw [BookOps.updateOrderQuantity]
  split
  · exact h
  · exact h.storeOrder _ _

/-! An operation on `o` leaves the other prices alone. -/

theorem Distinct.atPrice_storeOrder_of_ne (h : b.Distinct) (ho : o ∈ b.allOrders) (x : Order)
    {side : Side} {p : Price} (hne : ¬(o.side = side ∧ o.price = p)) :
    (b.storeOrder o.id x).atPrice side p = b.atPrice side p := by
  rw [atPrice_storeOrder, List.map_congr_left (g := fun y ↦ y), List.map_id']
  intro y hy
  rw [BookSide.overwrite, if_neg (h.ne_of_elsewhere ho hne y hy)]

theorem Distinct.atPrice_cancelOrder_of_ne (h : b.Distinct) (ho : o ∈ b.allOrders) {side : Side}
    {p : Price} (hne : ¬(o.side = side ∧ o.price = p)) :
    (b.cancelOrder o.id).atPrice side p = b.atPrice side p := by
  rw [atPrice_cancelOrder, List.filter_eq_self]
  intro y hy
  simpa using h.ne_of_elsewhere ho hne y hy

theorem Distinct.atPrice_updateOrderQuantity (h : b.Distinct) (ho : o ∈ b.allOrders) (q : Quantity)
    {side : Side} {p : Price} (hne : ¬(o.side = side ∧ o.price = p)) :
    (BookOps.updateOrderQuantity b o.id q).atPrice side p = b.atPrice side p := by
  have hf : BookOps.findOrder b o.id = some o := h.findOrder_of_mem ho
  rw [BookOps.updateOrderQuantity, hf]
  exact h.atPrice_storeOrder_of_ne ho _ hne

/-! An operation on `o`, seen in the queue that `o` stands in. -/

theorem Distinct.queue_ne (h : b.Distinct) {front back : List Order}
    (hat : b.atPrice o.side o.price = front ++ o :: back) :
    (∀ y ∈ front, y.id ≠ o.id) ∧ ∀ y ∈ back, y.id ≠ o.id := by
  have hn := h.atPrice_nodup o.side o.price
  rw [hat, List.map_append, List.map_cons, List.nodup_append, List.nodup_cons] at hn
  constructor
  · intro y hy
    exact hn.2.2 y.id (List.mem_map_of_mem hy) o.id List.mem_cons_self
  · intro y hy hid
    exact hn.2.1.1 (hid ▸ List.mem_map_of_mem hy)

theorem Distinct.queue_storeOrder (h : b.Distinct) {front back : List Order}
    (hat : b.atPrice o.side o.price = front ++ o :: back) (hid : x.id = o.id)
    (hs : x.side = o.side) (hp : x.price = o.price) :
    (b.storeOrder o.id x).atPrice o.side o.price = front ++ x :: back := by
  obtain ⟨hfront, hback⟩ := h.queue_ne hat
  have hkeep (os : List Order) (hos : ∀ y ∈ os, y.id ≠ o.id) :
      os.map (BookSide.overwrite o.id x) = os := by
    rw [List.map_congr_left (g := fun y ↦ y), List.map_id']
    intro y hy
    rw [BookSide.overwrite, if_neg (hos y hy)]
  have hx : BookSide.overwrite o.id x o = x := by
    rw [BookSide.overwrite, if_pos rfl, ← hid, ← hs, ← hp]
  rw [atPrice_storeOrder, hat, List.map_append, List.map_cons, hkeep front hfront,
    hkeep back hback, hx]

theorem Distinct.queue_cancelOrder (h : b.Distinct) {front back : List Order}
    (hat : b.atPrice o.side o.price = front ++ o :: back) :
    (b.cancelOrder o.id).atPrice o.side o.price = front ++ back := by
  obtain ⟨hfront, hback⟩ := h.queue_ne hat
  have hkeep (os : List Order) (hos : ∀ y ∈ os, y.id ≠ o.id) : os.filter (·.id != o.id) = os :=
    List.filter_eq_self.mpr fun y hy ↦ bne_iff_ne.mpr (hos y hy)
  rw [atPrice_cancelOrder, hat, List.filter_append, List.filter_cons_of_neg (by simp),
    hkeep front hfront, hkeep back hback]

theorem Distinct.queue_requeue (h : b.Distinct) {front back : List Order}
    (hat : b.atPrice o.side o.price = front ++ o :: back) :
    (b.requeue o.id).atPrice o.side o.price = front ++ back ++ [o] := by
  have ho : o ∈ b.atPrice o.side o.price := hat ▸ List.mem_append_right _ List.mem_cons_self
  have hcancel := h.queue_cancelOrder hat
  rw [atPrice_cancelOrder] at hcancel
  rw [h.atPrice_requeue (mem_atPrice.mp ho).1, if_pos ⟨rfl, rfl⟩, hcancel]

theorem Distinct.queue_updateOrderQuantity (h : b.Distinct) {front back : List Order}
    (hat : b.atPrice o.side o.price = front ++ o :: back) (q : Quantity) :
    (BookOps.updateOrderQuantity b o.id q).atPrice o.side o.price =
      front ++ { o with quantity := q } :: back := by
  have ho : o ∈ b.atPrice o.side o.price := hat ▸ List.mem_append_right _ List.mem_cons_self
  have hf : BookOps.findOrder b o.id = some o := h.findOrder_of_mem (mem_atPrice.mp ho).1
  rw [BookOps.updateOrderQuantity, hf]
  exact h.queue_storeOrder hat rfl rfl rfl

end Around

end ReferenceBook

end LobEngine
