import LobEngine.Book.BookOps
import LobEngine.Core.Recast

/-!
# Recasting a book

A book morphism carries one book to another so that every member of the book commutes with a
recast of the orders, sides and prices. The book of the code is recast level by level.
-/

namespace LobEngine

open BookOps

/-- A map of books that commutes with their members. -/
structure BookMorphism (φ : Recast) (B B' : Type) [BookOps B] [BookOps B'] where
  book : B → B'
  lastTradePrice : ∀ b, lastTradePrice (book b) = φ.price (lastTradePrice b)
  setLastTradePrice : ∀ b p, setLastTradePrice (book b) (φ.price p) = book (setLastTradePrice b p)
  findOrder : ∀ b id, findOrder (book b) id = (findOrder b id).map (Order.recast φ)
  storeOrder : ∀ b id o, storeOrder (book b) id (o.recast φ) = book (storeOrder b id o)
  insertOrder : ∀ b o, insertOrder (book b) (o.recast φ) = book (insertOrder b o)
  cancelOrder : ∀ b id, cancelOrder (book b) id = book (cancelOrder b id)
  bestPrice : ∀ b side, bestPrice (book b) (φ.side side) = (bestPrice b side).map φ.price
  frontOrder : ∀ b side, frontOrder (book b) (φ.side side) =
    (frontOrder b side).map fun front ↦ (front.1, book front.2)
  hasLevel : ∀ b side p, hasLevel (book b) (φ.side side) (φ.price p) = hasLevel b side p
  reduceLevelVolume : ∀ b side p q, reduceLevelVolume (book b) (φ.side side) (φ.price p) q =
    book (reduceLevelVolume b side p q)
  rotateLevel : ∀ b side p id filled peak,
    rotateLevel (book b) (φ.side side) (φ.price p) id filled peak =
      (rotateLevel b side p id filled peak).map book

/-- Any book is itself. -/
def BookMorphism.refl (B : Type) [BookOps B] : BookMorphism .refl B B where
  book b := b
  lastTradePrice _ := rfl
  setLastTradePrice _ _ := rfl
  findOrder _ _ := Option.map_id'.symm
  storeOrder _ _ _ := rfl
  insertOrder _ _ := rfl
  cancelOrder _ _ := rfl
  bestPrice _ _ := Option.map_id'.symm
  frontOrder _ _ := Option.map_id'.symm
  hasLevel _ _ _ := rfl
  reduceLevelVolume _ _ _ _ := rfl
  rotateLevel _ _ _ _ _ _ := Option.map_id'.symm

theorem BookMorphism.updateOrderQuantity {φ : Recast} {B B' : Type} [BookOps B] [BookOps B']
    (f : BookMorphism φ B B') (b : B) (id : OrderId) (q : Quantity) :
    updateOrderQuantity (f.book b) id q = f.book (updateOrderQuantity b id q) := by
  unfold BookOps.updateOrderQuantity
  rw [f.findOrder]
  cases BookOps.findOrder b id with
  | none => rfl
  | some o => exact f.storeOrder b id { o with quantity := q }

theorem BookMorphism.hasOrder {φ : Recast} {B B' : Type} [BookOps B] [BookOps B']
    (f : BookMorphism φ B B') (b : B) (id : OrderId) :
    hasOrder (f.book b) id = hasOrder b id := by
  unfold BookOps.hasOrder
  rw [f.findOrder, Option.isSome_map]

section OrderBook

variable (φ : Recast)

/-- A level at another price. -/
def PriceLevel.recast (l : PriceLevel) : PriceLevel := { l with price := φ.price l.price }

/-- The levels of one side, recast to levels of a side. -/
def PriceLevel.recastLevels {side : Side} (side' : Side)
    (m : Std.ExtTreeMap Price PriceLevel side.cmp) : Std.ExtTreeMap Price PriceLevel side'.cmp :=
  m.rekey side'.cmp φ.price (PriceLevel.recast φ)

/-- The book with its sides, prices and timestamps recast. -/
def OrderBook.recast (b : OrderBook PriceLevel) : OrderBook PriceLevel where
  bids := PriceLevel.recastLevels φ .buy (b.levels (φ.side .buy))
  asks := PriceLevel.recastLevels φ .sell (b.levels (φ.side .sell))
  idMap := b.idMap.map fun _ o ↦ o.recast φ
  lastTradePrice := φ.price b.lastTradePrice

variable {φ}

namespace OrderBook

variable (b : OrderBook PriceLevel) (side : Side) (p : Price) (id : OrderId)

private theorem levels_recast (side : Side) :
    (b.recast φ).levels side = PriceLevel.recastLevels φ side (b.levels (φ.side side)) := by
  cases side <;> rfl

/-- Books with the same levels, orders and last trade price are equal. -/
theorem ext_levels {b b' : OrderBook PriceLevel} (h : ∀ side, b.levels side = b'.levels side)
    (hid : b.idMap = b'.idMap) (hlast : b.lastTradePrice = b'.lastTradePrice) : b = b' := by
  have hb : b.bids = b'.bids := h .buy
  have ha : b.asks = b'.asks := h .sell
  rcases b with ⟨bids, asks, ids, last⟩
  simp only at hb ha hid hlast
  rw [hb, ha, hid, hlast]

/-- The levels of a side come from the levels of its image. -/
private theorem levels_side_recast : (b.recast φ).levels (φ.side side) =
    PriceLevel.recastLevels φ (φ.side side) (b.levels side) := by
  rw [levels_recast]
  have hside := φ.side_side side
  generalize φ.side side = side' at hside ⊢
  subst hside
  rfl

theorem getLevel_recast : (b.recast φ).getLevel (φ.side side) (φ.price p) =
    (b.getLevel side p).map (PriceLevel.recast φ) := by
  unfold getLevel
  rw [levels_side_recast]
  exact Std.ExtTreeMap.getElem?_rekey (φ.cmp_eq side) p

private theorem bestLevel_recast : (b.recast φ).bestLevel (φ.side side) =
    (b.bestLevel side).map fun entry ↦ (φ.price entry.1, entry.2.recast φ) := by
  unfold bestLevel
  rw [levels_side_recast]
  exact Std.ExtTreeMap.first?_rekey (φ.cmp_eq side)

/-- Replacing the levels of one side. -/
private theorem setLevels_recast (m : Std.ExtTreeMap Price PriceLevel side.cmp) :
    (b.recast φ).setLevels (φ.side side) (PriceLevel.recastLevels φ (φ.side side) m) =
      (b.setLevels side m).recast φ := by
  apply ext_levels
  · intro side'
    rcases Side.eq_or_eq_opposite side' (φ.side side) with rfl | rfl
    · rw [levels_setLevels, levels_side_recast, levels_setLevels]
    · rw [levels_setLevels_opposite, ← φ.side_opposite, levels_side_recast, levels_side_recast,
        levels_setLevels_opposite]
  · rw [idMap_setLevels]
    unfold recast
    simp only
    rw [idMap_setLevels]
  · rw [lastTradePrice_setLevels]
    unfold recast
    simp only
    rw [lastTradePrice_setLevels]

private theorem setLevel_recast (l : PriceLevel) :
    (b.recast φ).setLevel (φ.side side) (φ.price p) (l.recast φ) =
      (b.setLevel side p l).recast φ := by
  unfold setLevel
  rw [← setLevels_recast, levels_side_recast]
  congr 1
  exact (Std.ExtTreeMap.rekey_insert (φ.cmp_eq side) p l).symm

private theorem eraseLevel_recast : (b.recast φ).eraseLevel (φ.side side) (φ.price p) =
    (b.eraseLevel side p).recast φ := by
  unfold eraseLevel
  rw [← setLevels_recast, levels_side_recast]
  congr 1
  exact (Std.ExtTreeMap.rekey_erase (φ.cmp_eq side) p).symm

private theorem findOrder_recast :
    (b.recast φ).findOrder id = (b.findOrder id).map (Order.recast φ) :=
  Std.ExtTreeMap.getElem?_map

private theorem storeOrder_recast (o : Order) :
    (b.recast φ).storeOrder id (o.recast φ) = (b.storeOrder id o).recast φ := by
  apply ext_levels
  · intro side
    cases side <;> rfl
  · apply Std.ExtTreeMap.ext_getElem?
    intro x
    have hl := findOrder_storeOrder (b.recast φ) id x (o.recast φ)
    have hr := findOrder_recast (φ := φ) (b.storeOrder id o) x
    rw [findOrder_recast] at hl
    rw [findOrder_storeOrder] at hr
    refine hl.trans (Eq.trans ?_ hr.symm)
    split <;> rfl
  · rfl

private theorem insertOrder_recast (o : Order) :
    (b.recast φ).insertOrder (o.recast φ) = (b.insertOrder o).recast φ := by
  unfold insertOrder
  simp only [Order.id_recast, Order.side_recast, Order.price_recast, Order.visibleQty_recast]
  rw [storeOrder_recast, getLevel_recast, ← setLevel_recast]
  congr 1
  cases (b.storeOrder o.id o).getLevel o.side o.price <;> rfl

private theorem cancelOrder_recast :
    ((b.recast φ).cancelOrder id).1 = (b.cancelOrder id).1.recast φ := by
  have herase (b : OrderBook PriceLevel) :
      { b.recast φ with idMap := (b.recast φ).idMap.erase id } =
        ({ b with idMap := b.idMap.erase id } : OrderBook PriceLevel).recast φ := by
    apply ext_levels
    · intro side
      cases side <;> rfl
    · apply Std.ExtTreeMap.ext_getElem?
      intro x
      have hr := findOrder_recast (φ := φ) { b with idMap := b.idMap.erase id } x
      refine Eq.trans ?_ hr.symm
      have hl := findOrder_recast (φ := φ) b x
      unfold findOrder at hl ⊢
      rw [Std.ExtTreeMap.getElem?_erase, Std.ExtTreeMap.getElem?_erase]
      split
      · rfl
      · exact hl
    · rfl
  have hfind := findOrder_recast (φ := φ) b id
  unfold findOrder at hfind
  unfold cancelOrder
  rw [hfind]
  cases b.idMap[id]? with
  | none => rfl
  | some o =>
    simp only [Option.map_some, Order.side_recast, Order.price_recast, Order.visibleQty_recast]
    rw [getLevel_recast]
    cases hg : b.getLevel o.side o.price with
    | none => exact herase b
    | some l =>
      have hempty : PriceLevelOps.empty (PriceLevelOps.remove (l.recast φ) id o.visibleQty) =
          ((PriceLevelOps.empty (PriceLevelOps.remove l id o.visibleQty)).1,
            (PriceLevelOps.empty (PriceLevelOps.remove l id o.visibleQty)).2.recast φ) := rfl
      simp only [Option.map_some, hempty]
      split
      · rw [eraseLevel_recast]
        exact herase _
      · rw [setLevel_recast]
        exact herase _

private theorem frontOrder_recast : (b.recast φ).frontOrder (φ.side side) =
    (b.frontOrder side).map fun front ↦ (front.1, front.2.recast φ) := by
  unfold frontOrder
  rw [bestLevel_recast]
  cases b.bestLevel side with
  | none => rfl
  | some entry =>
    have hfront : PriceLevelOps.front (entry.2.recast φ) =
        ((PriceLevelOps.front entry.2).1, (PriceLevelOps.front entry.2).2.recast φ) := rfl
    simp only [Option.map_some, hfront, setLevel_recast]
    cases (PriceLevelOps.front entry.2).1 <;> rfl

private theorem reduceLevelVolume_recast (q : Quantity) :
    (b.recast φ).reduceLevelVolume (φ.side side) (φ.price p) q =
      (b.reduceLevelVolume side p q).recast φ := by
  unfold reduceLevelVolume
  rw [getLevel_recast]
  cases b.getLevel side p with
  | none => rfl
  | some l => exact setLevel_recast b side p (PriceLevelOps.reduceFrontVolume l q)

private theorem rotateLevel_recast (filled peak : Quantity) :
    (b.recast φ).rotateLevel (φ.side side) (φ.price p) id filled peak =
      (b.rotateLevel side p id filled peak).map (OrderBook.recast φ) := by
  unfold rotateLevel
  rw [getLevel_recast]
  cases b.getLevel side p with
  | none => rfl
  | some l =>
    have hpop : PriceLevelOps.popFront (l.recast φ) filled =
        (PriceLevelOps.popFront l filled).map (PriceLevel.recast φ) := by
      change PriceLevel.popFront _ _ = (PriceLevel.popFront _ _).map _
      unfold PriceLevel.popFront PriceLevel.recast PriceLevel.drainCancelled
      rcases l with ⟨queue, price, total⟩
      simp only
      rcases queue.drain with ⟨ids, dead⟩
      cases ids <;> rfl
    simp only [Option.map_some, Option.bind_eq_bind, Option.bind_some, hpop]
    cases PriceLevelOps.popFront l filled with
    | none => rfl
    | some m => exact congrArg some (setLevel_recast b side p (PriceLevelOps.pushBack m id peak))

/-- The recast book behaves as the book, recast. -/
def morphism (φ : Recast) : BookMorphism φ (OrderBook PriceLevel) (OrderBook PriceLevel) where
  book := OrderBook.recast φ
  lastTradePrice _ := rfl
  setLastTradePrice b p := by
    apply ext_levels
    · intro side
      cases side <;> rfl
    · rfl
    · rfl
  findOrder := findOrder_recast
  storeOrder := storeOrder_recast
  insertOrder := insertOrder_recast
  cancelOrder := cancelOrder_recast
  bestPrice b side := by
    change ((b.recast φ).bestLevel (φ.side side)).map _ = ((b.bestLevel side).map _).map _
    rw [bestLevel_recast, Option.map_map, Option.map_map]
    rfl
  frontOrder := frontOrder_recast
  hasLevel b side p := by
    change ((b.recast φ).getLevel (φ.side side) (φ.price p)).isSome = (b.getLevel side p).isSome
    rw [getLevel_recast, Option.isSome_map]
  reduceLevelVolume := reduceLevelVolume_recast
  rotateLevel := rotateLevel_recast

end OrderBook

end OrderBook

end LobEngine
