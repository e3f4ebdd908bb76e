import LobEngine.Engine.ReferenceEngine

/-!
# A book with one order altered

Erasing one order from the reference book, or giving it another quantity, commutes with every
operation on the other orders, and the altered book ranks its orders as before. If only the
original quantity changes, it commutes with the operations on the order itself as well.
-/

namespace LobEngine

open BookOps Engine

/-- What is done to one order of a book. -/
inductive Change where
  | erase
  | resize (quantity : Quantity → Quantity) (origQty : Quantity)

namespace Change

/-- The change on a list of orders: the orders named `x` are changed, the others kept. -/
def apply (x : OrderId) (o : Order) : Change → Option Order
  | erase => if o.id = x then none else some o
  | resize φ n =>
    some (if o.id = x then { o with quantity := φ o.quantity, origQty := n } else o)

/-- The change touches no field that the engine reads. -/
def Hidden : Change → Prop
  | erase => False
  | resize φ _ => φ = id

/-- The change of `x` cannot be seen by the operations on `y`. -/
def Passes (f : Change) (x y : OrderId) : Prop := y ≠ x ∨ f.Hidden

/-- The original quantity of an order after a hidden change. -/
def label (x : OrderId) (o : Order) : Change → Quantity
  | erase => o.origQty
  | resize _ n => if o.id = x then n else o.origQty

variable {f : Change} {x : OrderId} {o o' : Order}

theorem apply_of_ne (h : o.id ≠ x) : f.apply x o = some o := by
  cases f with
  | erase => rw [apply, if_neg h]
  | resize φ n => rw [apply, if_neg h]

/-- The identifier and the place of an order do not change. -/
theorem apply_keeps (h : f.apply x o = some o') :
    o'.id = o.id ∧ o'.side = o.side ∧ o'.price = o.price := by
  by_cases hx : o.id = x
  · cases f with
    | erase =>
      rw [apply, if_pos hx] at h
      exact absurd h (by simp)
    | resize φ n =>
      rw [apply, if_pos hx] at h
      obtain rfl := Option.some.inj h
      exact ⟨rfl, rfl, rfl⟩
  · rw [apply_of_ne hx] at h
    obtain rfl := Option.some.inj h
    exact ⟨rfl, rfl, rfl⟩

theorem apply_of_passes (h : f.Passes x o.id) :
    f.apply x o = some { o with origQty := f.label x o } := by
  cases f with
  | erase =>
    rcases h with h | h
    · rw [apply, if_neg h]
      rfl
    · exact absurd h id
  | resize φ n =>
    rw [apply, label]
    by_cases hx : o.id = x
    · obtain rfl : φ = id := h.resolve_left (fun hne ↦ hne hx)
      rw [if_pos hx, if_pos hx]
      rfl
    · rw [if_neg hx, if_neg hx]

end Change

/-- One side of a book with the orders named `x` changed. -/
def BookSide.alter {side : Side} (s : BookSide side) (x : OrderId) (f : Change) :
    BookSide side where
  ladder := s.ladder.filterMap (fun o ↦ f.apply x o) fun _ _ h ↦ (Change.apply_keeps h).2.2
  mine o ho := by
    obtain ⟨y, hy, hf⟩ := List.mem_filterMap.mp ho
    rw [(Change.apply_keeps hf).2.1]
    exact s.mine y hy

namespace ReferenceBook

/-- The book with the order `x` changed. -/
def alter (b : ReferenceBook) (x : OrderId) (f : Change) : ReferenceBook :=
  { b with bids := b.bids.alter x f, asks := b.asks.alter x f }

variable {b b' : ReferenceBook} {x : OrderId} {f : Change}

@[simp] theorem lastTradePrice_alter (b : ReferenceBook) (x : OrderId) (f : Change) :
    (b.alter x f).lastTradePrice = b.lastTradePrice := rfl

theorem orders_alter (b : ReferenceBook) (x : OrderId) (f : Change) (side : Side) :
    (b.alter x f).orders side = (b.orders side).filterMap fun o ↦ f.apply x o := by
  cases side <;> rfl

theorem atPrice_alter (b : ReferenceBook) (x : OrderId) (f : Change) (side : Side) (p : Price) :
    (b.alter x f).atPrice side p = (b.atPrice side p).filterMap fun o ↦ f.apply x o := by
  cases side <;> exact Ladder.rung_filterMap _ (fun _ _ h ↦ (Change.apply_keeps h).2.2) _ p

private theorem allOrders_alter (b : ReferenceBook) (x : OrderId) (f : Change) :
    (b.alter x f).allOrders = b.allOrders.filterMap fun o ↦ f.apply x o := by
  rw [allOrders, allOrders, orders_alter, orders_alter, List.filterMap_append]

/-- A book without the order is not altered. -/
theorem alter_of_absent (h : ∀ o ∈ b.allOrders, o.id ≠ x) : b.alter x f = b := by
  apply ext_atPrice
  · intro side p
    rw [atPrice_alter, List.filterMap_congr (g := some), List.filterMap_some]
    intro o ho
    exact Change.apply_of_ne (h o (mem_atPrice.mp ho).1)
  · rfl

/-- A lookup finds what the change makes of the order. -/
theorem findOrder_alter (b : ReferenceBook) (x : OrderId) (f : Change) (y : OrderId) :
    (b.alter x f).findOrder y = (b.findOrder y).bind fun o ↦ f.apply x o := by
  rw [findOrder, findOrder, allOrders_alter]
  generalize b.allOrders = os
  induction os with
  | nil => rfl
  | cons o os ih =>
    by_cases hy : o.id = y
    · rw [List.find?_cons_of_pos (by simpa using hy), Option.bind_some, List.filterMap_cons]
      cases ha : f.apply x o with
      | none =>
        -- the order is erased, and with it all orders of its identifier
        simp only
        rw [ih]
        cases hos : os.find? (·.id == y) with
        | none => rfl
        | some z =>
          have hz : z.id = o.id := by
            rw [hy]
            simpa using List.find?_some hos
          rw [Option.bind_some]
          cases f with
          | erase =>
            by_cases hx : o.id = x
            · rw [Change.apply, if_pos (hz.trans hx)]
            · rw [Change.apply, if_neg hx] at ha
              exact absurd ha (by simp)
          | resize φ n => exact absurd ha (by simp [Change.apply])
      | some o' =>
        simp only
        rw [List.find?_cons_of_pos (by rw [(Change.apply_keeps ha).1]; simpa using hy)]
    · rw [List.find?_cons_of_neg (by simpa using hy), List.filterMap_cons]
      cases ha : f.apply x o with
      | none => exact ih
      | some o' =>
        simp only
        rw [List.find?_cons_of_neg (by rw [(Change.apply_keeps ha).1]; simpa using hy)]
        exact ih

theorem Distinct.alter (h : b.Distinct) (x : OrderId) (f : Change) : (b.alter x f).Distinct := by
  have hids : (b.alter x f).allOrders.map Order.id =
      b.allOrders.filterMap fun o ↦ (f.apply x o).map Order.id := by
    rw [allOrders_alter, List.map_filterMap]
  have hsub : List.Sublist (b.allOrders.filterMap fun o ↦ (f.apply x o).map Order.id)
      (b.allOrders.map Order.id) := by
    generalize b.allOrders = os
    induction os with
    | nil => exact .slnil
    | cons o os ih =>
      rw [List.filterMap_cons, List.map_cons]
      cases ha : f.apply x o with
      | none => exact ih.cons _
      | some o' =>
        simp only [Option.map_some, (Change.apply_keeps ha).1]
        exact ih.cons_cons _
  rw [Distinct, hids]
  exact hsub.nodup h

/-! ### Operations on an altered book -/

/-- Inserting an order that the change keeps. -/
theorem alter_insertOrder {o o' : Order} (h : f.apply x o = some o') :
    (b.insertOrder o).alter x f = (b.alter x f).insertOrder o' := by
  obtain ⟨-, hs, hp⟩ := Change.apply_keeps h
  apply ext_atPrice
  · intro side p
    rw [atPrice_alter, atPrice_insertOrder, atPrice_insertOrder, atPrice_alter,
      List.filterMap_append, hs, hp]
    congr 1
    by_cases ho : o.side = side ∧ o.price = p
    · rw [if_pos ho, if_pos ho, List.filterMap_cons, h, List.filterMap_nil]
    · rw [if_neg ho, if_neg ho, List.filterMap_nil]
  · rw [lastTradePrice_alter, lastTradePrice_insertOrder, lastTradePrice_insertOrder]
    rfl

/-- Inserting an order that the change erases. -/
theorem alter_insertOrder_erased {o : Order} (h : f.apply x o = none) :
    (b.insertOrder o).alter x f = b.alter x f := by
  apply ext_atPrice
  · intro side p
    rw [atPrice_alter, atPrice_insertOrder, atPrice_alter, List.filterMap_append]
    by_cases ho : o.side = side ∧ o.price = p
    · rw [if_pos ho, List.filterMap_cons, h, List.filterMap_nil, List.append_nil]
    · rw [if_neg ho, List.filterMap_nil, List.append_nil]
  · rw [lastTradePrice_alter, lastTradePrice_insertOrder]
    rfl

theorem alter_cancelOrder (b : ReferenceBook) (x : OrderId) (f : Change) (y : OrderId) :
    (b.cancelOrder y).alter x f = (b.alter x f).cancelOrder y := by
  apply ext_atPrice
  · intro side p
    rw [atPrice_alter, atPrice_cancelOrder, atPrice_cancelOrder, atPrice_alter,
      List.filterMap_filter, List.filter_filterMap]
    apply List.filterMap_congr
    intro o _
    cases ha : f.apply x o with
    | none => by_cases hy : o.id = y <;> simp [hy]
    | some o' =>
      have hid := (Change.apply_keeps ha).1
      by_cases hy : o.id = y <;> simp [Option.filter, hid, hy]
  · rfl

/-- Overwriting an order. -/
private theorem alter_storeOrder {o : Order} (h : f.Passes x o.id) :
    (b.storeOrder o.id o).alter x f =
      (b.alter x f).storeOrder o.id { o with origQty := f.label x o } := by
  apply ext_atPrice
  · intro side p
    rw [atPrice_alter, atPrice_storeOrder, atPrice_storeOrder, atPrice_alter,
      List.filterMap_map, List.map_filterMap]
    apply List.filterMap_congr
    intro z _
    by_cases hz : z.id = o.id
    · have hz' : f.Passes x z.id := hz ▸ h
      have hover : BookSide.overwrite o.id o z =
          { o with id := z.id, side := z.side, price := z.price } := by
        rw [BookSide.overwrite, if_pos hz]
      rw [Function.comp_apply, hover, Change.apply_of_passes hz',
        Change.apply_of_passes (o := { o with id := z.id, side := z.side, price := z.price }) hz',
        Option.map_some, BookSide.overwrite, if_pos hz]
      simp only [Option.some.injEq, Order.mk.injEq, true_and, and_true]
      cases f with
      | erase => rfl
      | resize φ n => simp only [Change.label, hz]
    · have hover : BookSide.overwrite o.id o z = z := by rw [BookSide.overwrite, if_neg hz]
      rw [Function.comp_apply, hover]
      cases ha : f.apply x z with
      | none => rfl
      | some z' =>
        rw [Option.map_some, BookSide.overwrite, if_neg ((Change.apply_keeps ha).1 ▸ hz)]
  · rfl

/-- Moving an order behind its price. -/
private theorem alter_requeue {y : OrderId} (h : f.Passes x y) :
    (b.requeue y).alter x f = (b.alter x f).requeue y := by
  rw [requeue, requeue, findOrder_alter]
  cases ho : b.findOrder y with
  | none => rfl
  | some o =>
    have hy : f.Passes x o.id := (mem_of_findOrder ho).2 ▸ h
    have ha := Change.apply_of_passes hy
    simp only [Option.bind_some, ha]
    rw [alter_insertOrder ha, alter_cancelOrder]

theorem alter_updateOrderQuantity {y : OrderId} (h : f.Passes x y) (q : Quantity) :
    (BookOps.updateOrderQuantity b y q).alter x f =
      BookOps.updateOrderQuantity (b.alter x f) y q := by
  have hfind : BookOps.findOrder (b.alter x f) y =
      (b.findOrder y).bind fun o ↦ f.apply x o := findOrder_alter b x f y
  rw [BookOps.updateOrderQuantity, BookOps.updateOrderQuantity, hfind]
  cases ho : b.findOrder y with
  | none =>
    have hnone : BookOps.findOrder b y = none := ho
    rw [hnone]
    rfl
  | some o =>
    have hsome : BookOps.findOrder b y = some o := ho
    obtain rfl := (mem_of_findOrder ho).2
    simp only [hsome, Option.bind_some, Change.apply_of_passes h]
    have hstore := alter_storeOrder (b := b) (o := { o with quantity := q }) h
    refine hstore.trans ?_
    cases f <;> rfl

private theorem mem_alter {o : Order} (ho : o ∈ b.allOrders) (h : f.Passes x o.id) :
    { o with origQty := f.label x o } ∈ (b.alter x f).allOrders := by
  rw [allOrders_alter]
  exact List.mem_filterMap.mpr ⟨o, ho, Change.apply_of_passes h⟩

private theorem replenishIceberg_alter {o : Order} {q : Quantity} (ho : o ∈ b.allOrders)
    (h : f.Passes x o.id) (hs : replenishIceberg b o.id o q = .ok b') :
    replenishIceberg (b.alter x f) o.id { o with origQty := f.label x o } q =
      .ok (b'.alter x f) := by
  have hhas : BookOps.hasLevel (b.alter x f) o.side o.price = true :=
    hasLevel_of_mem (o := { o with origQty := f.label x o }) (mem_alter ho h)
  rw [replenishIceberg, if_pos (hasLevel_of_mem ho)] at hs
  obtain rfl := Except.ok.inj hs
  rw [replenishIceberg, if_pos hhas]
  change Except.ok (BookOps.updateOrderQuantity (((b.alter x f).requeue o.id).storeOrder o.id
    { o.replenished with origQty := f.label x o }) o.id o.replenished.quantity) =
    .ok ((BookOps.updateOrderQuantity ((b.requeue o.id).storeOrder o.id o.replenished) o.id
      o.replenished.quantity).alter x f)
  have hstore := alter_storeOrder (b := b.requeue o.id) (f := f) (x := x) (o := o.replenished) h
  have hlabel : f.label x o.replenished = f.label x o := by cases f <;> rfl
  rw [hlabel] at hstore
  rw [alter_updateOrderQuantity h, ← alter_requeue h]
  exact congrArg (fun b ↦ Except.ok (BookOps.updateOrderQuantity b o.id o.replenished.quantity))
    hstore.symm

/-- Filling an order against which the change is not seen. -/
theorem settlePassive_alter {o : Order} {q : Quantity} (hd : b.Distinct) (ho : o ∈ b.allOrders)
    (h : f.Passes x o.id) (hs : settlePassive b o.id o q = .ok b') :
    settlePassive (b.alter x f) o.id { o with origQty := f.label x o } q =
      .ok (b'.alter x f) := by
  let o' := { o with quantity := o.quantity - q }
  let o₁ := { o' with origQty := f.label x o }
  let b₁ := BookOps.setLastTradePrice (b.storeOrder o.id o') o.price
  have hstore : b₁.alter x f = BookOps.setLastTradePrice
      ((b.alter x f).storeOrder o.id { o' with origQty := f.label x o }) o.price := by
    have hstore := alter_storeOrder (b := b) (f := f) (x := x) (o := o') h
    have hlabel : f.label x o' = f.label x o := by cases f <;> rfl
    rw [hlabel] at hstore
    change BookOps.setLastTradePrice ((b.storeOrder o.id o').alter x f) o.price = _
    rw [hstore]
  have ho' : o' ∈ b₁.allOrders := by
    have hp := hd.storeOrder_perm (x := o') (hd.perm_of_mem ho) rfl rfl rfl
    exact hp.mem_iff.mpr List.mem_cons_self
  have hlabel : f.label x o' = f.label x o := by cases f <;> rfl
  simp only [settlePassive] at hs ⊢
  split at hs
  · next hr =>
    rw [if_pos (show o.quantity - q = 0 ∧ o₁.isIceberg = true ∧ o.reserveQty > 0 from hr)]
    have hrep := replenishIceberg_alter (b := b₁) (o := o') ho' h hs
    rw [hstore, hlabel] at hrep
    exact hrep
  · next hr =>
    rw [if_neg (show ¬(o.quantity - q = 0 ∧ o₁.isIceberg = true ∧ o.reserveQty > 0) from hr)]
    split at hs
    · next h0 =>
      rw [if_pos h0]
      obtain rfl := Except.ok.inj hs
      have hfill := alter_storeOrder (b := b₁) (f := f) (x := x)
        (o := { o' with status := .filled }) h
      have hlabel' : f.label x { o' with status := .filled } = f.label x o := by cases f <;> rfl
      rw [hstore, hlabel'] at hfill
      have hc := alter_cancelOrder (b₁.storeOrder o'.id { o' with status := .filled }) x f o.id
      rw [hfill] at hc
      exact congrArg Except.ok hc.symm
    · next h0 =>
      rw [if_neg h0]
      obtain rfl := Except.ok.inj hs
      have hu := alter_updateOrderQuantity (b := b₁) (f := f) (x := x) (y := o.id) h o'.quantity
      rw [hstore] at hu
      exact congrArg Except.ok hu.symm

end ReferenceBook

end LobEngine
