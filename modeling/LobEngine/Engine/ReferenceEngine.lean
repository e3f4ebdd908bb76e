import LobEngine.Book.ReferenceBook
import LobEngine.Engine.Machine
import LobEngine.Lib.Words

/-!
# The engine over the reference book

What one fill does to the reference book: the passive order is the first of its side, and
in the list of all orders it is replaced by what the fill leaves of it.
-/

namespace LobEngine

open BookOps Engine

namespace Order

/-- An iceberg with a new peak out of its reserve. -/
def replenished (o : Order) : Order :=
  { o with quantity := min o.peakQty o.reserveQty
           reserveQty := o.reserveQty - min o.peakQty o.reserveQty }

/-- What a fill leaves of a passive order. -/
def leftAfter (o : Order) (q : Quantity) : Option Order :=
  if o.quantity - q = 0 then
    if o.isIceberg = true ∧ o.reserveQty > 0 then some o.replenished else none
  else some { o with quantity := o.quantity - q }

/-- The queue of a passive order and the orders `back` behind it, after a fill. -/
def queueAfter (o : Order) (q : Quantity) (back : List Order) : List Order :=
  if o.quantity - q = 0 then
    if o.isIceberg = true ∧ o.reserveQty > 0 then back ++ [o.replenished] else back
  else { o with quantity := o.quantity - q } :: back

end Order

/-- `o` is what became of `x`. -/
structure Order.Descends (o x : Order) : Prop where
  id_eq : o.id = x.id
  side_eq : o.side = x.side
  type_eq : o.type = x.type
  price_eq : o.price = x.price
  peak_eq : o.peakQty = x.peakQty
  reserve_le : o.reserveQty.toNat ≤ x.reserveQty.toNat

theorem Order.Descends.refl (o : Order) : o.Descends o := ⟨rfl, rfl, rfl, rfl, rfl, Nat.le_refl _⟩

theorem Order.Descends.trans {o x y : Order} (h : o.Descends x) (h' : x.Descends y) :
    o.Descends y where
  id_eq := h.id_eq.trans h'.id_eq
  side_eq := h.side_eq.trans h'.side_eq
  type_eq := h.type_eq.trans h'.type_eq
  price_eq := h.price_eq.trans h'.price_eq
  peak_eq := h.peak_eq.trans h'.peak_eq
  reserve_le := h.reserve_le.trans h'.reserve_le

/-- What a fill leaves of an order descends from it. -/
theorem leftAfter_descends {o x : Order} {q : Quantity} (h : x ∈ (o.leftAfter q).toList) :
    x.Descends o := by
  rw [Option.mem_toList, Order.leftAfter] at h
  split at h
  · split at h
    · obtain rfl := Option.some.inj h
      refine ⟨rfl, rfl, rfl, rfl, rfl, ?_⟩
      have hsub := UInt64.toNat_sub_min_right o.peakQty o.reserveQty
      simp only [Order.replenished]
      omega
    · exact absurd h (by simp)
  · obtain rfl := Option.some.inj h
    exact ⟨rfl, rfl, rfl, rfl, rfl, Nat.le_refl _⟩

namespace ReferenceBook

variable {b b' : ReferenceBook} {side : Side} {o : Order} {rest : List Order}

theorem mem_of_head (ho : b.orders side = o :: rest) : o ∈ b.allOrders ∧ o.side = side :=
  mem_orders.mp (ho ▸ List.mem_cons_self : o ∈ b.orders side)

/-- The picked order is the first of the side, at the best price. -/
theorem Distinct.of_pickPassive (h : b.Distinct) {key : OrderId}
    (hp : pickPassive b side = .ok (key, o, b')) :
    b' = b ∧ key = o.id ∧ (∃ rest, b.orders side = o :: rest) ∧
      bestPrice b side = some o.price := by
  cases ho : b.orders side with
  | nil =>
    have hf : frontOrder b side = none := by
      change (b.orders side).head?.map _ = none
      rw [ho]
      rfl
    rw [pickPassive, hf] at hp
    exact absurd hp (by simp)
  | cons x rest =>
    have hf : frontOrder b side = some (x.id, b) := by
      change (b.orders side).head?.map _ = _
      rw [ho]
      rfl
    have hx : BookOps.findOrder b x.id = some x := h.findOrder_of_mem (mem_of_head ho).1
    rw [pickPassive, hf] at hp
    simp only [hx, Except.ok.injEq, Prod.mk.injEq] at hp
    obtain ⟨rfl, rfl, rfl⟩ := hp
    refine ⟨rfl, rfl, ⟨rest, rfl⟩, ?_⟩
    change (b.orders side).head?.map _ = _
    rw [ho]
    rfl

/-- The first order of a side is picked. -/
theorem Distinct.pickPassive (h : b.Distinct) (ho : b.orders side = o :: rest) :
    Engine.pickPassive b side = .ok (o.id, o, b) := by
  have hf : frontOrder b side = some (o.id, b) := by
    change (b.orders side).head?.map _ = _
    rw [ho]
    rfl
  have hx : BookOps.findOrder b o.id = some o := h.findOrder_of_mem (mem_of_head ho).1
  rw [Engine.pickPassive, hf]
  simp only [hx]

/-- The best price is that of the first order. -/
theorem bestPrice_of_head (ho : b.orders side = o :: rest) :
    BookOps.bestPrice b side = some o.price := by
  change (b.orders side).head?.map _ = _
  rw [ho]
  rfl

/-- The book after one fill of the first order of a side. -/
structure Filled (b : ReferenceBook) (o : Order) (q : Quantity) (b' : ReferenceBook) : Prop where
  last : b'.lastTradePrice = o.price
  distinct : b'.Distinct
  perm : List.Perm b'.allOrders ((o.leftAfter q).toList ++ b.allOrders.filter (·.id != o.id))
  elsewhere : ∀ {side p}, ¬(o.side = side ∧ o.price = p) → b'.atPrice side p = b.atPrice side p

/-- Every order of the book after a fill descends from one of the book before. -/
theorem Filled.descends {q : Quantity} (h : b.Filled o q b') (ho : o ∈ b.allOrders) {x : Order}
    (hx : x ∈ b'.allOrders) : ∃ y ∈ b.allOrders, x.Descends y := by
  rcases List.mem_append.mp (h.perm.mem_iff.mp hx) with hx | hx
  · exact ⟨o, ho, leftAfter_descends hx⟩
  · exact ⟨x, (List.mem_filter.mp hx).1, .refl x⟩

private theorem replenishIceberg_filled {os : List Order} (h : b.Distinct)
    (hp : List.Perm b.allOrders (o :: os)) {q : Quantity}
    (hs : replenishIceberg b o.id o q = .ok b') :
    b'.lastTradePrice = b.lastTradePrice ∧ b'.Distinct ∧
      List.Perm b'.allOrders (o.replenished :: os) ∧ ∀ {side p}, ¬(o.side = side ∧ o.price = p) →
        b'.atPrice side p = b.atPrice side p := by
  have ho : o ∈ b.allOrders := hp.mem_iff.mpr List.mem_cons_self
  rw [replenishIceberg, if_pos (hasLevel_of_mem ho)] at hs
  obtain rfl := Except.ok.inj hs
  have hr := h.requeue_perm hp
  have hst := (h.requeue o.id).storeOrder_perm (x := o.replenished) hr rfl rfl rfl
  have hdst := (h.requeue o.id).storeOrder o.id o.replenished
  refine ⟨?_, hdst.updateOrderQuantity _ _, hdst.updateOrderQuantity_perm hst _, fun hne ↦ ?_⟩
  · have hfind : BookOps.findOrder ((b.requeue o.id).storeOrder o.id o.replenished) o.id =
        some o.replenished := hdst.findOrder_of_mem (hst.mem_iff.mpr List.mem_cons_self)
    change (BookOps.updateOrderQuantity ((b.requeue o.id).storeOrder o.id o.replenished) o.id _
      ).lastTradePrice = _
    rw [BookOps.updateOrderQuantity, hfind]
    exact lastTradePrice_requeue b o.id
  · have hu := hdst.atPrice_updateOrderQuantity (hst.mem_iff.mpr List.mem_cons_self)
      (min o.peakQty o.reserveQty) hne
    refine hu.trans ?_
    rw [(h.requeue o.id).atPrice_storeOrder_of_ne (hr.mem_iff.mpr List.mem_cons_self) _ hne,
      h.atPrice_requeue ho, if_neg hne]

/-- A fill replaces the passive order by what it leaves of it. -/
theorem Distinct.filled (h : b.Distinct) (ho : o ∈ b.allOrders) {q : Quantity}
    (hs : settlePassive b o.id o q = .ok b') : b.Filled o q b' := by
  let o' := { o with quantity := o.quantity - q }
  let b₁ := BookOps.setLastTradePrice (b.storeOrder o.id o') o.price
  have hd : b₁.Distinct := h.storeOrder o.id o'
  have hp : List.Perm b₁.allOrders (o' :: b.allOrders.filter (·.id != o.id)) :=
    h.storeOrder_perm (h.perm_of_mem ho) rfl rfl rfl
  have ho₁ : o' ∈ b₁.allOrders := hp.mem_iff.mpr List.mem_cons_self
  have hat₁ {side : Side} {p : Price} (hne : ¬(o.side = side ∧ o.price = p)) :
      b₁.atPrice side p = b.atPrice side p := by
    rw [← h.atPrice_storeOrder_of_ne ho o' hne]
    cases side <;> rfl
  cases settles hs with
  | replenished h0 hre hb =>
    obtain ⟨hlast, hd', hp', hat⟩ := replenishIceberg_filled (o := o') hd hp hb
    refine ⟨hlast, hd', ?_, fun hne ↦ (hat hne).trans (hat₁ hne)⟩
    rw [Order.leftAfter, if_pos h0, if_pos hre]
    exact hp'
  | filled h0 hre =>
    have hst := hd.storeOrder_perm (x := { o' with status := .filled }) hp rfl rfl rfl
    have hdst := hd.storeOrder o'.id { o' with status := .filled }
    refine ⟨rfl, hdst.cancelOrder o'.id, ?_, fun hne ↦ ?_⟩
    · rw [Order.leftAfter, if_pos h0, if_neg hre]
      have hc := hdst.cancelOrder_perm hst
      exact hc
    · have hc := hdst.atPrice_cancelOrder_of_ne (hst.mem_iff.mpr List.mem_cons_self) hne
      exact (hc.trans (hd.atPrice_storeOrder_of_ne ho₁ _ hne)).trans (hat₁ hne)
  | reduced h0 =>
    refine ⟨?_, hd.updateOrderQuantity o'.id _, ?_, fun hne ↦ ?_⟩
    · have hfind : BookOps.findOrder b₁ o'.id = some o' :=
        hd.findOrder_of_mem ho₁
      change (BookOps.updateOrderQuantity b₁ o'.id _).lastTradePrice = _
      rw [BookOps.updateOrderQuantity, hfind]
      rfl
    · rw [Order.leftAfter, if_neg h0]
      have hu := hd.updateOrderQuantity_perm hp o'.quantity
      exact hu
    · exact (hd.atPrice_updateOrderQuantity ho₁ _ hne).trans (hat₁ hne)

private theorem replenishIceberg_queue (h : b.Distinct) {back : List Order}
    (hat : b.atPrice o.side o.price = [] ++ o :: back) {q : Quantity}
    (hs : replenishIceberg b o.id o q = .ok b') :
    b'.atPrice o.side o.price = back ++ [o.replenished] := by
  have hmem : o ∈ b.allOrders :=
    (mem_atPrice.mp (hat ▸ List.mem_cons_self : o ∈ b.atPrice o.side o.price)).1
  rw [replenishIceberg, if_pos (hasLevel_of_mem hmem)] at hs
  obtain rfl := Except.ok.inj hs
  have hdr := h.requeue o.id
  have hr : (b.requeue o.id).atPrice o.side o.price = back ++ o :: [] := h.queue_requeue hat
  have hds := hdr.storeOrder o.id o.replenished
  have hstore := hdr.queue_storeOrder hr (x := o.replenished) rfl rfl rfl
  exact hds.queue_updateOrderQuantity hstore (min o.peakQty o.reserveQty)

/-- What a fill does to the queue of the passive order. -/
theorem Distinct.filled_queue (h : b.Distinct) {back : List Order}
    (hat : b.atPrice o.side o.price = o :: back) {q : Quantity}
    (hs : settlePassive b o.id o q = .ok b') :
    b'.atPrice o.side o.price = o.queueAfter q back := by
  let o' := { o with quantity := o.quantity - q }
  let b₁ := BookOps.setLastTradePrice (b.storeOrder o.id o') o.price
  have hd₁ : b₁.Distinct := h.storeOrder o.id o'
  have hat₁ : b₁.atPrice o'.side o'.price = [] ++ o' :: back := by
    have hstore : (b.storeOrder o.id o').atPrice o.side o.price = [] ++ o' :: back :=
      h.queue_storeOrder hat rfl rfl rfl
    rw [← hstore]
    cases o.side <;> rfl
  rw [Order.queueAfter]
  cases settles hs with
  | replenished h0 hre hb =>
    rw [if_pos h0, if_pos hre]
    exact replenishIceberg_queue (o := o') hd₁ hat₁ hb
  | filled h0 hre =>
    have hd₂ := hd₁.storeOrder o'.id { o' with status := .filled }
    have hat₂ := hd₁.queue_storeOrder hat₁ (x := { o' with status := .filled }) rfl rfl rfl
    rw [if_pos h0, if_neg hre]
    exact hd₂.queue_cancelOrder (o := { o' with status := .filled }) hat₂
  | reduced h0 =>
    rw [if_neg h0]
    exact hd₁.queue_updateOrderQuantity (o := o') hat₁ o'.quantity

end ReferenceBook

end LobEngine
