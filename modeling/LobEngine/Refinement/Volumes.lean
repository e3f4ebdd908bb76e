import LobEngine.Lib.SumOver
import LobEngine.Lib.Words
import LobEngine.Refinement.Lockstep
import LobEngine.Refinement.RecordedVolume

/-!
# Volumes and quantities

A level keeps its volume by itself, next to the quantities of its orders. What every member of
the book does to the two, for orders without a peak. The volumes may exceed the quantities at
one price: filling an order completely takes its quantity but leaves the volume alone.
-/

namespace LobEngine

open PriceLevelOps LawfulPriceLevel BookOps Engine

/-! ### Quantities -/

/-- The sum of the quantities of the orders that pass a test. -/
def quantityOf (t : Order → Bool) (os : List Order) : Nat := os.sumOver t fun o ↦ o.quantity.toNat

/-- The test asks for the place of an order only. -/
def OfPlace (t : Order → Bool) : Prop :=
  ∀ {o x : Order}, o.side = x.side → o.price = x.price → t o = t x

theorem Order.restsAt_ofPlace (side : Side) (p : Price) : OfPlace (Order.restsAt side p) := by
  intro o x hs hp
  rw [Order.restsAt, Order.restsAt, hs, hp]

private theorem quantityOf_cons (t : Order → Bool) (o : Order) (os : List Order) :
    quantityOf t (o :: os) = (if t o then o.quantity.toNat else 0) + quantityOf t os :=
  List.sumOver_cons _ _ _ _

theorem quantityOf_perm {os os' : List Order} (h : List.Perm os os') (t : Order → Bool) :
    quantityOf t os = quantityOf t os' := h.sumOver_eq

/-- The orders at one price are the summands of its quantity. -/
theorem quantityOf_restsAt (r : ReferenceBook) (side : Side) (p : Price) :
    quantityOf (Order.restsAt side p) r.allOrders =
      ((r.atPrice side p).map fun o ↦ o.quantity.toNat).sum := by
  rw [quantityOf, List.sumOver, ReferenceBook.filter_restsAt]

/-- Where no order rests there is no quantity. -/
theorem quantityOf_eq_zero {r : ReferenceBook} {side : Side} {p : Price}
    (h : r.atPrice side p = []) : quantityOf (Order.restsAt side p) r.allOrders = 0 := by
  rw [quantityOf_restsAt, h]
  rfl

/-- The order `o` loses the quantity `q`, or leaves the book with it. -/
def LosesQuantity (r r' : ReferenceBook) (o : Order) (q : Quantity) : Prop :=
  ∀ t, OfPlace t →
    quantityOf t r'.allOrders + (if t o then q.toNat else 0) = quantityOf t r.allOrders

namespace ReferenceBook.Distinct

variable {r r' : ReferenceBook} {o : Order}

/-- Cancelling takes the whole quantity. -/
private theorem losesQuantity_cancelOrder (h : r.Distinct) (ho : o ∈ r.allOrders) :
    LosesQuantity r (r.cancelOrder o.id) o o.quantity := by
  intro t _
  have hp := h.perm_of_mem ho
  rw [quantityOf_perm (h.cancelOrder_perm hp), quantityOf_perm hp, quantityOf_cons, Nat.add_comm]

/-- A smaller quantity takes the difference. -/
theorem losesQuantity_updateOrderQuantity (h : r.Distinct) (ho : o ∈ r.allOrders) {q : Quantity}
    (hq : q ≤ o.quantity) :
    LosesQuantity r (BookOps.updateOrderQuantity r o.id q) o (o.quantity - q) := by
  intro t ht
  have hp := h.perm_of_mem ho
  have hsub := UInt64.toNat_sub_of_le _ _ hq
  have hplace : t { o with quantity := q } = t o := ht rfl rfl
  rw [UInt64.le_iff_toNat_le] at hq
  rw [quantityOf_perm (h.updateOrderQuantity_perm hp q), quantityOf_perm hp, quantityOf_cons,
    quantityOf_cons, hplace]
  dsimp only
  split <;> omega

/-- A fill of an order without a peak takes the filled quantity. -/
theorem losesQuantity_filled (h : r.Distinct) (ho : o ∈ r.allOrders) (hpeak : o.peakQty = 0)
    {q : Quantity} (hq : q ≤ o.quantity) (hf : r.Filled o q r') : LosesQuantity r r' o q := by
  intro t ht
  have hsub := UInt64.toNat_sub_of_le _ _ hq
  have hplace : t { o with quantity := o.quantity - q } = t o := ht rfl rfl
  have hice : o.isIceberg = false := by simp [Order.isIceberg, hpeak]
  rw [UInt64.le_iff_toNat_le] at hq
  rw [quantityOf_perm hf.perm, quantityOf_perm (h.perm_of_mem ho), quantityOf_cons,
    Order.leftAfter, hice]
  by_cases h0 : o.quantity - q = 0
  · rw [if_pos h0, if_neg (by simp), Option.toList_none, List.nil_append]
    rw [UInt64.eq_zero_iff_toNat] at h0
    split <;> omega
  · rw [if_neg h0, Option.toList_some, List.singleton_append, quantityOf_cons, hplace]
    dsimp only
    split <;> omega

/-- An order counts for its own place. -/
theorem le_quantityOf (h : r.Distinct) (ho : o ∈ r.allOrders) {t : Order → Bool} (ht : t o = true) :
    o.quantity.toNat ≤ quantityOf t r.allOrders := by
  rw [quantityOf_perm (h.perm_of_mem ho), quantityOf_cons, if_pos ht]
  exact Nat.le_add_right _ _

end ReferenceBook.Distinct

/-! ### Volumes -/

namespace OrderBook

variable {b : OrderBook PriceLevel} {o : Order}

/-- A reduction within the volume. -/
private theorem volume_reduceLevelVolume {side : Side} {p : Price} {q : Quantity}
    (h : q.toNat ≤ b.volume side p) (side' : Side) (p' : Price) :
    (b.reduceLevelVolume side p q).volume side' p' +
        (if side = side' ∧ p = p' then q.toNat else 0) =
      b.volume side' p' := by
  rw [volume_reduced]
  split
  · next hsp =>
    obtain ⟨rfl, rfl⟩ := hsp
    exact Nat.sub_add_cancel h
  · exact Nat.add_zero _

/-- An insertion that does not overflow. -/
private theorem volume_insertOrder (h : b.volume o.side o.price + o.visibleQty.toNat < 2 ^ 64)
    (side : Side) (p : Price) : (b.insertOrder o).volume side p =
      b.volume side p + if o.restsAt side p then o.visibleQty.toNat else 0 := by
  rw [volume_inserted]
  split
  · next hat =>
    obtain ⟨rfl, rfl⟩ := Order.restsAt_iff.mp hat
    exact Nat.mod_eq_of_lt h
  · exact (Nat.add_zero _).symm

end OrderBook

namespace Represents

variable {b : OrderBook PriceLevel} {r : ReferenceBook}

/-- There is a level exactly where an order rests. -/
private theorem isSome_getLevel (h : Represents b r) (side : Side) (p : Price) :
    (b.getLevel side p).isSome = true ↔ r.atPrice side p ≠ [] := by
  have hl := h.lists side p
  cases hg : b.getLevel side p with
  | none =>
    rw [hg] at hl
    exact iff_of_false (by simp) (not_not_intro hl)
  | some l =>
    rw [hg] at hl
    exact iff_of_true rfl hl.2.2.2

/-- Where no order rests there is no volume. -/
theorem volume_eq_zero (h : Represents b r) {side : Side} {p : Price} (hr : r.atPrice side p = []) :
    b.volume side p = 0 := by
  have hno : ¬(b.getLevel side p).isSome = true :=
    fun hsome ↦ (h.isSome_getLevel side p).mp hsome hr
  have hnone : b.getLevel side p = none := by simpa using hno
  rw [OrderBook.volume, hnone]
  rfl

/-- A cancel takes the visible quantity off the volume, unless it erases the level. -/
private theorem volume_cancelOrder (h : Represents b r) {id : OrderId} {o : Order}
    (ho : b.findOrder id = some o) (hv : o.visibleQty.toNat ≤ b.volume o.side o.price) (side : Side)
    (p : Price) (hr : o.restsAt side p = true → (r.cancelOrder id).atPrice side p ≠ []) :
    (b.cancelOrder id).1.volume side p + (if o.restsAt side p then o.visibleQty.toNat else 0) =
      b.volume side p := by
  rw [OrderBook.volume_cancelled ho]
  split
  · next hat =>
    rw [if_pos (((h.cancelOrder id).isSome_getLevel side p).mpr (hr hat))]
    obtain ⟨rfl, rfl⟩ := Order.restsAt_iff.mp hat
    exact Nat.sub_add_cancel hv
  · exact Nat.add_zero _

end Represents

/-- The volumes are the quantities, but for an excess `x` at one price. -/
def VolumesBut (side : Side) (p : Price) (x : Nat) (b : OrderBook PriceLevel) (r : ReferenceBook) :
    Prop :=
  ∀ side' p', b.volume side' p' =
    quantityOf (Order.restsAt side' p') r.allOrders + if side = side' ∧ p = p' then x else 0

namespace VolumesBut

variable {b b' : OrderBook PriceLevel} {r r' : ReferenceBook} {side : Side} {p : Price} {x : Nat}
  {o : Order} {q : Quantity}

/-- Without an excess the place does not matter. -/
theorem move (h : VolumesBut side p 0 b r) (side' : Side) (p' : Price) :
    VolumesBut side' p' 0 b r := by
  intro side'' p''
  rw [h side'' p'', ite_self, ite_self]

/-- An operation that changes no volumes. -/
theorem congr (h : VolumesBut side p x b r) (hb : ∀ side p, b'.volume side p = b.volume side p) :
    VolumesBut side p x b' r := by
  intro side' p'
  rw [hb, h side' p']

/-- The volume at a price covers the quantity there. -/
private theorem le_volume (h : VolumesBut side p x b r) (side' : Side) (p' : Price) :
    quantityOf (Order.restsAt side' p') r.allOrders ≤ b.volume side' p' := by
  rw [h side' p']
  exact Nat.le_add_right _ _

/-- An excess is at the price of an order. -/
theorem exists_mem (h : VolumesBut side p x b r) (hr : Represents b r) (hx : x ≠ 0) :
    ∃ o, o ∈ r.atPrice side p := by
  by_contra hnone
  have hnil : r.atPrice side p = [] :=
    List.eq_nil_iff_forall_not_mem.mpr fun o ho ↦ hnone ⟨o, ho⟩
  have hv := h side p
  rw [hr.volume_eq_zero hnil, quantityOf_eq_zero hnil, if_pos ⟨rfl, rfl⟩] at hv
  omega

/-- An order loses a quantity that its level does not. -/
private theorem lose (h : VolumesBut o.side o.price x b r) (hl : LosesQuantity r r' o q) :
    VolumesBut o.side o.price (x + q.toNat) b r' := by
  intro side p
  have hv := h side p
  have hq := hl _ (Order.restsAt_ofPlace side p)
  simp only [Order.restsAt_iff] at hq
  split at hq
  · next hsp =>
    rw [if_pos hsp] at hv ⊢
    omega
  · next hsp =>
    rw [if_neg hsp] at hv ⊢
    omega

/-- An order and its level lose a quantity. -/
theorem reduceLevelVolume (h : VolumesBut side p x b r) (hl : LosesQuantity r r' o q) :
    VolumesBut side p x (b.reduceLevelVolume o.side o.price q) r' := by
  have hself := hl _ (Order.restsAt_ofPlace o.side o.price)
  rw [if_pos (Order.restsAt_iff.mpr ⟨rfl, rfl⟩)] at hself
  have hle : q.toNat ≤ b.volume o.side o.price := by
    have hcover := h.le_volume o.side o.price
    omega
  intro side' p'
  have hv := h side' p'
  have hq := hl _ (Order.restsAt_ofPlace side' p')
  have hred := OrderBook.volume_reduceLevelVolume hle side' p'
  simp only [Order.restsAt_iff] at hq
  split at hq
  · next hsp =>
    rw [if_pos hsp] at hred
    omega
  · next hsp =>
    rw [if_neg hsp] at hred
    omega

/-- An order comes to rest. -/
theorem insertOrder (h : VolumesBut side p x b r) (hpeak : o.peakQty = 0)
    (hroom : b.volume o.side o.price + o.quantity.toNat < 2 ^ 64) :
    VolumesBut side p x (b.insertOrder o) (r.insertOrder o) := by
  have hvis : o.visibleQty = o.quantity := by simp [Order.visibleQty, Order.isIceberg, hpeak]
  intro side' p'
  rw [OrderBook.volume_insertOrder (hvis ▸ hroom), h side' p',
    quantityOf_perm (ReferenceBook.allOrders_insertOrder r o), quantityOf_cons, hvis]
  omega

/-- A cancel takes the quantity of its order, and the excess with the level. -/
theorem cancelOrder (h : VolumesBut o.side o.price x b r) (hr : Represents b r)
    (ho : b.findOrder o.id = some o) (hpeak : o.peakQty = 0) : ∃ x', (x' = x ∨ x' = 0) ∧
      VolumesBut o.side o.price x' (b.cancelOrder o.id).1 (r.cancelOrder o.id) := by
  have hmem := (ReferenceBook.mem_of_findOrder ((hr.find o.id).symm.trans ho)).1
  have hvis : o.visibleQty = o.quantity := by simp [Order.visibleQty, Order.isIceberg, hpeak]
  have hself := hr.distinct.le_quantityOf hmem (Order.restsAt_iff.mpr ⟨rfl, rfl⟩)
  have hle := h.le_volume o.side o.price
  have hrest {side : Side} {p : Price}
      (hne : o.restsAt side p = true → (r.cancelOrder o.id).atPrice side p ≠ []) :
      (b.cancelOrder o.id).1.volume side p =
        quantityOf (Order.restsAt side p) (r.cancelOrder o.id).allOrders +
          if o.side = side ∧ o.price = p then x else 0 := by
    have hv := h side p
    have hq := hr.distinct.losesQuantity_cancelOrder hmem _ (Order.restsAt_ofPlace side p)
    have hc := hr.volume_cancelOrder ho (by rw [hvis]; omega) side p hne
    rw [hvis] at hc
    omega
  by_cases hnil : (r.cancelOrder o.id).atPrice o.side o.price = []
  · refine ⟨0, .inr rfl, fun side p ↦ ?_⟩
    rw [ite_self, Nat.add_zero]
    by_cases hsp : o.side = side ∧ o.price = p
    · obtain ⟨rfl, rfl⟩ := hsp
      rw [quantityOf_eq_zero hnil]
      exact (hr.cancelOrder o.id).volume_eq_zero hnil
    · have hsame := hrest fun hat ↦ absurd (Order.restsAt_iff.mp hat) hsp
      rwa [if_neg hsp, Nat.add_zero] at hsame
  · refine ⟨x, .inl rfl, fun side p ↦ hrest fun hat ↦ ?_⟩
    obtain ⟨rfl, rfl⟩ := Order.restsAt_iff.mp hat
    exact hnil

/-- A fill of an order without a peak adds to the excess only if it fills the order completely. -/
theorem settlePassive (h : VolumesBut o.side o.price x b r) (hr : Represents b r)
    (ho : b.findOrder o.id = some o) (hpeak : o.peakQty = 0) (hq : q ≤ o.quantity)
    (hb : settlePassive b o.id o q = .ok b') (hr' : Engine.settlePassive r o.id o q = .ok r') :
    ∃ x', (q ≠ o.quantity → x' = x) ∧ VolumesBut o.side o.price x' b' r' := by
  let o' := { o with quantity := o.quantity - q }
  have hmem := (ReferenceBook.mem_of_findOrder ((hr.find o.id).symm.trans ho)).1
  have hl := hr.distinct.losesQuantity_filled hmem hpeak hq (hr.distinct.filled hmem hr')
  have hst := (hr.storeOrder (o := o') ho rfl rfl rfl).setLastTradePrice o.price
  have hfind : (setLastTradePrice (b.storeOrder o.id o') o.price).findOrder o.id = some o' := by
    change (b.storeOrder o.id o').findOrder o.id = some o'
    rw [OrderBook.findOrder_storeOrder, if_pos rfl]
  have hb₁ : VolumesBut o.side o.price x (setLastTradePrice (b.storeOrder o.id o') o.price) r :=
    h.congr fun side p ↦ by
      rw [OrderBook.volume_setLastTradePrice]
      exact OrderBook.volume_storeOrder _ _ _ _ _
  simp only [Engine.settlePassive] at hb hr'
  split at hb
  · next hre => exact absurd hre.2.1 (by simp [Order.isIceberg, hpeak])
  · next hre =>
    rw [if_neg hre] at hr'
    split at hb
    · next h0 =>
      rw [if_pos h0] at hr'
      obtain rfl := Except.ok.inj hb
      obtain rfl := Except.ok.inj hr'
      let o'' := { o' with status := .filled }
      have hfill := hst.storeOrder (o := o'') hfind rfl rfl rfl
      have hfind' : ((setLastTradePrice (b.storeOrder o.id o') o.price).storeOrder o.id
          o'').findOrder o''.id = some o'' := by
        rw [OrderBook.findOrder_storeOrder]
        exact if_pos rfl
      have hmem' := (ReferenceBook.mem_of_findOrder ((hfill.find _).symm.trans hfind')).1
      have hstored : LosesQuantity r _ o q := fun t ht ↦ by
        have hq := hl t ht
        have hc := hfill.distinct.losesQuantity_cancelOrder hmem' t ht
        rw [show o''.quantity = 0 from h0, UInt64.toNat_zero, ite_self, Nat.add_zero] at hc
        exact hc ▸ hq
      have hb₂ := (hb₁.lose hstored).congr fun side p ↦
        OrderBook.volume_storeOrder _ o.id o'' side p
      obtain ⟨x', -, hv⟩ := VolumesBut.cancelOrder (o := o'') hb₂ hfill hfind' hpeak
      refine ⟨x', fun hne ↦ absurd ?_ hne, hv⟩
      exact (sub_eq_zero.mp h0).symm
    · next h0 =>
      rw [if_neg h0] at hr'
      obtain rfl := Except.ok.inj hb
      refine ⟨x, fun _ ↦ rfl, ?_⟩
      exact (hb₁.reduceLevelVolume hl).congr fun side p ↦
        OrderBook.volume_updateOrderQuantity _ _ _ _ _

end VolumesBut

end LobEngine
