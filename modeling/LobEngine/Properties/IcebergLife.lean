import LobEngine.Properties.TimePriority
import LobEngine.Refinement.RecordedVolume

/-!
# What an iceberg leaves behind

An iceberg that comes to rest adds its peak to the volume of its level, a fill takes what it fills,
a replenishment adds the new peak, and the removal takes the whole peak, however much of it is
still displayed. Over the life of the order this nets to zero exactly if the order leaves with as
much on display as it came with.
-/

namespace LobEngine

open PriceLevelOps BookOps Engine

/-- What a fill brings to display: the next peak, once nothing is displayed any more;
`src/engine/matching_engine.cpp:147,169`. -/
def Order.newPeak (o : Order) (q : Quantity) : Quantity :=
  if o.quantity - q = 0 ∧ o.isIceberg = true ∧ o.reserveQty > 0 then min o.peakQty o.reserveQty
  else 0

/-- The volume takes a change as it is: what is taken is there, and what is added fits. -/
def Absorbs (v : Nat) (taken added : Quantity) : Prop :=
  taken.toNat ≤ v ∧ v - taken.toNat + added.toNat < 2 ^ 64

instance (v : Nat) (taken added : Quantity) : Decidable (Absorbs v taken added) :=
  inferInstanceAs (Decidable (_ ∧ _))

/-- The order `x` since it was inserted into the book `b₀`: the book reached, the order as it is
stored there, and what everything but its own insertion and its own fills has changed in the volume
of its level. `Ok` is asked of its own changes: the volume before, what is taken and added. -/
inductive Life (Ok : Nat → Quantity → Quantity → Prop) (x : Order) (b₀ : OrderBook PriceLevel) :
    OrderBook PriceLevel → Order → Int → Prop
  | inserted : Ok (b₀.volume x.side x.price) 0 x.visibleQty →
      Life Ok x b₀ (b₀.insertOrder x) x 0
  | others {b b' : OrderBook PriceLevel} {o : Order} {adjusted : Int} :
      Life Ok x b₀ b o adjusted → b'.findOrder x.id = some o →
      Life Ok x b₀ b' o (adjusted + (b'.volume x.side x.price - b.volume x.side x.price))
  | filled {b b₁ b' : OrderBook PriceLevel} {o o' : Order} {q : Quantity} {adjusted : Int} :
      Life Ok x b₀ b o adjusted → pickPassive b x.side = .ok (x.id, o, b₁) → q ≤ o.quantity →
      settlePassive b₁ x.id o q = .ok b' → b'.findOrder x.id = some o' →
      Ok (b.volume x.side x.price) q (o.newPeak q) → Life Ok x b₀ b' o' adjusted

/-- The order leaves the book: by a cancel, which begins a replacement as well, or by the fill of
its last peak. -/
inductive Departs (x : Order) (b : OrderBook PriceLevel) (o : Order) :
    OrderBook PriceLevel → Prop
  | cancelled : Departs x b o (b.cancelOrder x.id).1
  | exhausted {b₁ b' : OrderBook PriceLevel} {q : Quantity} :
      pickPassive b x.side = .ok (x.id, o, b₁) → q ≤ o.quantity →
      settlePassive b₁ x.id o q = .ok b' → b'.findOrder x.id = none → Departs x b o b'

/-! ### One fill -/

section Fill

variable {b b' : OrderBook PriceLevel} {o o' : Order} {q : Quantity}

/-- An order that is stored in the place of another one. -/
structure Order.Continues (o' o : Order) : Prop where
  id_eq : o'.id = o.id
  side_eq : o'.side = o.side
  price_eq : o'.price = o.price
  peak_eq : o'.peakQty = o.peakQty

theorem Order.Continues.trans {o₁ o₂ o₃ : Order} (h : o₁.Continues o₂) (h' : o₂.Continues o₃) :
    o₁.Continues o₃ :=
  ⟨h.id_eq.trans h'.id_eq, h.side_eq.trans h'.side_eq, h.price_eq.trans h'.price_eq,
    h.peak_eq.trans h'.peak_eq⟩

private theorem findOrder_updateOrderQuantity (h : b.findOrder o.id = some o) :
    (updateOrderQuantity b o.id q).findOrder o.id = some { o with quantity := q } := by
  have hfind : findOrder b o.id = some o := h
  rw [updateOrderQuantity, hfind]
  exact (OrderBook.findOrder_storeOrder b o.id o.id _).trans (if_pos rfl)

/-- A replenished order is stored with its new peak. -/
private theorem stored_replenished (hb : replenishIceberg b o.id o q = .ok b')
    (h : b.findOrder o.id = some o) : ∃ o', b'.findOrder o.id = some o' ∧ o'.Continues o ∧
      if (b.getLevel o.side o.price).isSome then o'.quantity = min o.peakQty o.reserveQty
      else o' = o := by
  simp only [replenishIceberg] at hb
  split at hb
  · next hlevel =>
    have hlevel' : (b.getLevel o.side o.price).isSome = true := hlevel
    split at hb
    · exact absurd hb (by simp)
    · next b₁ hrot =>
      obtain rfl := Except.ok.inj hb
      let o₁ := { o with
        reserveQty := o.reserveQty - min o.peakQty o.reserveQty
        quantity := min o.peakQty o.reserveQty }
      have hstored : (b₁.storeOrder o.id o₁).findOrder o₁.id = some o₁ :=
        (OrderBook.findOrder_storeOrder b₁ o.id o.id o₁).trans (if_pos rfl)
      refine ⟨o₁, findOrder_updateOrderQuantity (o := o₁) hstored, ⟨rfl, rfl, rfl, rfl⟩, ?_⟩
      rw [if_pos hlevel']
  · next hlevel =>
    have hlevel' : ¬(b.getLevel o.side o.price).isSome = true := hlevel
    obtain rfl := Except.ok.inj hb
    refine ⟨o, h, ⟨rfl, rfl, rfl, rfl⟩, ?_⟩
    rw [if_neg hlevel']

/-- A fill leaves the order with what is not filled, with its next peak behind it, or removes
it. -/
private theorem settled_cases (hb : settlePassive b o.id o q = .ok b') :
    (∃ o', b'.findOrder o.id = some o' ∧ o'.Continues o ∧
      (o.quantity - q = 0 → o.isIceberg = true ∧ o.reserveQty > 0) ∧
      (b'.getLevel o.side o.price).isSome = (b.getLevel o.side o.price).isSome ∧
      o'.quantity = o.quantity - q +
        if (b.getLevel o.side o.price).isSome then o.newPeak q else 0) ∨
    b'.findOrder o.id = none ∧ o.quantity - q = 0 ∧ ¬(o.isIceberg = true ∧ o.reserveQty > 0) := by
  let o₁ := { o with quantity := o.quantity - q }
  let b₁ := BookOps.setLastTradePrice (BookOps.storeOrder b o.id o₁) o.price
  have hget₁ : b₁.getLevel o.side o.price = b.getLevel o.side o.price := by
    cases o.side <;> rfl
  have hfind₁ : b₁.findOrder o₁.id = some o₁ :=
    (OrderBook.findOrder_storeOrder b o.id o.id o₁).trans (if_pos rfl)
  cases Engine.settles hb with
  | replenished h0 hice hb =>
    have hpeak : o.newPeak q = min o.peakQty o.reserveQty := if_pos ⟨h0, hice⟩
    obtain ⟨o₂, ho₂, hcont, hshown⟩ := stored_replenished (o := o₁) hb hfind₁
    have hstays := OrderBook.getLevel_replenished (o := o₁) hb
    change (b'.getLevel o.side o.price).isSome = (b₁.getLevel o.side o.price).isSome at hstays
    change if (b₁.getLevel o.side o.price).isSome = true then _ else _ at hshown
    rw [hget₁] at hstays hshown
    refine .inl ⟨o₂, ho₂, ⟨hcont.id_eq, hcont.side_eq, hcont.price_eq, hcont.peak_eq⟩,
      fun _ ↦ hice, hstays, ?_⟩
    split at hshown
    · next hlevel => rw [if_pos hlevel, hpeak, h0, UInt64.zero_add, hshown]
    · next hlevel => rw [if_neg hlevel, hshown, UInt64.add_zero]
  | filled h0 hice =>
    exact .inr ⟨(OrderBook.findOrder_cancelOrder _ o.id o.id).trans (if_pos rfl), h0, hice⟩
  | reduced h0 =>
    have hstored : (b₁.reduceLevelVolume o.side o.price q).findOrder o₁.id = some o₁ := by
      rw [OrderBook.reduceLevelVolume]
      split
      · exact hfind₁
      · rw [OrderBook.findOrder_setLevel]
        exact hfind₁
    have hpeak : o.newPeak q = 0 := if_neg fun h ↦ h0 h.1
    refine .inl ⟨_, findOrder_updateOrderQuantity (o := o₁) hstored, ⟨rfl, rfl, rfl, rfl⟩,
      fun h ↦ absurd h h0, ?_, ?_⟩
    · rw [OrderBook.getLevel_updateOrderQuantity, ← hget₁]
      exact OrderBook.getLevel_reduced b₁ o.side o.price q o.side o.price
    · rw [hpeak, ite_self, UInt64.add_zero]

/-- As long as the order stays, a fill that the volume absorbs changes it by as much as the
quantity on display. -/
private theorem settled_balance (hb : settlePassive b o.id o q = .ok b')
    (ho' : b'.findOrder o.id = some o') (hq : q ≤ o.quantity)
    (hok : Absorbs (b.volume o.side o.price) q (o.newPeak q)) :
    b'.volume o.side o.price + o.quantity.toNat =
      b.volume o.side o.price + o'.quantity.toNat := by
  have hself : o.restsAt o.side o.price = true := Order.restsAt_iff.mpr ⟨rfl, rfl⟩
  have hsub := UInt64.toNat_sub_of_le _ _ hq
  have hqo := UInt64.le_iff_toNat_le.mp hq
  obtain ⟨htaken, hfits⟩ := hok
  have hvol := OrderBook.volume_settled hb o.side o.price
  rw [if_pos hself] at hvol
  obtain ⟨o₂, ho₂, -, hlast, hstays, hshown⟩ | ⟨hnone, -⟩ := settled_cases hb
  · obtain rfl := Option.some.inj (ho₂.symm.trans ho')
    rw [hstays] at hvol
    split at hvol
    · next hlevel =>
      rw [if_pos hlevel] at hshown
      unfold Order.volumeAfter at hvol
      split at hvol
      · next h0 =>
        have hpeak : o.newPeak q = min o.peakQty o.reserveQty := if_pos ⟨h0, hlast h0⟩
        rw [if_pos (hlast h0), ← hpeak, Nat.mod_eq_of_lt hfits] at hvol
        rw [h0, UInt64.zero_add] at hshown
        have hzero : o.quantity.toNat - q.toNat = 0 := by rw [← hsub, h0]; rfl
        rw [hvol, hshown]
        omega
      · next h0 =>
        have hpeak : o.newPeak q = 0 := if_neg fun h ↦ h0 h.1
        rw [hpeak, UInt64.add_zero] at hshown
        rw [hvol, hshown]
        omega
    · next hlevel =>
      -- without a level nothing is recorded, so nothing is filled
      have hnone : b.getLevel o.side o.price = none := by simpa using hlevel
      have hempty : b.volume o.side o.price = 0 := by
        rw [OrderBook.volume, hnone]
        rfl
      rw [if_neg hlevel, UInt64.add_zero] at hshown
      rw [hvol, hshown]
      omega
  · exact absurd (hnone.symm.trans ho') (by simp)

end Fill

/-! ### The whole life -/

section Life

variable {Ok : Nat → Quantity → Quantity → Prop} {x o : Order}
  {b₀ b b' : OrderBook PriceLevel} {adjusted : Int}

/-- The order that is stored continues the one that was inserted. -/
theorem Life.continues (h : Life Ok x b₀ b o adjusted) :
    o.Continues x ∧ b.findOrder x.id = some o := by
  induction h with
  | inserted => exact ⟨⟨rfl, rfl, rfl, rfl⟩, by rw [OrderBook.findOrder_insertOrder, if_pos rfl]⟩
  | others _ hfind ih => exact ⟨ih.1, hfind⟩
  | filled _ _ _ hset ho' _ ih =>
    rw [← ih.1.id_eq] at hset ho' ⊢
    obtain ⟨o₂, ho₂, hcont, -⟩ | ⟨hnone, -⟩ := settled_cases hset
    · obtain rfl := Option.some.inj (ho₂.symm.trans ho')
      exact ⟨hcont.trans ih.1, ho'⟩
    · exact absurd (hnone.symm.trans ho') (by simp)

/-- As long as the volume absorbs the changes that the order makes, it accounts for the quantity
on display and for what was not on display when the order was inserted. -/
theorem Life.balance (h : Life Absorbs x b₀ b o adjusted) :
    (b.volume x.side x.price : Int) + x.quantity.toNat =
      b₀.volume x.side x.price + adjusted + x.visibleQty.toNat + o.quantity.toNat := by
  have hself : x.restsAt x.side x.price = true := Order.restsAt_iff.mpr ⟨rfl, rfl⟩
  induction h with
  | inserted hok =>
    have hfits := hok.2
    rw [OrderBook.volume_inserted, if_pos hself, Nat.mod_eq_of_lt (by simpa using hfits)]
    omega
  | others _ _ ih => omega
  | filled hlife hp hq hset ho' hok ih =>
    obtain ⟨hcont, -⟩ := hlife.continues
    rw [← OrderBook.volume_pickPassive hp] at hok ih
    rw [← hcont.id_eq] at hset ho'
    rw [← hcont.side_eq, ← hcont.price_eq] at hok ih ⊢
    have hbalance := settled_balance hset ho' hq hok
    omega

theorem Departs.gone (h : Departs x b o b') : b'.findOrder x.id = none := by
  cases h with
  | cancelled => exact (OrderBook.findOrder_cancelOrder b x.id x.id).trans (if_pos rfl)
  | exhausted _ _ _ hnone => exact hnone

/-- The removal of an iceberg takes its peak. -/
theorem Departs.volume (hd : Departs x b o b') (hice : x.isIceberg = true) (hcont : o.Continues x)
    (hfind : b.findOrder x.id = some o)
    (hstays : (b'.getLevel x.side x.price).isSome = true) :
    b'.volume x.side x.price = b.volume x.side x.price - x.peakQty.toNat := by
  have hself : o.restsAt x.side x.price = true :=
    Order.restsAt_iff.mpr ⟨hcont.side_eq, hcont.price_eq⟩
  have hice' : o.isIceberg = true := by rwa [Order.isIceberg, hcont.peak_eq]
  cases hd with
  | cancelled =>
    rw [OrderBook.volume_cancelled hfind, if_pos hself, if_pos hstays, Order.visibleQty,
      if_pos hice', hcont.peak_eq]
  | @exhausted b₁ b' q hp hq hset hnone =>
    rw [← hcont.id_eq] at hset hnone
    obtain ⟨o₂, ho₂, -⟩ | ⟨-, h0, hlast⟩ := settled_cases hset
    · exact absurd (ho₂.symm.trans hnone) (by simp)
    rw [OrderBook.volume_settled hset, if_pos hself, if_pos hstays, Order.volumeAfter, if_pos h0,
      if_neg hlast, if_pos hice', hcont.peak_eq, OrderBook.volume_pickPassive hp]

/-- If the volume has absorbed the changes that an iceberg made, then the removal of the iceberg
leaves what the other orders account for if and only if the iceberg displays as much as when it
came to rest, or less is recorded than its peak and all of it belongs to the iceberg. -/
theorem life_nets_to_zero_iff (hice : x.isIceberg = true) (h : Life Absorbs x b₀ b o adjusted)
    (hd : Departs x b o b') (hstays : (b'.getLevel x.side x.price).isSome = true) :
    (b'.volume x.side x.price : Int) = b₀.volume x.side x.price + adjusted ↔
      x.peakQty.toNat + o.quantity.toNat =
        x.quantity.toNat + min (b.volume x.side x.price) x.peakQty.toNat := by
  obtain ⟨hcont, hfind⟩ := h.continues
  have hvol := h.balance
  have hvis : x.visibleQty = x.peakQty := by rw [Order.visibleQty, if_pos hice]
  rw [hd.volume hice hcont hfind hstays]
  rw [hvis] at hvol
  omega

/-- An iceberg that shows 5 of 10. -/
private def showsFive : Order :=
  { id := 1, side := .sell, type := .iceberg, price := 100, quantity := 5, peakQty := 5
    reserveQty := 5 }

/-- It comes to rest, and an order of 10 behind it. -/
private def sharesLevel : OrderBook PriceLevel :=
  (OrderBook.empty.insertOrder showsFive).insertOrder
    { id := 2, side := .sell, price := 100, quantity := 10 }

/-- The life of the iceberg up to its first fill. -/
private theorem life_showsFive (Ok : Nat → Quantity → Quantity → Prop) (q : Quantity)
    (P : OrderBook PriceLevel → Order → Prop) (hrests : Ok 0 0 5) (hq : q ≤ 5)
    (hok : Ok 15 q (showsFive.newPeak q))
    (hfill : ∃ a ∈ (pickPassive sharesLevel .sell).toOption,
      ∃ b ∈ (settlePassive a.2.2 1 showsFive q).toOption, ∃ o ∈ b.findOrder 1,
        (a.1 = 1 ∧ a.2.1 = showsFive) ∧ P b o) :
    ∃ b o, Life Ok showsFive OrderBook.empty b o 10 ∧ P b o := by
  obtain ⟨⟨_, _, b₁⟩, ha, b, hb, o, ho, ⟨rfl, rfl⟩, hP⟩ := hfill
  have hrest : Life Ok showsFive OrderBook.empty _ showsFive 0 := .inserted hrests
  have hbeside : Life Ok showsFive OrderBook.empty sharesLevel showsFive _ :=
    hrest.others (by decide +kernel)
  have hadjusted : (0 : Int) + (sharesLevel.volume .sell 100 -
      (OrderBook.empty.insertOrder showsFive : OrderBook PriceLevel).volume .sell 100) = 10 := by
    decide +kernel
  have hvol : sharesLevel.volume .sell 100 = 15 := by decide +kernel
  refine ⟨b, o, hadjusted ▸ hbeside.filled (eq_ok_of_toOption ha) hq (eq_ok_of_toOption hb)
    ho ?_, hP⟩
  rw [← hvol] at hok
  exact hok

/-- A fill takes all that it shows, and it is cancelled with its second peak on display. -/
theorem life_nets_to_zero_second_peak : ∃ (b : OrderBook PriceLevel) (o : Order),
    Life Absorbs showsFive OrderBook.empty b o 10 ∧
      ((b.cancelOrder 1).1.volume .sell 100 : Int) = OrderBook.empty.volume .sell 100 + 10 := by
  obtain ⟨b, o, hl, hstays, hshown⟩ := life_showsFive Absorbs 5
    (fun b o ↦ ((b.cancelOrder 1).1.getLevel .sell 100).isSome = true ∧
      5 + o.quantity.toNat = 5 + min (b.volume .sell 100) 5)
    (by decide) (by decide) (by decide) (by decide +kernel)
  exact ⟨b, o, hl, (life_nets_to_zero_iff rfl hl .cancelled hstays).mpr hshown⟩

/-- A fill takes 3 of the 5 that it shows; its removal takes 5. -/
theorem life_nets_to_three : ¬∀ (x o : Order) (b₀ b b' : OrderBook PriceLevel) (adjusted : Int),
    x.isIceberg = true → Life (fun _ _ _ ↦ True) x b₀ b o adjusted → Departs x b o b' →
      (b'.getLevel x.side x.price).isSome = true →
      (b'.volume x.side x.price : Int) = b₀.volume x.side x.price + adjusted := by
  intro hall
  obtain ⟨b, o, hl, hstays, hvol⟩ := life_showsFive (fun _ _ _ ↦ True) 3
    (fun b _ ↦ ((b.cancelOrder 1).1.getLevel .sell 100).isSome = true ∧
      (b.cancelOrder 1).1.volume .sell 100 = 7)
    trivial (by decide) trivial (by decide +kernel)
  have hzero := hall showsFive o _ b _ _ rfl hl .cancelled hstays
  have hvol' : (b.cancelOrder showsFive.id).1.volume showsFive.side showsFive.price = 7 := hvol
  rw [hvol'] at hzero
  exact absurd hzero (by decide +kernel)

end Life

/-! ### Lives in a run -/

section Run

variable {U : OrderId → Prop} {c d : Config (OrderBook PriceLevel)} {c₀ : Config ReferenceBook}
  {x o : Order} {b₀ : OrderBook PriceLevel} {adjusted : Int}
  {Ok : Nat → Quantity → Quantity → Prop}

/-- A step that fills an order changes the volume as asked. -/
def FillsOk (Ok : Nat → Quantity → Quantity → Prop) (x : Order)
    (c d : Config (OrderBook PriceLevel)) : Prop :=
  ∀ o b₁ q, pickPassive c.engine.book x.side = .ok (x.id, o, b₁) →
    settlePassive b₁ x.id o q = .ok d.engine.book →
    Ok (c.engine.book.volume x.side x.price) q (o.newPeak q)

/-- A move fills an order of the book or keeps it as it is. -/
private theorem Config.Moves.fills_or_keeps (hm : Config.Moves c d) (hc : Related true U c c₀)
    (ho : c.engine.book.findOrder o.id = some o) :
    d.engine.book.findOrder o.id = some o ∨
      ∃ b₁ q, pickPassive c.engine.book o.side = .ok (o.id, o, b₁) ∧ q ≤ o.quantity ∧
        settlePassive b₁ o.id o q = .ok d.engine.book := by
  obtain ⟨r, rfl, h⟩ := hc
  have hr := h.represents
  -- an order that comes to rest has an identifier of its own
  have hsettle {s : Engine (OrderBook PriceLevel)} {a a' : Order} {K : List Frame}
      (h : Tracks true U s.book (a :: s.outstanding K) r) (hid : a'.id = a.id)
      (ho : s.book.findOrder o.id = some o) :
      (Config.settle s a').book.findOrder o.id = some o := by
    rcases Config.settle_eq s a' with he | he
    · rw [he]
      exact ho
    · have hne : a'.id ≠ o.id := by
        intro he
        have hnone := (h.fits a List.mem_cons_self rfl).1.1
        rw [← hid, he, ho] at hnone
        exact absurd hnone (by simp)
      rw [he]
      exact (OrderBook.findOrder_insertOrder s.book a' o.id).trans ((if_neg hne).trans ho)
  cases hm with
  | filled =>
    left
    refine hsettle h ?_ ho
    rw [markFilled]
    split <;> rfl
  | uncrossed | unopposed => exact .inl (hsettle h rfl ho)
  | exhausted | evaluated | triggered | kept => exact .inl ho
  | @fill s a passive K res p key book book' q hq hb htr hpick hqq hset =>
    rw [evaluate_book]
    obtain ⟨rfl, rfl, ⟨rest, hrest⟩, hr₁, -⟩ := hr.of_pickPassive hb hpick
    obtain ⟨hmem, hside⟩ := ReferenceBook.mem_of_head hrest
    rw [hr.find] at ho
    by_cases hid : passive.id = o.id
    · right
      rw [← hid, hr.distinct.findOrder_of_mem hmem] at ho
      obtain rfl := Option.some.inj ho
      exact ⟨book, q, hside ▸ hpick, hqq ▸ Std.min_le_right, hset⟩
    · left
      obtain ⟨b₂, r₂, hset', hsetr, hr₂, -⟩ := hr₁.settlePassive hrest q
      obtain rfl : book' = b₂ := Except.ok.inj (hset.symm.trans hset')
      have hf := hr.distinct.filled hmem hsetr
      refine (hr₂.find o.id).trans (hf.distinct.findOrder_of_mem ?_)
      refine hf.perm.mem_iff.mpr (List.mem_append_right _ (List.mem_filter.mpr ⟨?_, ?_⟩))
      · exact (ReferenceBook.mem_of_findOrder ho).1
      · exact bne_iff_ne.mpr fun he ↦ hid he.symm

/-- A move continues the life of an order or ends it. -/
theorem Life.move (hl : Life Ok x b₀ c.engine.book o adjusted) (hm : Config.Moves c d)
    (hc : Related true U c c₀) (hok : FillsOk Ok x c d) :
    (∃ o' adjusted', Life Ok x b₀ d.engine.book o' adjusted') ∨
      Departs x c.engine.book o d.engine.book := by
  obtain ⟨hcont, hfind⟩ := hl.continues
  rw [← hcont.id_eq] at hfind
  rcases hm.fills_or_keeps hc hfind with hkept | ⟨b₁, q, hpick, hq, hset⟩
  · rw [hcont.id_eq] at hkept
    exact .inl ⟨o, _, hl.others hkept⟩
  · rw [hcont.id_eq] at hset
    rw [hcont.id_eq, hcont.side_eq] at hpick
    cases ho' : d.engine.book.findOrder x.id with
    | none => exact .inr (.exhausted hpick hq hset ho')
    | some o' =>
      exact .inl ⟨o', adjusted, hl.filled hpick hq hset ho' (hok o b₁ q hpick hset)⟩

/-- An event that is no modify continues the life of an order or cancels it. -/
theorem Life.start {s : Engine (OrderBook PriceLevel)} {e : OrderEvent}
    (hl : Life Ok x b₀ s.book o adjusted) (hm : NoModify e) :
    (∃ o' adjusted', Life Ok x b₀ (Config.start s e).engine.book o' adjusted') ∨
      Departs x s.book o (Config.start s e).engine.book := by
  obtain ⟨-, hfind⟩ := hl.continues
  have hcancel (id : OrderId) :
      (∃ o' adjusted', Life Ok x b₀ (s.book.cancelOrder id).1 o' adjusted') ∨
        Departs x s.book o (s.book.cancelOrder id).1 := by
    by_cases hid : id = x.id
    · subst hid
      exact .inr .cancelled
    · exact .inl ⟨o, _, hl.others (((OrderBook.findOrder_cancelOrder _ _ _).trans
        (if_neg hid)).trans hfind)⟩
  have hstart := Config.starts s e
  generalize Config.start s e = c at hstart
  cases hstart with
  | newOrder =>
    rw [enter_book]
    exact .inl ⟨o, adjusted, hl⟩
  | replaced =>
    rw [enter_book]
    exact hcancel _
  | orderCancelled => exact hcancel _
  | stopCancelled | cancelRejected | replaceRejected => exact .inl ⟨o, adjusted, hl⟩
  | requeued | reduced | unmodified => exact absurd hm id

/-- A move that brings an order into the book inserts it. -/
private theorem Config.Moves.inserts (hm : Config.Moves c d) (hc : Related true U c c₀)
    (hnone : c.engine.book.findOrder x.id = none) (hx : d.engine.book.findOrder x.id = some x) :
    d.engine.book = c.engine.book.insertOrder x := by
  have habsent {b : OrderBook PriceLevel} (h : b.findOrder x.id = none) :
      b.findOrder x.id ≠ some x := by simp [h]
  have hsettle {s : Engine (OrderBook PriceLevel)} {a : Order}
      (hnone : s.book.findOrder x.id = none)
      (hx : (Config.settle s a).book.findOrder x.id = some x) :
      (Config.settle s a).book = s.book.insertOrder x := by
    rcases Config.settle_eq s a with he | he
    · rw [he] at hx
      exact absurd hx (habsent hnone)
    · rw [he] at hx ⊢
      have hins := (OrderBook.findOrder_insertOrder s.book a x.id).symm.trans hx
      split at hins
      · obtain rfl := Option.some.inj hins
        rfl
      · exact absurd hins (habsent hnone)
  cases hm with
  | filled | uncrossed | unopposed => exact hsettle hnone hx
  | exhausted | evaluated | triggered | kept => exact absurd hx (habsent hnone)
  | @fill s a passive K res p key book book' q hq hb htr hpick hqq hset =>
    obtain ⟨r, rfl, h⟩ := hc
    have hr := h.represents
    rw [evaluate_book] at hx
    obtain ⟨rfl, rfl, ⟨rest, hrest⟩, hr₁, -⟩ := hr.of_pickPassive hb hpick
    obtain ⟨hmem, -⟩ := ReferenceBook.mem_of_head hrest
    obtain ⟨b₂, r₂, hset', hsetr, hr₂, -⟩ := hr₁.settlePassive hrest q
    obtain rfl : book' = b₂ := Except.ok.inj (hset.symm.trans hset')
    -- every order after the fill was there before
    have hmem' := (ReferenceBook.mem_of_findOrder ((hr₂.find x.id).symm.trans hx)).1
    obtain ⟨y, hy, hxy⟩ := (hr.distinct.filled hmem hsetr).descends hmem hmem'
    rw [hr.find, ReferenceBook.findOrder_eq_none_iff] at hnone
    exact absurd hxy.id_eq.symm (hnone y hy)

/-- As long as an order stays in the book, a walk continues its life. -/
private theorem Walk.life {es es' : List OrderEvent}
    {path : List (Config (OrderBook PriceLevel) × Config (OrderBook PriceLevel))}
    (hw : Walk NoModify c es' path d) (hc : Related true (· ∈ submittedIds es) c c₀)
    (hf : Fresh (es ++ es')) (hl : Life Ok x b₀ c.engine.book o adjusted)
    (hok : ∀ p ∈ path, FillsOk Ok x p.1 p.2)
    (hstays : ∀ p ∈ path, p.2.engine.book.findOrder x.id ≠ none) :
    ∃ o' adjusted', Life Ok x b₀ d.engine.book o' adjusted' := by
  induction hw with
  | nil => exact ⟨o, adjusted, hl⟩
  | @move es' path d d' hwalk hstep ih =>
    obtain ⟨o₁, adjusted₁, hl₁⟩ := ih hf (fun p hp ↦ hok p (List.mem_append_left _ hp))
      fun p hp ↦ hstays p (List.mem_append_left _ hp)
    obtain ⟨d₀, hd, -⟩ := hwalk.related hc hf
    have hlast : (d, d') ∈ path ++ [(d, d')] := List.mem_append_right _ List.mem_cons_self
    exact (hl₁.move (Config.moves_of_step hstep) hd (hok _ hlast)).resolve_right
      fun hdep ↦ hstays _ hlast hdep.gone
  | @event es' path d e hwalk hstack hm ih =>
    rw [← List.append_assoc] at hf
    obtain ⟨o₁, adjusted₁, hl₁⟩ := ih hf.left (fun p hp ↦ hok p (List.mem_append_left _ hp))
      fun p hp ↦ hstays p (List.mem_append_left _ hp)
    have hlast : (d, Config.start d.engine e) ∈ path ++ [(d, Config.start d.engine e)] :=
      List.mem_append_right _ List.mem_cons_self
    exact (hl₁.start hm).resolve_right fun hdep ↦ hstays _ hlast hdep.gone

/-- In a run of a fresh stream without modifies, an order that comes to rest in one step has a
life from there on, until a step takes it out of the book. -/
theorem rested_life {es es' : List OrderEvent}
    {path path' : List (Config (OrderBook PriceLevel) × Config (OrderBook PriceLevel))}
    {d' : Config (OrderBook PriceLevel)} (h : Walk NoModify .init es path c)
    (hstep : c.step = .ok (some d)) (hw : Walk NoModify d es' path' d') (hf : Fresh (es ++ es'))
    (hnone : c.engine.book.findOrder x.id = none) (hx : d.engine.book.findOrder x.id = some x)
    (hrests : Ok (c.engine.book.volume x.side x.price) 0 x.visibleQty)
    (hok : ∀ p ∈ path', FillsOk Ok x p.1 p.2)
    (hstays : ∀ p ∈ path', p.2.engine.book.findOrder x.id ≠ none) :
    ∃ o adjusted, Life Ok x c.engine.book d'.engine.book o adjusted := by
  obtain ⟨c₀, hc, -⟩ := h.related .init hf.left
  obtain ⟨d₀, -, hd⟩ := hc.move hstep
  have hl : Life Ok x c.engine.book d.engine.book x 0 := by
    rw [(Config.moves_of_step hstep).inserts hc hnone hx]
    exact .inserted hrests
  exact hw.life hd hf hl hok hstays

end Run

end LobEngine
