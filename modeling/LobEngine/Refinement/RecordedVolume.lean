import LobEngine.Engine.ReferenceEngine

/-!
# The recorded volume, operation by operation

What every member of the book leaves of the volume that a level records, for orders with and
without a peak: additions wrap at 64 bits, subtractions stop at 0, and the volume goes with the
level.
-/

namespace LobEngine

open PriceLevelOps LawfulPriceLevel BookOps Engine

/-- Taking off more than there is leaves nothing. -/
theorem toNat_clampedSub (total q : Quantity) :
    (clampedSub total q).toNat = total.toNat - q.toNat := by
  rw [clampedSub]
  split
  · next h => exact UInt64.toNat_sub_of_le _ _ h
  · next h =>
    have hlt : ¬q.toNat ≤ total.toNat := fun hle ↦ h (UInt64.le_iff_toNat_le.mpr hle)
    rw [UInt64.toNat_zero]
    omega

/-- Taking the first entry takes its quantity. -/
theorem PriceLevel.totalVolume_popFront {l l' : PriceLevel} {q : Quantity}
    (h : l.popFront q = some l') : l'.totalVolume = clampedSub l.totalVolume q := by
  have hdrain : l.drainCancelled.totalVolume = l.totalVolume := rfl
  unfold popFront at h
  split at h
  · exact absurd h (by simp)
  · next heq =>
    obtain rfl := Option.some.inj h
    rw [heq] at hdrain
    exact congrArg (clampedSub · q) hdrain

namespace OrderBook

/-- The volume kept at a price, zero where there is no level. -/
def volume (b : OrderBook PriceLevel) (side : Side) (p : Price) : Nat :=
  ((b.getLevel side p).map fun l ↦ l.totalVolume.toNat).getD 0

theorem volume_of_level {b : OrderBook PriceLevel} {side : Side} {p : Price} {l : PriceLevel}
    (h : b.getLevel side p = some l) : b.volume side p = l.totalVolume.toNat := by
  rw [volume, h]
  rfl

private theorem volume_setLevel (b : OrderBook PriceLevel) (side : Side) (p : Price)
    (l : PriceLevel) (side' : Side) (p' : Price) : (b.setLevel side p l).volume side' p' =
      if side = side' ∧ p = p' then l.totalVolume.toNat else b.volume side' p' := by
  rw [volume, getLevel_setLevel]
  split
  · rfl
  · rfl

@[simp] theorem volume_storeOrder (b : OrderBook PriceLevel) (id : OrderId) (o : Order)
    (side : Side) (p : Price) : (b.storeOrder id o).volume side p = b.volume side p := by
  rw [volume, getLevel_storeOrder, volume]

@[simp] theorem volume_setLastTradePrice (b : OrderBook PriceLevel) (q : Price) (side : Side)
    (p : Price) : (BookOps.setLastTradePrice b q).volume side p = b.volume side p := by
  cases side <;> rfl

@[simp] theorem volume_updateOrderQuantity (b : OrderBook PriceLevel) (id : OrderId) (q : Quantity)
    (side : Side) (p : Price) :
    (BookOps.updateOrderQuantity b id q).volume side p = b.volume side p := by
  rw [BookOps.updateOrderQuantity]
  split
  · rfl
  · exact volume_storeOrder b _ _ side p

variable {b b' : OrderBook PriceLevel} {o : Order}

/-- Draining a level leaves its volume. -/
private theorem volume_frontOrder {side : Side} {id : OrderId}
    (h : b.frontOrder side = some (id, b')) (side' : Side) (p : Price) :
    b'.volume side' p = b.volume side' p := by
  rw [frontOrder] at h
  cases hl : b.bestLevel side with
  | none =>
    rw [hl] at h
    exact absurd h (by simp)
  | some entry =>
    obtain ⟨price, l⟩ := entry
    simp only [hl] at h
    obtain ⟨x, -, he⟩ := Option.map_eq_some_iff.mp h
    obtain ⟨-, rfl⟩ := Prod.mk.inj he
    rw [volume_setLevel]
    split
    · next hsp =>
      obtain ⟨rfl, rfl⟩ := hsp
      rw [volume_of_level (Std.ExtTreeMap.first?_eq_some_iff.mp hl).1]
      rfl
    · rfl

theorem volume_pickPassive {side : Side} {id : OrderId}
    (h : pickPassive b side = .ok (id, o, b')) (side' : Side) (p : Price) :
    b'.volume side' p = b.volume side' p := by
  rw [pickPassive] at h
  cases hf : BookOps.frontOrder b side with
  | none =>
    simp only [hf] at h
    exact absurd h (by simp)
  | some found =>
    simp only [hf] at h
    split at h
    · exact absurd h (by simp)
    · simp only [Except.ok.injEq, Prod.mk.injEq] at h
      obtain ⟨-, -, rfl⟩ := h
      exact volume_frontOrder hf side' p

/-- A level that is not there yet records nothing. -/
theorem toNat_totalVolume (b : OrderBook PriceLevel) (side : Side) (p : Price) :
    ((b.getLevel side p).getD (ofPrice p)).totalVolume.toNat = b.volume side p := by
  cases hl : b.getLevel side p with
  | none =>
    rw [volume, hl]
    rfl
  | some l => rw [volume_of_level hl, Option.getD_some]

theorem volume_reduced (b : OrderBook PriceLevel) (side : Side) (p : Price) (q : Quantity)
    (side' : Side) (p' : Price) : (b.reduceLevelVolume side p q).volume side' p' =
      if side = side' ∧ p = p' then b.volume side p - q.toNat else b.volume side' p' := by
  cases hl : b.getLevel side p with
  | none =>
    simp only [reduceLevelVolume, hl]
    split
    · next hsp =>
      obtain ⟨rfl, rfl⟩ := hsp
      simp [volume, hl]
    · rfl
  | some l =>
    have hsub : (reduceFrontVolume l q).totalVolume.toNat = l.totalVolume.toNat - q.toNat :=
      toNat_clampedSub _ _
    simp only [reduceLevelVolume, hl]
    rw [volume_setLevel, hsub, volume_of_level hl]

theorem volume_inserted (b : OrderBook PriceLevel) (o : Order) (side : Side) (p : Price) :
    (b.insertOrder o).volume side p = if o.restsAt side p then
      (b.volume side p + o.visibleQty.toNat) % 2 ^ 64 else b.volume side p := by
  simp only [insertOrder, getLevel_storeOrder, volume_setLevel, Order.restsAt_iff,
    volume_storeOrder]
  split
  · next hsp =>
    obtain ⟨rfl, rfl⟩ := hsp
    have hpush (l : PriceLevel) : (pushBack l o.id o.visibleQty).totalVolume =
        l.totalVolume + o.visibleQty := rfl
    rw [hpush, UInt64.toNat_add]
    exact congrArg (fun v ↦ (v + o.visibleQty.toNat) % 2 ^ 64) (toNat_totalVolume b _ _)
  · rfl

private theorem volume_rotated {side : Side} {p : Price} {id : OrderId} {filled newPeak : Quantity}
    (h : b.rotateLevel side p id filled newPeak = some b') (side' : Side) (p' : Price) :
    b'.volume side' p' = if side = side' ∧ p = p' then
      (b.volume side p - filled.toNat + newPeak.toNat) % 2 ^ 64 else b.volume side' p' := by
  rw [rotateLevel] at h
  obtain ⟨l, hl, h⟩ := Option.bind_eq_some_iff.mp h
  obtain ⟨l', hl', h⟩ := Option.bind_eq_some_iff.mp h
  obtain rfl := Option.some.inj h
  have hpush : (pushBack l' id newPeak).totalVolume = l'.totalVolume + newPeak := rfl
  rw [volume_setLevel, hpush, UInt64.toNat_add, PriceLevel.totalVolume_popFront hl',
    toNat_clampedSub, volume_of_level hl]

/-- The level of a rotated order stays. -/
private theorem getLevel_rotated {side : Side} {p : Price} {id : OrderId}
    {filled newPeak : Quantity} (h : b.rotateLevel side p id filled newPeak = some b') :
    (b'.getLevel side p).isSome = true := by
  rw [rotateLevel] at h
  obtain ⟨l, -, h⟩ := Option.bind_eq_some_iff.mp h
  obtain ⟨l', -, h⟩ := Option.bind_eq_some_iff.mp h
  obtain rfl := Option.some.inj h
  rw [getLevel_setLevel, if_pos ⟨rfl, rfl⟩]
  rfl

theorem getLevel_updateOrderQuantity (b : OrderBook PriceLevel) (id : OrderId) (q : Quantity)
    (side : Side) (p : Price) :
    (BookOps.updateOrderQuantity b id q).getLevel side p = b.getLevel side p := by
  rw [BookOps.updateOrderQuantity]
  split
  · rfl
  · exact getLevel_storeOrder b _ _ side p

/-- A reduction keeps the level. -/
theorem getLevel_reduced (b : OrderBook PriceLevel) (side : Side) (p : Price) (q : Quantity)
    (side' : Side) (p' : Price) : ((b.reduceLevelVolume side p q).getLevel side' p').isSome =
      (b.getLevel side' p').isSome := by
  cases hl : b.getLevel side p with
  | none => simp only [reduceLevelVolume, hl]
  | some l =>
    simp only [reduceLevelVolume, hl]
    rw [getLevel_setLevel]
    split
    · next hsp =>
      obtain ⟨rfl, rfl⟩ := hsp
      rw [hl]
      rfl
    · rfl

/-- A cancel takes the visible quantity off the volume, or the volume with the level. -/
theorem volume_cancelled {id : OrderId} (ho : b.findOrder id = some o) (side : Side) (p : Price) :
    (b.cancelOrder id).1.volume side p = if o.restsAt side p then
      if ((b.cancelOrder id).1.getLevel side p).isSome then
        b.volume side p - o.visibleQty.toNat
      else 0
    else b.volume side p := by
  cases hg : b.getLevel o.side o.price with
  | none =>
    have hsame : (b.cancelOrder id).1.getLevel side p = b.getLevel side p := by
      rw [findOrder] at ho
      simp only [cancelOrder, ho, hg]
      cases side <;> rfl
    rw [volume, hsame, volume]
    simp only [Order.restsAt_iff]
    split
    · next hsp =>
      obtain ⟨rfl, rfl⟩ := hsp
      rw [hg]
      rfl
    · rfl
  | some l =>
    obtain ⟨e, l', he⟩ : ∃ e l', PriceLevelOps.empty (remove l id o.visibleQty) = (e, l') :=
      ⟨_, _, rfl⟩
    have hvol : l'.totalVolume = clampedSub l.totalVolume o.visibleQty := by
      rw [← congrArg (fun a ↦ a.2.totalVolume) he]
      rfl
    rw [volume, getLevel_cancelOrder ho hg he]
    simp only [Order.restsAt_iff]
    split
    · next hsp =>
      obtain ⟨rfl, rfl⟩ := hsp
      split
      · rfl
      · rw [Option.map_some, Option.getD_some, hvol, toNat_clampedSub, volume_of_level hg]
        rfl
    · rfl

end OrderBook

/-- The volume that a level records after an order in it has been filled, if the level stays. -/
def Order.volumeAfter (o : Order) (q : Quantity) (v : Nat) : Nat :=
  if o.quantity - q = 0 then
    if o.isIceberg = true ∧ o.reserveQty > 0 then
      (v - q.toNat + (min o.peakQty o.reserveQty).toNat) % 2 ^ 64
    else v - if o.isIceberg then o.peakQty.toNat else 0
  else v - q.toNat

namespace OrderBook

variable {b b' : OrderBook PriceLevel} {o : Order}

/-- A new peak takes the place of what was filled. -/
private theorem volume_replenished {key : OrderId} {q : Quantity}
    (hb : replenishIceberg b key o q = .ok b') (side : Side) (p : Price) :
    b'.volume side p = if o.restsAt side p then
      if (b'.getLevel side p).isSome then
        (b.volume side p - q.toNat + (min o.peakQty o.reserveQty).toNat) % 2 ^ 64
      else 0
    else b.volume side p := by
  simp only [replenishIceberg] at hb
  split at hb
  · split at hb
    · exact absurd hb (by simp)
    · next b₁ hrot =>
      have hrot' : b.rotateLevel o.side o.price o.id q (min o.peakQty o.reserveQty) = some b₁ :=
        hrot
      obtain rfl := Except.ok.inj hb
      rw [volume_updateOrderQuantity, getLevel_updateOrderQuantity]
      refine ((volume_storeOrder b₁ _ _ _ _).trans (volume_rotated hrot' side p)).trans ?_
      simp only [Order.restsAt_iff]
      split
      · next hsp =>
        obtain ⟨rfl, rfl⟩ := hsp
        refine (if_pos ?_).symm
        refine (congrArg Option.isSome (getLevel_storeOrder b₁ _ _ _ _)).trans ?_
        exact getLevel_rotated hrot'
      · rfl
  · next hno =>
    obtain rfl := Except.ok.inj hb
    split
    · next hat =>
      obtain ⟨rfl, rfl⟩ := Order.restsAt_iff.mp hat
      have hno' : ¬(b.getLevel o.side o.price).isSome = true := hno
      have hnone : b.getLevel o.side o.price = none := by simpa using hno'
      rw [volume, hnone]
      rfl
    · rfl

/-- A replenishment keeps the level. -/
theorem getLevel_replenished {key : OrderId} {q : Quantity}
    (hb : replenishIceberg b key o q = .ok b') :
    (b'.getLevel o.side o.price).isSome = (b.getLevel o.side o.price).isSome := by
  simp only [replenishIceberg] at hb
  split at hb
  · next hlevel =>
    have hlevel' : (b.getLevel o.side o.price).isSome = true := hlevel
    split at hb
    · exact absurd hb (by simp)
    · next b₁ hrot =>
      obtain rfl := Except.ok.inj hb
      rw [getLevel_updateOrderQuantity, hlevel']
      refine (congrArg Option.isSome (getLevel_storeOrder b₁ _ _ _ _)).trans ?_
      exact getLevel_rotated hrot
  · obtain rfl := Except.ok.inj hb
    rfl

/-- A fill changes the volume of the level of its passive order only. -/
theorem volume_settled {q : Quantity} (hb : Engine.settlePassive b o.id o q = .ok b')
    (side : Side) (p : Price) : b'.volume side p = if o.restsAt side p then
        if (b'.getLevel side p).isSome then o.volumeAfter q (b.volume side p) else 0
      else b.volume side p := by
  let o' := { o with quantity := o.quantity - q }
  let b₁ := BookOps.setLastTradePrice (BookOps.storeOrder b o.id o') o.price
  have hget₁ (side : Side) (p : Price) : b₁.getLevel side p = b.getLevel side p := by
    cases side <;> rfl
  have hvol₁ (side : Side) (p : Price) : b₁.volume side p = b.volume side p := by
    rw [volume, hget₁, volume]
  cases Engine.settles hb with
  | replenished h0 hice hb =>
    have hafter : o.volumeAfter q (b.volume side p) =
        (b.volume side p - q.toNat + (min o.peakQty o.reserveQty).toNat) % 2 ^ 64 := by
      rw [Order.volumeAfter, if_pos h0, if_pos hice]
    rw [hafter, ← hvol₁]
    exact volume_replenished hb side p
  | filled h0 hice =>
    let o'' := { o' with status := .filled }
    have hfind : (b₁.storeOrder o.id o'').findOrder o.id = some o'' := by
      rw [findOrder_storeOrder, if_pos rfl]
    have hvis : o''.visibleQty.toNat = if o.isIceberg then o.peakQty.toNat else 0 := by
      have hzero : o''.quantity = 0 := h0
      have hsame : o''.isIceberg = o.isIceberg := rfl
      rw [Order.visibleQty, hzero, hsame]
      split <;> rfl
    have hafter : o.volumeAfter q (b.volume side p) =
        b.volume side p - if o.isIceberg then o.peakQty.toNat else 0 := by
      rw [Order.volumeAfter, if_pos h0, if_neg hice]
    refine (volume_cancelled hfind side p).trans ?_
    rw [hvis, hafter, volume_storeOrder]
    exact hvol₁ side p ▸ rfl
  | reduced h0 =>
    have hafter : o.volumeAfter q (b.volume side p) = b.volume side p - q.toNat := by
      rw [Order.volumeAfter, if_neg h0]
    rw [volume_updateOrderQuantity, getLevel_updateOrderQuantity, hafter]
    refine (volume_reduced b₁ o.side o.price q side p).trans ?_
    have hred := getLevel_reduced b₁ o.side o.price q side p
    rw [hget₁] at hred
    change _ = if _ then
      if ((b₁.reduceLevelVolume o.side o.price q).getLevel side p).isSome = true then _ else 0
      else _
    rw [hred]
    simp only [Order.restsAt_iff]
    split
    · next hsp =>
      obtain ⟨rfl, rfl⟩ := hsp
      rw [hvol₁]
      cases hl : b.getLevel o.side o.price with
      | none =>
        rw [volume, hl]
        exact Nat.zero_sub _
      | some l => rfl
    · exact hvol₁ side p

end OrderBook

end LobEngine
