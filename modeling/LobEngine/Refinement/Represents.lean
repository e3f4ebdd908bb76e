import LobEngine.Book.ReferenceBook

/-!
# The book represents the reference book

`Represents` relates the three structures of the book (price maps, level queues, identifier
map) to the two order lists of the reference book. Every member of the book preserves it.
An insertion needs an order that `Fits`: one whose identifier is neither stored nor still
owns an entry, dead or alive, in the level it joins. The other members never add entries,
which `Shrinks` records.
-/

namespace LobEngine

open PriceLevelOps LawfulPriceLevel BookOps

variable {L : Type} [PriceLevelOps L] [LawfulPriceLevel L]

/-- A level, or the absence of one, lists the orders `xs` at price `p`. -/
def Lists (p : Price) (xs : List Order) : Option L → Prop
  | none => xs = []
  | some l => Valid l ∧ price l = p ∧ orderIds l = xs.map Order.id ∧ xs ≠ []

/-- The book represents the reference book. -/
structure Represents (b : OrderBook L) (r : ReferenceBook) : Prop where
  last : b.lastTradePrice = r.lastTradePrice
  find : ∀ id, b.findOrder id = r.findOrder id
  distinct : r.Distinct
  lists : ∀ side p, Lists p (r.atPrice side p) (b.getLevel side p)

/-- A level's queue holds an entry of the identifier, dead or alive. -/
def Entry (b : OrderBook L) (side : Side) (p : Price) (id : OrderId) : Prop :=
  ∃ l, b.getLevel side p = some l ∧ Holds l id

/-- The order types whose orders can come to rest in the book. -/
def Order.canRest (o : Order) : Bool :=
  match o.type with
  | .limit | .stopLimit | .iceberg => true
  | .market | .stop => false

/-- The order can be inserted: its identifier is not stored and, if the order can come to
rest, owns no entry in the level it would join. -/
def Fits (b : OrderBook L) (o : Order) : Prop :=
  b.findOrder o.id = none ∧ (o.canRest = true → ¬Entry b o.side o.price o.id)

/-- Every entry and every stored order of `b'` is in `b`. -/
structure Shrinks (b' b : OrderBook L) : Prop where
  entry : ∀ side p id, Entry b' side p id → Entry b side p id
  find : ∀ id, b.findOrder id = none → b'.findOrder id = none

namespace Shrinks

variable {b b' b'' : OrderBook L}

theorem refl (b : OrderBook L) : Shrinks b b := ⟨fun _ _ _ h ↦ h, fun _ h ↦ h⟩

theorem trans (h₁ : Shrinks b'' b') (h₂ : Shrinks b' b) : Shrinks b'' b where
  entry side p id h := h₂.entry side p id (h₁.entry side p id h)
  find id h := h₁.find id (h₂.find id h)

theorem fits (h : Shrinks b' b) {o : Order} (ho : Fits b o) : Fits b' o :=
  ⟨h.find o.id ho.1, fun hr he ↦ ho.2 hr (h.entry _ _ _ he)⟩

/-- Setting a level to one with no new entries. -/
theorem setLevel {side : Side} {p : Price} {l l' : L} (hl : b.getLevel side p = some l)
    (hh : ∀ id, Holds l' id → Holds l id) : Shrinks (b.setLevel side p l') b where
  entry side' p' id h := by
    obtain ⟨m, hm, hid⟩ := h
    rw [OrderBook.getLevel_setLevel] at hm
    split at hm
    · next he =>
      obtain ⟨rfl, rfl⟩ := he
      rw [← Option.some.inj hm] at hid
      exact ⟨l, hl, hh id hid⟩
    · exact ⟨m, hm, hid⟩
  find id h := by rwa [OrderBook.findOrder_setLevel]

end Shrinks

/-- An entry of the new book is old or belongs to the inserted order. -/
theorem entry_insertOrder {b : OrderBook L} {o : Order} {side : Side} {p : Price} {id : OrderId}
    (h : Entry (b.insertOrder o) side p id) : Entry b side p id ∨ id = o.id := by
  obtain ⟨l, hl, hid⟩ := h
  rw [OrderBook.insertOrder, OrderBook.getLevel_setLevel, OrderBook.getLevel_storeOrder,
    OrderBook.getLevel_storeOrder] at hl
  split at hl
  · next he =>
    obtain ⟨rfl, rfl⟩ := he
    rw [← Option.some.inj hl] at hid
    rcases pushBack_holds hid with hid | rfl
    · cases hg : b.getLevel o.side o.price with
      | none =>
        rw [hg] at hid
        exact absurd hid (ofPrice_holds _ _)
      | some m =>
        rw [hg] at hid
        exact .inl ⟨m, hg, hid⟩
    · exact .inr rfl
  · exact .inl ⟨l, hl, hid⟩

/-- Inserting one order leaves room for the others. -/
theorem Fits.insertOrder {b : OrderBook L} {o x : Order} (hx : Fits b x) (hne : x.id ≠ o.id) :
    Fits (b.insertOrder o) x := by
  refine ⟨?_, fun hr he ↦ ?_⟩
  · rw [OrderBook.findOrder_insertOrder, if_neg (Ne.symm hne)]
    exact hx.1
  · rcases entry_insertOrder he with he | he
    · exact hx.2 hr he
    · exact hne he

namespace Represents

variable {b : OrderBook L} {r : ReferenceBook}

/-- The empty books. -/
theorem empty : Represents (OrderBook.empty : OrderBook L) BookOps.empty where
  last := rfl
  find id := by simp [OrderBook.findOrder, OrderBook.empty]; rfl
  distinct := List.nodup_nil
  lists side p := by
    have hl : (OrderBook.empty : OrderBook L).getLevel side p = none := by
      cases side <;> simp [OrderBook.getLevel, OrderBook.levels, OrderBook.empty]
    rw [hl]
    cases side <;> rfl

theorem hasOrder_eq (h : Represents b r) (id : OrderId) : hasOrder r id = hasOrder b id :=
  congrArg Option.isSome (h.find id).symm

/-- The level of an order of the reference book. -/
theorem level_of_mem (h : Represents b r) {side : Side} {p : Price} {o : Order}
    (ho : o ∈ r.atPrice side p) : ∃ l, b.getLevel side p = some l ∧ Valid l ∧ price l = p ∧
      orderIds l = (r.atPrice side p).map Order.id := by
  have hl := h.lists side p
  cases hg : b.getLevel side p with
  | none =>
    rw [hg] at hl
    rw [show r.atPrice side p = [] from hl] at ho
    exact absurd ho List.not_mem_nil
  | some l =>
    rw [hg] at hl
    exact ⟨l, rfl, hl.1, hl.2.1, hl.2.2.1⟩

/-- Live orders own an entry. -/
theorem entry_of_mem (h : Represents b r) {side : Side} {p : Price} {o : Order}
    (ho : o ∈ r.atPrice side p) : Entry b side p o.id := by
  obtain ⟨l, hg, hv, -, hids⟩ := h.level_of_mem ho
  refine ⟨l, hg, holds_of_mem hv ?_⟩
  rw [hids]
  exact List.mem_map_of_mem ho

/-- The identifiers at a price are those of the reference book. -/
theorem orderIds_eq (h : Represents b r) (side : Side) (p : Price) :
    b.orderIds side p = (r.atPrice side p).map Order.id := by
  have hl := h.lists side p
  rw [OrderBook.orderIds]
  cases hg : b.getLevel side p with
  | none =>
    rw [hg] at hl
    rw [show r.atPrice side p = [] from hl]
    rfl
  | some l =>
    rw [hg] at hl
    exact hl.2.2.1

theorem mem_storedOrders (h : Represents b r) (o : Order) :
    o ∈ b.storedOrders ↔ o ∈ r.allOrders := by
  rw [OrderBook.storedOrders, List.mem_map]
  constructor
  · rintro ⟨⟨id, o⟩, hmem, rfl⟩
    have hf : b.findOrder id = some o := Std.ExtTreeMap.mem_toList_iff_getElem?_eq_some.mp hmem
    exact (ReferenceBook.mem_of_findOrder ((h.find id).symm.trans hf)).1
  · intro hmem
    exact List.mem_map.mp (OrderBook.mem_storedOrders_of_find
      ((h.find o.id).trans (h.distinct.findOrder_of_mem hmem)))

/-- The identifier map holds the orders of the reference book. -/
theorem storedOrders_perm (h : Represents b r) : List.Perm b.storedOrders r.allOrders := by
  have hids : b.storedOrders.map Order.id = b.idMap.keys := by
    rw [OrderBook.storedOrders, List.map_map, ← Std.ExtTreeMap.map_fst_toList_eq_keys]
    apply List.map_congr_left
    rintro ⟨id, o⟩ hmem
    have hf : b.findOrder id = some o := Std.ExtTreeMap.mem_toList_iff_getElem?_eq_some.mp hmem
    exact (ReferenceBook.mem_of_findOrder ((h.find id).symm.trans hf)).2
  have hnodup : b.storedOrders.Nodup :=
    List.Nodup.of_map Order.id (hids ▸ Std.ExtTreeMap.nodup_keys)
  exact (List.perm_ext_iff_of_nodup hnodup (List.Nodup.of_map _ h.distinct)).mpr h.mem_storedOrders

/-- The orders at a price are those of the reference book. -/
theorem ordersAt_eq (h : Represents b r) (side : Side) (p : Price) :
    b.ordersAt side p = r.atPrice side p := by
  rw [OrderBook.ordersAt, h.orderIds_eq, List.filterMap_map]
  have hsome : ∀ o ∈ r.atPrice side p, (b.findOrder ∘ Order.id) o = some o := fun o ho ↦
    (h.find o.id).trans (h.distinct.findOrder_of_mem (ReferenceBook.mem_atPrice.mp ho).1)
  rw [List.filterMap_congr hsome, List.filterMap_some]

theorem entry_of_find (h : Represents b r) {id : OrderId} {o : Order}
    (ho : b.findOrder id = some o) : Entry b o.side o.price id := by
  rw [h.find] at ho
  have hmem := ReferenceBook.mem_of_findOrder ho
  have := h.entry_of_mem (ReferenceBook.mem_atPrice.mpr ⟨hmem.1, rfl, rfl⟩)
  rwa [hmem.2] at this

/-- A level that keeps its identifiers can be replaced. -/
theorem setLevel (h : Represents b r) {side : Side} {p : Price} {l l' : L}
    (hl : b.getLevel side p = some l) (hv : Valid l') (hp : price l' = price l)
    (hids : orderIds l' = orderIds l) : Represents (b.setLevel side p l') r where
  last := by rw [OrderBook.lastTradePrice_setLevel, h.last]
  find id := by rw [OrderBook.findOrder_setLevel, h.find]
  distinct := h.distinct
  lists side' p' := by
    have hlists := h.lists side' p'
    rw [OrderBook.getLevel_setLevel]
    split
    · next he =>
      obtain ⟨rfl, rfl⟩ := he
      rw [hl] at hlists
      exact ⟨hv, hp.trans hlists.2.1, hids.trans hlists.2.2.1, hlists.2.2.2⟩
    · exact hlists

theorem setLastTradePrice (h : Represents b r) (p : Price) :
    Represents (BookOps.setLastTradePrice b p) (BookOps.setLastTradePrice r p) where
  last := rfl
  find := h.find
  distinct := h.distinct
  lists := fun side p ↦ by cases side <;> exact h.lists _ p

/-- Overwriting a stored order by one with the same identifier, side and price. -/
theorem storeOrder (h : Represents b r) {id : OrderId} {x o : Order}
    (hx : b.findOrder id = some x) (hid : o.id = id) (hs : o.side = x.side)
    (hp : o.price = x.price) : Represents (b.storeOrder id o) (r.storeOrder id o) where
  last := h.last
  find y := by
    rw [OrderBook.findOrder_storeOrder,
      ReferenceBook.findOrder_storeOrder ((h.find id).symm.trans hx) hid hs hp, h.find]
  distinct := h.distinct.storeOrder id o
  lists side p := by
    have hl := h.lists side p
    rw [OrderBook.getLevel_storeOrder]
    cases hg : b.getLevel side p with
    | none =>
      rw [hg] at hl
      rw [Lists, ReferenceBook.atPrice_storeOrder, show r.atPrice side p = [] from hl]
      rfl
    | some l =>
      rw [hg] at hl
      refine ⟨hl.1, hl.2.1, ?_, ?_⟩
      · rw [ReferenceBook.ids_storeOrder]
        exact hl.2.2.1
      · rw [ReferenceBook.atPrice_storeOrder, ne_eq, List.map_eq_nil_iff]
        exact hl.2.2.2

/-- Inserting an order that fits. -/
theorem insertOrder (h : Represents b r) {o : Order} (hfind : b.findOrder o.id = none)
    (hentry : ¬Entry b o.side o.price o.id) :
    Represents (b.insertOrder o) (r.insertOrder o) where
  last := by
    rw [ReferenceBook.lastTradePrice_insertOrder, OrderBook.insertOrder,
      OrderBook.lastTradePrice_setLevel]
    exact h.last
  find id := by
    rw [OrderBook.findOrder_insertOrder,
      h.distinct.findOrder_insertOrder ((h.find o.id).symm.trans hfind), h.find]
  distinct := h.distinct.insertOrder ((h.find o.id).symm.trans hfind)
  lists side p := by
    have hl := h.lists side p
    rw [OrderBook.insertOrder, OrderBook.getLevel_setLevel, OrderBook.getLevel_storeOrder,
      OrderBook.getLevel_storeOrder, ReferenceBook.atPrice_insertOrder]
    by_cases he : o.side = side ∧ o.price = p
    · obtain ⟨rfl, rfl⟩ := he
      simp only [and_self, ↓reduceIte]
      cases hg : b.getLevel o.side o.price with
      | none =>
        rw [hg] at hl
        have hno : ¬Holds (ofPrice o.price : L) o.id := ofPrice_holds _ _
        refine ⟨pushBack_valid _ (ofPrice_valid _) hno, ?_, ?_, by simp⟩
        · exact (pushBack_price _ _ _).trans (ofPrice_price _)
        · have hids := pushBack_orderIds o.visibleQty (ofPrice_valid _) hno
          rw [ofPrice_orderIds] at hids
          rw [show r.atPrice o.side o.price = [] from hl]
          exact hids
      | some l =>
        rw [hg] at hl
        have hno : ¬Holds l o.id := fun hh ↦ hentry ⟨l, hg, hh⟩
        refine ⟨pushBack_valid _ hl.1 hno, ?_, ?_, by simp⟩
        · exact (pushBack_price _ _ _).trans hl.2.1
        · have hids := pushBack_orderIds o.visibleQty hl.1 hno
          rw [hl.2.2.1] at hids
          rw [List.map_append]
          exact hids
    · simpa only [he, ↓reduceIte, List.append_nil] using hl

/-- The level of a stored order holds its identifier. -/
theorem level_of_find (h : Represents b r) {id : OrderId} {o : Order}
    (ho : b.findOrder id = some o) : ∃ l, b.getLevel o.side o.price = some l ∧ Valid l ∧
      price l = o.price ∧ orderIds l = (r.atPrice o.side o.price).map Order.id ∧
      id ∈ orderIds l := by
  rw [h.find] at ho
  have hmem := ReferenceBook.mem_of_findOrder ho
  have hat := ReferenceBook.mem_atPrice.mpr ⟨hmem.1, rfl, rfl⟩
  obtain ⟨l, hg, hv, hp, hids⟩ := h.level_of_mem hat
  refine ⟨l, hg, hv, hp, hids, ?_⟩
  rw [hids, ← hmem.2]
  exact List.mem_map_of_mem hat

/-- A level without an identifier keeps its orders when the identifier is cancelled. -/
private theorem lists_cancelOrder {o : Option L} {side : Side} {p : Price} {id : OrderId}
    (hl : Lists p (r.atPrice side p) o) (hid : ∀ x ∈ r.atPrice side p, x.id ≠ id) :
    Lists p ((r.cancelOrder id).atPrice side p) o := by
  have hfilter : (r.cancelOrder id).atPrice side p = r.atPrice side p := by
    rw [ReferenceBook.atPrice_cancelOrder, List.filter_eq_self]
    intro x hx
    simpa using hid x hx
  rwa [hfilter]

/-- Erasing an identifier from the identifiers at a price. -/
private theorem ids_cancelOrder (h : r.Distinct) (id : OrderId) (side : Side) (p : Price) :
    ((r.cancelOrder id).atPrice side p).map Order.id =
      ((r.atPrice side p).map Order.id).erase id := by
  rw [(h.atPrice_nodup side p).erase_eq_filter, List.filter_map,
    ReferenceBook.atPrice_cancelOrder]
  rfl

/-- The level that a cancelled order leaves behind. -/
private theorem cancel_level (h : Represents b r) {id : OrderId} {o : Order}
    (ho : b.findOrder id = some o) : ∃ l l', b.getLevel o.side o.price = some l ∧
      PriceLevelOps.empty (remove l id o.visibleQty) =
        (((r.cancelOrder id).atPrice o.side o.price).isEmpty, l') ∧
      Valid l' ∧ price l' = o.price ∧
      orderIds l' = ((r.cancelOrder id).atPrice o.side o.price).map Order.id ∧
      ∀ x, Holds l' x → Holds l x := by
  obtain ⟨l, hg, hv, hp, hids, hmem⟩ := h.level_of_find ho
  have hrv := remove_valid o.visibleQty hv hmem
  have hrids : orderIds (remove l id o.visibleQty) =
      ((r.cancelOrder id).atPrice o.side o.price).map Order.id := by
    rw [remove_orderIds _ hv hmem, hids, ids_cancelOrder h.distinct]
  refine ⟨l, (PriceLevelOps.empty (remove l id o.visibleQty)).2, hg, ?_, empty_valid hrv, ?_, ?_,
    ?_⟩
  · apply Prod.ext
    · rw [empty_fst hrv, hrids]
      exact List.isEmpty_map
    · rfl
  · rw [empty_price, remove_price, hp]
  · rw [empty_orderIds hrv, hrids]
  · exact fun x hx ↦ remove_holds (empty_holds hrv hx)

/-- Cancelling, whether or not the order is stored. -/
theorem cancelOrder (h : Represents b r) (id : OrderId) :
    Represents (b.cancelOrder id).1 (r.cancelOrder id) where
  last := (OrderBook.lastTradePrice_cancelOrder b id).trans h.last
  find x := by rw [OrderBook.findOrder_cancelOrder, ReferenceBook.findOrder_cancelOrder, h.find]
  distinct := h.distinct.cancelOrder id
  lists side p := by
    cases ho : b.findOrder id with
    | none =>
      have hc : (b.cancelOrder id).1 = b := by
        rw [OrderBook.findOrder] at ho
        simp only [OrderBook.cancelOrder, ho]
      rw [hc]
      refine lists_cancelOrder (h.lists side p) fun x hx ↦ ?_
      rw [h.find] at ho
      exact ReferenceBook.findOrder_eq_none_iff.mp ho x (ReferenceBook.mem_atPrice.mp hx).1
    | some o =>
      obtain ⟨l, l', hg, he, hv, hp, hids, -⟩ := h.cancel_level ho
      rw [OrderBook.getLevel_cancelOrder ho hg he]
      split
      · next hsp =>
        obtain ⟨rfl, rfl⟩ := hsp
        cases hx : (r.cancelOrder id).atPrice o.side o.price with
        | nil => rfl
        | cons x xs => exact ⟨hv, hp, hx ▸ hids, by simp⟩
      · next hsp =>
        refine lists_cancelOrder (h.lists side p) fun x hx hid ↦ ?_
        have hx' := ReferenceBook.mem_atPrice.mp hx
        rw [h.find, h.distinct.findOrder_eq_some_iff] at ho
        have heq : x = o := List.inj_on_of_nodup_map h.distinct hx'.1 ho.1 (hid.trans ho.2.symm)
        exact hsp ⟨heq ▸ hx'.2.1, heq ▸ hx'.2.2⟩

theorem shrinks_cancelOrder (h : Represents b r) (id : OrderId) :
    Shrinks (b.cancelOrder id).1 b where
  entry side p x hx := by
    cases ho : b.findOrder id with
    | none =>
      have hc : (b.cancelOrder id).1 = b := by
        rw [OrderBook.findOrder] at ho
        simp only [OrderBook.cancelOrder, ho]
      rwa [hc] at hx
    | some o =>
      obtain ⟨l, l', hg, he, -, -, -, hh⟩ := h.cancel_level ho
      obtain ⟨m, hm, hmx⟩ := hx
      rw [OrderBook.getLevel_cancelOrder ho hg he] at hm
      split at hm
      · next hsp =>
        obtain ⟨rfl, rfl⟩ := hsp
        split at hm
        · exact absurd hm (by simp)
        · rw [← Option.some.inj hm] at hmx
          exact ⟨l, hg, hh x hmx⟩
      · exact ⟨m, hm, hmx⟩
  find x hx := by
    rw [OrderBook.findOrder_cancelOrder]
    split
    · rfl
    · exact hx

theorem shrinks_storeOrder {b : OrderBook L} {id : OrderId} {x o : Order}
    (hx : b.findOrder id = some x) : Shrinks (b.storeOrder id o) b where
  entry side p y h := by
    obtain ⟨l, hl, hid⟩ := h
    rw [OrderBook.getLevel_storeOrder] at hl
    exact ⟨l, hl, hid⟩
  find y hy := by
    rw [OrderBook.findOrder_storeOrder, if_neg]
    · exact hy
    · rintro rfl
      rw [hx] at hy
      exact absurd hy (by simp)

theorem shrinks_setLastTradePrice (b : OrderBook L) (p : Price) :
    Shrinks (BookOps.setLastTradePrice b p) b where
  entry side q id h := by cases side <;> exact h
  find id h := h

/-- The best level is that of the first order of the side. -/
theorem bestLevel (h : Represents b r) {side : Side} {o : Order} {rest : List Order}
    (ho : r.orders side = o :: rest) :
    ∃ l, b.bestLevel side = some (o.price, l) ∧ b.getLevel side o.price = some l ∧ Valid l ∧
      price l = o.price ∧
      orderIds l = o.id :: (rest.filter (fun x ↦ x.price = o.price)).map Order.id := by
  have hat := ReferenceBook.atPrice_head ho
  have hmem : o ∈ r.atPrice side o.price := by
    rw [hat]
    exact List.mem_cons_self
  obtain ⟨l, hg, hv, hp, hids⟩ := h.level_of_mem hmem
  rw [hat, List.map_cons] at hids
  refine ⟨l, Std.ExtTreeMap.first?_eq_some_iff.mpr ⟨hg, fun p hp' ↦ ?_⟩, hg, hv, hp, hids⟩
  obtain ⟨m, hm⟩ := Option.isSome_iff_exists.mp
    (Std.ExtTreeMap.mem_iff_isSome_getElem?.mp hp')
  have hl := h.lists side p
  rw [OrderBook.getLevel, hm] at hl
  obtain ⟨x, hx⟩ := List.exists_mem_of_ne_nil _ hl.2.2.2
  have hx' := ReferenceBook.mem_atPrice.mp hx
  rw [← hx'.2.2]
  exact ReferenceBook.best_le ho (ReferenceBook.mem_orders.mpr ⟨hx'.1, hx'.2.1⟩)

theorem bestLevel_none (h : Represents b r) {side : Side} (ho : r.orders side = []) :
    b.bestLevel side = none := by
  refine Std.ExtTreeMap.first?_eq_none_iff.mpr fun p ↦ ?_
  have hl := h.lists side p
  have hat : r.atPrice side p = [] := by
    rw [List.eq_nil_iff_forall_not_mem]
    intro x hx
    have hx' := ReferenceBook.mem_atPrice.mp hx
    have := ReferenceBook.mem_orders.mpr ⟨hx'.1, hx'.2.1⟩
    rw [ho] at this
    exact List.not_mem_nil this
  rw [hat, OrderBook.getLevel] at hl
  cases hg : (b.levels side)[p]? with
  | none => rfl
  | some l =>
    rw [hg] at hl
    exact absurd rfl hl.2.2.2

/-- Both books have the same best prices. -/
theorem bestPrice (h : Represents b r) (side : Side) :
    BookOps.bestPrice b side = BookOps.bestPrice r side := by
  cases ho : r.orders side with
  | nil =>
    change (b.bestLevel side).map _ = (r.orders side).head?.map _
    rw [h.bestLevel_none ho, ho]
    rfl
  | cons o rest =>
    obtain ⟨l, hb, -, -, hp, -⟩ := h.bestLevel ho
    change (b.bestLevel side).map _ = (r.orders side).head?.map _
    rw [hb, ho]
    simp [hp]

/-- `front()` finds the first order of the side. -/
theorem frontOrder (h : Represents b r) {side : Side} {o : Order} {rest : List Order}
    (ho : r.orders side = o :: rest) : ∃ b', BookOps.frontOrder b side = some (o.id, b') ∧
      Represents b' r ∧ Shrinks b' b := by
  obtain ⟨l, hb, hg, hv, -, hids⟩ := h.bestLevel ho
  have hfst := front_fst hv
  rw [hids] at hfst
  refine ⟨b.setLevel side o.price (front l).2, ?_, ?_, ?_⟩
  · change b.frontOrder side = _
    rw [OrderBook.frontOrder, hb]
    simp only
    rw [hfst]
    rfl
  · exact h.setLevel hg (front_valid hv) (front_price l) (front_orderIds hv)
  · exact Shrinks.setLevel hg fun x hx ↦ front_holds hv hx

theorem reduceLevelVolume (h : Represents b r) (side : Side) (p : Price) (q : Quantity) :
    Represents (b.reduceLevelVolume side p q) r ∧ Shrinks (b.reduceLevelVolume side p q) b := by
  rw [OrderBook.reduceLevelVolume]
  cases hg : b.getLevel side p with
  | none => exact ⟨h, .refl b⟩
  | some l =>
    have hv : Valid l := by
      have hl := h.lists side p
      rw [hg] at hl
      exact hl.1
    exact ⟨h.setLevel hg (reduce_valid q hv) (reduce_price l q) (reduce_orderIds l q),
      Shrinks.setLevel hg fun x hx ↦ reduce_holds hx⟩

/-- Replenishing the first order of a side sends it behind its price. -/
theorem rotateLevel (h : Represents b r) {side : Side} {o : Order} {rest : List Order}
    (ho : r.orders side = o :: rest) (filled peak : Quantity) :
    ∃ b', b.rotateLevel side o.price o.id filled peak = some b' ∧
      Represents b' (r.requeue o.id) ∧ Shrinks b' b := by
  obtain ⟨l, -, hg, hv, hp, hids⟩ := h.bestLevel ho
  obtain ⟨m, hpop, hmv, hmids, hmid, hmh⟩ := popFront_valid filled hv hids
  have hmem : o ∈ r.orders side := by rw [ho]; exact List.mem_cons_self
  have hm := ReferenceBook.mem_orders.mp hmem
  have hat := ReferenceBook.atPrice_head ho
  refine ⟨b.setLevel side o.price (pushBack m o.id peak), ?_, ?_, ?_⟩
  · simp [OrderBook.rotateLevel, hg, hpop]
  · refine ⟨?_, fun id ↦ ?_, h.distinct.requeue o.id, fun side' p ↦ ?_⟩
    · rw [OrderBook.lastTradePrice_setLevel, ReferenceBook.lastTradePrice_requeue, h.last]
    · rw [OrderBook.findOrder_setLevel, h.find, h.distinct.findOrder_requeue]
    · have hl := h.lists side' p
      rw [OrderBook.getLevel_setLevel, h.distinct.atPrice_requeue hm.1, hm.2]
      split
      · next he =>
        obtain ⟨rfl, rfl⟩ := he
        refine ⟨pushBack_valid _ hmv hmid, ?_, ?_, by simp⟩
        · rw [pushBack_price, popFront_price hpop, hp]
        · rw [pushBack_orderIds _ hmv hmid, hmids, hat, List.map_append]
          have hnodup := h.distinct.atPrice_nodup side o.price
          rw [hat, List.map_cons, List.nodup_cons] at hnodup
          have hself : (rest.filter (fun x ↦ x.price = o.price)).filter (·.id != o.id) =
              rest.filter (fun x ↦ x.price = o.price) := by
            rw [List.filter_eq_self]
            intro x hx
            have hne : x.id ≠ o.id := fun he ↦ hnodup.1 (he ▸ List.mem_map_of_mem hx)
            simpa using hne
          rw [List.filter_cons_of_neg (by simp), hself]
          rfl
      · exact hl
  · refine Shrinks.setLevel hg fun x hx ↦ ?_
    rcases pushBack_holds hx with hx | rfl
    · exact hmh x hx
    · apply holds_of_mem hv
      rw [hids]
      exact List.mem_cons_self

/-- Both books have the level of the first order of a side. -/
theorem hasLevel (h : Represents b r) {side : Side} {o : Order} {rest : List Order}
    (ho : r.orders side = o :: rest) : BookOps.hasLevel b side o.price = true ∧
      BookOps.hasLevel r side o.price = true := by
  obtain ⟨l, -, hg, -⟩ := h.bestLevel ho
  constructor
  · change (b.getLevel side o.price).isSome = true
    rw [hg]
    rfl
  · change (!(r.atPrice side o.price).isEmpty) = true
    rw [ReferenceBook.atPrice_head ho]
    rfl

theorem updateOrderQuantity (h : Represents b r) (id : OrderId) (q : Quantity) :
    Represents (BookOps.updateOrderQuantity b id q) (BookOps.updateOrderQuantity r id q) ∧
      Shrinks (BookOps.updateOrderQuantity b id q) b := by
  have hb : BookOps.findOrder b id = BookOps.findOrder r id := h.find id
  rw [BookOps.updateOrderQuantity, BookOps.updateOrderQuantity, ← hb]
  cases hf : BookOps.findOrder b id with
  | none => exact ⟨h, .refl b⟩
  | some o =>
    have hid := (ReferenceBook.mem_of_findOrder ((h.find id).symm.trans hf)).2
    exact ⟨h.storeOrder hf hid rfl rfl, shrinks_storeOrder hf⟩

end Represents

end LobEngine
