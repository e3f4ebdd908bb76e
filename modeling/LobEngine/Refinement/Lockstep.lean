import LobEngine.Engine.Run
import LobEngine.Refinement.Represents

/-!
# The engine and the reference engine move in lockstep

`Tracks` relates the machine over the book to the machine over the reference book. Apart
from the books the two states are equal, and every order that may still be inserted, held
by an active loop or pending, fits the book and has an identifier of its own.
-/

namespace LobEngine

open PriceLevelOps LawfulPriceLevel BookOps Engine Stepper

variable {L : Type} [PriceLevelOps L] [LawfulPriceLevel L]

namespace Represents

variable {b : OrderBook L} {r : ReferenceBook}

/-- Picking the passive order finds the first order of the side. -/
theorem pickPassive (h : Represents b r) {side : Side} {o : Order} {rest : List Order}
    (ho : r.orders side = o :: rest) :
    ∃ b', Engine.pickPassive b side = .ok (o.id, o, b') ∧
      Engine.pickPassive r side = .ok (o.id, o, r) ∧ Represents b' r ∧ Shrinks b' b := by
  obtain ⟨b', hf, hr, hs⟩ := h.frontOrder ho
  have hmem := ReferenceBook.mem_orders.mp (ho ▸ List.mem_cons_self : o ∈ r.orders side)
  have hfind := h.distinct.findOrder_of_mem hmem.1
  have hfind' : BookOps.findOrder b' o.id = some o := (hr.find o.id).trans hfind
  refine ⟨b', ?_, ?_, hr, hs⟩
  · rw [Engine.pickPassive, hf]
    simp only [hfind']
  · have hfront : BookOps.frontOrder r side = some (o.id, r) := by
      change (r.orders side).head?.map _ = _
      rw [ho]
      rfl
    rw [Engine.pickPassive, hfront]
    simp only [show BookOps.findOrder r o.id = some o from hfind]

/-- What is picked at the best price is the first order of the side. -/
theorem of_pickPassive (h : Represents b r) {side : Side} {p : Price} {key : OrderId} {o : Order}
    {b₁ : OrderBook L} (hb : BookOps.bestPrice b side = some p)
    (hp : Engine.pickPassive b side = .ok (key, o, b₁)) :
    key = o.id ∧ p = o.price ∧ (∃ rest, r.orders side = o :: rest) ∧
      Represents b₁ r ∧ Shrinks b₁ b := by
  rw [h.bestPrice] at hb
  obtain ⟨x, rest, hx, rfl⟩ := ReferenceBook.exists_best hb
  obtain ⟨b', hp', -, hr, hs⟩ := h.pickPassive hx
  rw [hp'] at hp
  obtain ⟨rfl, rfl, rfl⟩ : x.id = key ∧ x = o ∧ b' = b₁ := by simpa using hp
  exact ⟨rfl, rfl, ⟨rest, hx⟩, hr, hs⟩

private theorem replenishIceberg (h : Represents b r) {side : Side} {o : Order}
    {rest : List Order} (ho : r.orders side = o :: rest) (q : Quantity) :
    ∃ b' r', Engine.replenishIceberg b o.id o q = .ok b' ∧
      Engine.replenishIceberg r o.id o q = .ok r' ∧ Represents b' r' ∧ Shrinks b' b := by
  obtain ⟨b', hrot, hr, hs⟩ := h.rotateLevel ho q (min o.peakQty o.reserveQty)
  have hmem := ReferenceBook.mem_orders.mp (ho ▸ List.mem_cons_self : o ∈ r.orders side)
  obtain ⟨hhas, hhas'⟩ := h.hasLevel ho
  rw [← hmem.2] at hrot hhas hhas'
  have hfind : b'.findOrder o.id = some o := by
    rw [hr.find, h.distinct.findOrder_requeue, h.distinct.findOrder_of_mem hmem.1]
  have hst := hr.storeOrder (o := { o with
    reserveQty := o.reserveQty - min o.peakQty o.reserveQty
    quantity := min o.peakQty o.reserveQty }) hfind rfl rfl rfl
  obtain ⟨hu, hus⟩ := hst.updateOrderQuantity o.id (min o.peakQty o.reserveQty)
  refine ⟨_, _, ?_, ?_, hu, (hus.trans (shrinks_storeOrder hfind)).trans hs⟩
  · have hrot' : BookOps.rotateLevel b o.side o.price o.id q (min o.peakQty o.reserveQty) =
        some b' := hrot
    rw [Engine.replenishIceberg, if_pos hhas]
    simp only [hrot']
    rfl
  · rw [Engine.replenishIceberg, if_pos hhas']
    rfl

/-- A fill changes both books alike. -/
theorem settlePassive (h : Represents b r) {side : Side} {o : Order} {rest : List Order}
    (ho : r.orders side = o :: rest) (q : Quantity) :
    ∃ b' r', Engine.settlePassive b o.id o q = .ok b' ∧
      Engine.settlePassive r o.id o q = .ok r' ∧ Represents b' r' ∧ Shrinks b' b := by
  have hmem := ReferenceBook.mem_orders.mp (ho ▸ List.mem_cons_self : o ∈ r.orders side)
  have hfind : b.findOrder o.id = some o :=
    (h.find o.id).trans (h.distinct.findOrder_of_mem hmem.1)
  let o' := { o with quantity := o.quantity - q }
  have hst := (h.storeOrder (o := o') hfind rfl rfl rfl).setLastTradePrice o.price
  have hss := (shrinks_setLastTradePrice (b.storeOrder o.id o') o.price).trans
    (shrinks_storeOrder hfind)
  have hfind' : (BookOps.setLastTradePrice (b.storeOrder o.id o') o.price).findOrder o.id =
      some o' := by
    change (b.storeOrder o.id o').findOrder o.id = some o'
    rw [OrderBook.findOrder_storeOrder, if_pos rfl]
  have ho' : (BookOps.setLastTradePrice (r.storeOrder o.id o') o.price).orders side =
      o' :: rest.map (BookSide.overwrite o.id o') := by
    have hcons : BookSide.overwrite o.id o' o = o' := by
      rw [BookSide.overwrite, if_pos rfl]
    have := ReferenceBook.orders_storeOrder r o.id o' side
    rw [ho, List.map_cons, hcons] at this
    cases side <;> exact this
  simp only [Engine.settlePassive]
  split
  · obtain ⟨b', r', hb, hr, hrep, hs⟩ := hst.replenishIceberg ho' q
    exact ⟨b', r', hb, hr, hrep, hs.trans hss⟩
  · split
    · have hfill := hst.storeOrder (o := { o' with status := .filled }) hfind' rfl rfl rfl
      refine ⟨_, _, rfl, rfl, hfill.cancelOrder o.id, ?_⟩
      exact (hfill.shrinks_cancelOrder o.id).trans ((shrinks_storeOrder hfind').trans hss)
    · obtain ⟨hred, hreds⟩ := hst.reduceLevelVolume o.side o.price q
      obtain ⟨hu, hus⟩ := hred.updateOrderQuantity o.id o'.quantity
      exact ⟨_, _, rfl, rfl, hu, hus.trans (hreds.trans hss)⟩

end Represents

/-- The orders a frame holds. A stop counts as the order it will be converted to. -/
def Frame.orders : Frame → List Order
  | .matching aggressor => [aggressor]
  | .triggers _ working => working.map Order.converted

/-- The orders outside the book that may still trade or rest: those of the active loops `K`,
innermost first, and the pending stops. -/
def Engine.outstanding {B : Type} (s : Engine B) (K : List Frame) : List Order :=
  K.flatMap Frame.orders ++ s.pendingStops.map Order.converted

/-- Between two events only stops are outstanding. -/
theorem ids_outstanding {B : Type} (s : Engine B) :
    (s.outstanding []).map Order.id = s.pendingStops.map Order.id := by
  change (s.pendingStops.map Order.converted).map Order.id = _
  rw [List.map_map]
  exact List.map_congr_left fun stop _ ↦ converted_id stop

/-- The same engine over another book. -/
def Engine.withBook {B B' : Type} (s : Engine B) (b : B') : Engine B' :=
  ⟨b, s.sequence, s.pendingStops, s.ghost⟩

/-- The same configuration over another book. -/
def Config.withBook {B B' : Type} (c : Config B) (b : B') : Config B' :=
  ⟨c.engine.withBook b, c.stack, c.result⟩

/-- The orders that the relation follows: those that can come to rest, or all of them. -/
def Order.tracked (all : Bool) (o : Order) : Bool := all || o.canRest

@[simp] theorem filter_tracked_true (os : List Order) : os.filter (·.tracked true) = os :=
  List.filter_eq_self.mpr fun _ _ ↦ rfl

/-- One order can stand for another: the same identifier, and the same place if it can come
to rest. -/
structure Order.StandsFor (o' o : Order) : Prop where
  id_eq : o'.id = o.id
  canRest : o'.canRest = true → o.canRest = true ∧ o'.side = o.side ∧ o'.price = o.price

variable (all : Bool) (U : OrderId → Prop)

/-- The book represents the reference book, holds entries of known identifiers only, and has
room for the outstanding orders `os`. -/
structure Tracks (b : OrderBook L) (os : List Order) (r : ReferenceBook) : Prop where
  represents : Represents b r
  known : ∀ side p id, Entry b side p id → U id
  distinct : ((os.filter (·.tracked all)).map Order.id).Nodup
  fits : ∀ o ∈ os, o.tracked all = true → Fits b o ∧ U o.id

/-- The machine over the book and the machine over the reference book. -/
def Related (c : Config (OrderBook L)) (d : Config ReferenceBook) : Prop :=
  ∃ r, d = c.withBook r ∧ Tracks all U c.engine.book (c.engine.outstanding c.stack) r

variable {all U}

theorem Order.StandsFor.tracked {o o' : Order} (h : o'.StandsFor o)
    (ht : o'.tracked all = true) : o.tracked all = true := by
  rw [Order.tracked, Bool.or_eq_true] at ht ⊢
  exact ht.imp (fun hall ↦ hall) fun hr ↦ (h.canRest hr).1

theorem Order.StandsFor.fits {b : OrderBook L} {o o' : Order} (h : o'.StandsFor o)
    (hf : Fits b o) : Fits b o' := by
  refine ⟨h.id_eq ▸ hf.1, fun hr ↦ ?_⟩
  obtain ⟨hr', hs, hp⟩ := h.canRest hr
  rw [hs, hp, h.id_eq]
  exact hf.2 hr'

namespace Tracks

variable {b b' : OrderBook L} {os os' : List Order} {r r' : ReferenceBook} {o o' : Order}

theorem perm (h : Tracks all U b os r) (hp : List.Perm os' os) : Tracks all U b os' r where
  represents := h.represents
  known := h.known
  distinct := (((hp.filter _).map Order.id).nodup_iff).mpr h.distinct
  fits x hx := h.fits x (hp.mem_iff.mp hx)

theorem sublist (h : Tracks all U b os r) (hs : List.Sublist os' os) :
    Tracks all U b os' r where
  represents := h.represents
  known := h.known
  distinct := h.distinct.sublist ((hs.filter _).map Order.id)
  fits x hx := h.fits x (hs.subset hx)

theorem tail (h : Tracks all U b (o :: os) r) : Tracks all U b os r :=
  h.sublist (List.sublist_cons_self o os)

/-- No other outstanding order has the identifier of a tracked one. -/
private theorem id_ne (h : Tracks all U b (o :: os) r) (ho : o.tracked all = true) {x : Order}
    (hx : x ∈ os) (hxt : x.tracked all = true) : x.id ≠ o.id := by
  have hd := h.distinct
  rw [List.filter_cons_of_pos ho, List.map_cons, List.nodup_cons] at hd
  exact fun he ↦ hd.1 (he ▸ List.mem_map_of_mem (List.mem_filter.mpr ⟨hx, hxt⟩))

theorem stand (h : Tracks all U b (o :: os) r) (hs : o'.StandsFor o) :
    Tracks all U b (o' :: os) r where
  represents := h.represents
  known := h.known
  distinct := by
    have hd := h.distinct
    by_cases ht : o'.tracked all = true
    · rw [List.filter_cons_of_pos (hs.tracked ht)] at hd
      rw [List.filter_cons_of_pos ht]
      simpa only [List.map_cons, hs.id_eq] using hd
    · rw [List.filter_cons_of_neg ht]
      exact h.tail.distinct
  fits x hx ht := by
    rcases List.mem_cons.mp hx with rfl | hx
    · have hf := h.fits o List.mem_cons_self (hs.tracked ht)
      exact ⟨hs.fits hf.1, hs.id_eq ▸ hf.2⟩
    · exact h.tail.fits x hx ht

/-- Operations that add no entries keep the room. -/
theorem shrink (h : Tracks all U b os r) (hr : Represents b' r') (hs : Shrinks b' b) :
    Tracks all U b' os r' where
  represents := hr
  known side p id he := h.known side p id (hs.entry side p id he)
  distinct := h.distinct
  fits x hx ht := ⟨hs.fits (h.fits x hx ht).1, (h.fits x hx ht).2⟩

/-- Inserting an order whose identifier no outstanding order has. -/
theorem insert (h : Tracks all U b os r) (hfind : b.findOrder o.id = none)
    (hentry : ¬Entry b o.side o.price o.id) (hU : U o.id)
    (hne : ∀ x ∈ os, x.tracked all = true → x.id ≠ o.id) :
    Tracks all U (b.insertOrder o) os (r.insertOrder o) where
  represents := h.represents.insertOrder hfind hentry
  known side p id he := by
    rcases entry_insertOrder he with he | rfl
    · exact h.known side p id he
    · exact hU
  distinct := h.distinct
  fits x hx hxt := ⟨(h.fits x hx hxt).1.insertOrder (hne x hx hxt), (h.fits x hx hxt).2⟩

/-- An outstanding order comes to rest. -/
theorem insertOrder (h : Tracks all U b (o :: os) r) (ho : o.canRest = true) :
    Tracks all U (b.insertOrder o) os (r.insertOrder o) := by
  have ht : o.tracked all = true := by rw [Order.tracked, ho, Bool.or_true]
  obtain ⟨hf, hU⟩ := h.fits o List.mem_cons_self ht
  exact h.tail.insert hf.1 (hf.2 ho) hU fun x hx hxt ↦ h.id_ne ht hx hxt

end Tracks

private theorem canRest_of_type {o : Order} (h : o.type ≠ .market) (h' : o.type ≠ .stop) :
    o.canRest = true := by
  rw [Order.canRest]
  cases ht : o.type with
  | market => exact absurd ht h
  | stop => exact absurd ht h'
  | limit | stopLimit | iceberg => rfl

theorem standsFor_of_eq {o o' : Order} (hid : o'.id = o.id) (ht : o'.type = o.type)
    (hs : o'.side = o.side) (hp : o'.price = o.price) : o'.StandsFor o where
  id_eq := hid
  canRest hr := ⟨by rwa [Order.canRest, ← ht], hs, hp⟩

private theorem markFilled_standsFor (o : Order) : (markFilled o).StandsFor o := by
  rw [markFilled]
  split <;> exact standsFor_of_eq rfl rfl rfl rfl

/-- A stop is converted to an order that stands for it. -/
private theorem converted_standsFor {o : Order} (h : o.type = .stop ∨ o.type = .stopLimit) :
    o.converted.StandsFor o := by
  rw [Order.converted]
  rcases h with h | h
  · rw [if_pos h]
    exact ⟨rfl, fun hr ↦ absurd hr (by simp [Order.canRest])⟩
  · rw [if_neg (by rw [h]; decide)]
    exact ⟨rfl, fun _ ↦ ⟨by rw [Order.canRest, h], rfl, rfl⟩⟩

namespace Related

variable {s : Engine (OrderBook L)} {r : ReferenceBook} {K : List Frame} {res : MatchResult}

/-- What a match loop leaves behind. -/
theorem settle {a : Order} (h : Tracks all U s.book (a :: s.outstanding K) r) :
    Related all U ⟨Config.settle s a, K, res⟩ ⟨Config.settle (s.withBook r) a, K, res⟩ := by
  have hin (ha : a.type ≠ .market) (ha' : a.type ≠ .stop) :
      Related all U ⟨s.insert a, K, res⟩ ⟨(s.withBook r).insert a, K, res⟩ :=
    ⟨r.insertOrder a, rfl, h.insertOrder (canRest_of_type ha ha')⟩
  have hout : Related all U ⟨s, K, res⟩ ⟨s.withBook r, K, res⟩ := ⟨r, rfl, h.tail⟩
  rw [Config.settle, Config.settle]
  cases ha : a.type with
  | limit =>
    simp only
    split
    · exact hin (by simp [ha]) (by simp [ha])
    · exact hout
  | iceberg =>
    simp only
    split
    · exact hin (by simp [ha]) (by simp [ha])
    · exact hout
  | market | stop | stopLimit => exact hout

/-- Starting the evaluation of stops only moves them. -/
theorem evaluate (h : Tracks all U s.book (s.outstanding K) r) :
    Related all U (.evaluate ⟨s, K, res⟩) (.evaluate ⟨s.withBook r, K, res⟩) := by
  have hout : Related all U ⟨s, K, res⟩ ⟨s.withBook r, K, res⟩ := ⟨r, rfl, h⟩
  have hlast : lastTradePrice (s.withBook r).book = lastTradePrice s.book := h.represents.last.symm
  simp only [Config.evaluate]
  rw [hlast]
  split
  · next hp => rw [if_pos (show (s.withBook r).pendingStops = [] from hp)]; exact hout
  · next hp =>
    rw [if_neg (show ¬(s.withBook r).pendingStops = [] from hp)]
    split
    · exact hout
    · refine ⟨r, rfl, h.perm ?_⟩
      simp only [Engine.outstanding, Frame.orders, List.flatMap_cons, List.map_nil,
        List.append_nil]
      exact List.perm_append_comm

/-- Starting the match loop of an outstanding order. -/
theorem matching {a a' : Order} (h : Tracks all U s.book (a :: s.outstanding K) r)
    (ha : a'.StandsFor a) : Related all U ⟨s, .matching a' :: K, res⟩
      ⟨s.withBook r, .matching a' :: K, res⟩ := ⟨r, rfl, h.stand ha⟩

theorem enterConverted {o : Order} (h : Tracks all U s.book (o.converted :: s.outstanding K) r) :
    Related all U (.enterConverted s o K res) (.enterConverted (s.withBook r) o K res) :=
  ⟨r, rfl, h.stand (standsFor_of_eq rfl rfl rfl rfl)⟩

theorem exhaust {a : Order} (h : Tracks all U s.book (a :: s.outstanding K) r) :
    Related all U (.exhaust s a K res) (.exhaust (s.withBook r) a K res) := by
  rw [Config.exhaust, Config.exhaust]
  split
  · exact ⟨r, rfl, h.tail⟩
  · exact settle (h.stand (markFilled_standsFor a))

/-- One fill against the first order of the opposite side. -/
theorem fill {a o : Order} {rest : List Order}
    (h : Tracks all U s.book (a :: s.outstanding K) r)
    (ho : r.orders a.side.opposite = o :: rest) :
    ∃ c d, Config.fill s a K res = .ok c ∧ Config.fill (s.withBook r) a K res = .ok d ∧
      Related all U c d := by
  obtain ⟨b', hp, hp', hr, hs⟩ := h.represents.pickPassive ho
  obtain ⟨b'', r'', hb, hb', hrep, hs'⟩ := hr.settlePassive ho (min a.quantity o.quantity)
  refine ⟨_, _, Config.fill_of rfl hp hb, Config.fill_of rfl hp' hb', ?_⟩
  have hstand :
      ({ a with quantity := a.quantity - min a.quantity o.quantity } : Order).StandsFor a :=
    standsFor_of_eq rfl rfl rfl rfl
  exact evaluate (s := { s with book := b'' }.log _) (K := .matching _ :: K)
    ((h.stand hstand).shrink hrep (hs'.trans hs))

/-- The two machines take the same steps. -/
theorem lockstep : Lockstep Config.step Config.step
    (Related (L := L) all U) := by
  rintro ⟨s, K, res⟩ _ ⟨r, rfl, h⟩
  cases K with
  | nil => exact .halt
  | cons f K =>
    cases f with
    | triggers p working =>
      cases working with
      | nil => exact .move ⟨r, rfl, h⟩
      | cons stop working =>
        simp only [Config.withBook, Config.step]
        split
        · exact .move (enterConverted h)
        · refine .move ⟨r, rfl, h.perm ?_⟩
          simp only [Engine.outstanding, List.map_append, ← List.append_assoc]
          exact List.perm_append_singleton _ _
    | matching a =>
      have hbest : bestPrice (s.withBook r).book a.side.opposite =
        bestPrice s.book a.side.opposite := (h.represents.bestPrice _).symm
      simp only [Config.withBook, Config.step, hbest]
      split
      · split
        · exact .move (exhaust h)
        · next levelPrice hlevel =>
          split
          · rw [h.represents.bestPrice] at hlevel
            obtain ⟨o, rest, ho, -⟩ := ReferenceBook.exists_best hlevel
            obtain ⟨c, d, hc, hd, hcd⟩ := fill h ho
            rw [hc, hd]
            exact .move hcd
          · exact .move (settle (h.stand (markFilled_standsFor a)))
      · exact .move (settle (h.stand (markFilled_standsFor a)))

/-- Submitting an outstanding order. -/
theorem enter {o : Order} (h : Tracks all U s.book (o :: s.outstanding K) r) :
    Related all U (.enter s o K res) (.enter (s.withBook r) o K res) := by
  have hlast : (s.withBook r).immediatelyTriggered { o with status := .resting } =
      s.immediatelyTriggered { o with status := .resting } := by
    rw [Engine.immediatelyTriggered, Engine.immediatelyTriggered]
    rw [show lastTradePrice (s.withBook r).book = lastTradePrice s.book from
      h.represents.last.symm]
  -- a stop is converted at once or waits
  have hstop (ht : o.type = .stop ∨ o.type = .stopLimit) : Related all U
      (if s.immediatelyTriggered { o with status := .resting }
        then .enterConverted s { o with status := .resting } K res
        else ⟨{ s with pendingStops := s.pendingStops ++ [{ o with status := .resting }] }, K, res⟩)
      (if s.immediatelyTriggered { o with status := .resting }
        then .enterConverted (s.withBook r) { o with status := .resting } K res
        else ⟨{ s.withBook r with
          pendingStops := s.pendingStops ++ [{ o with status := .resting }] }, K, res⟩) := by
    have hc : ({ o with status := .resting } : Order).converted.StandsFor o := by
      have hc := converted_standsFor (o := { o with status := .resting }) ht
      exact ⟨hc.id_eq, hc.canRest⟩
    split
    · exact enterConverted (h.stand hc)
    · refine ⟨r, rfl, (h.stand hc).perm ?_⟩
      simp only [Engine.outstanding, List.map_append, ← List.append_assoc]
      exact List.perm_append_singleton _ _
  simp only [Config.enter, hlast]
  cases ht : o.type with
  | limit => exact matching h (standsFor_of_eq rfl ht.symm rfl rfl)
  | market => exact matching h (standsFor_of_eq rfl ht.symm rfl rfl)
  | iceberg => exact matching h (standsFor_of_eq rfl ht.symm rfl rfl)
  | stop =>
    have := hstop (.inl ht)
    rw [ht] at this
    exact this
  | stopLimit =>
    have := hstop (.inr ht)
    rw [ht] at this
    exact this

end Related

variable (all U)

/-- The engine has room for a submitted order. -/
def Welcomes (s : Engine (OrderBook L)) (o : Order) : Prop :=
  o.tracked all = true → Fits s.book o ∧ U o.id ∧
    ∀ stop ∈ s.pendingStops, stop.converted.tracked all = true → stop.id ≠ o.id

/-- The requeueing modify of an order would not meet an entry of the order itself in the
level it joins. -/
def Requeueable (b : OrderBook L) (e : ModifyOrderEvent) : Prop :=
  ∀ o, b.findOrder e.orderId = some o → o.isResting = true → requeues e o = true →
    ¬Entry (b.cancelOrder e.orderId).1 o.side (modified e o).price e.orderId

/-- The engine has room for whatever the event inserts. -/
def Admits (s : Engine (OrderBook L)) : OrderEvent → Prop
  | .newOrder e => Welcomes all U s e.order
  | .cancelOrder _ => True
  | .modifyOrder e => Requeueable s.book e
  | .replaceOrder e =>
    Welcomes all U { s with book := cancelOrder s.book e.oldOrderId } e.newOrder

variable {all U}

theorem Tracks.cons {s : Engine (OrderBook L)} {r : ReferenceBook} {o : Order}
    (h : Tracks all U s.book (s.outstanding []) r) (ho : Welcomes all U s o) :
    Tracks all U s.book (o :: s.outstanding []) r where
  represents := h.represents
  known := h.known
  distinct := by
    by_cases ht : o.tracked all = true
    · rw [List.filter_cons_of_pos ht, List.map_cons, List.nodup_cons]
      refine ⟨fun hmem ↦ ?_, h.distinct⟩
      obtain ⟨x, hx, hid⟩ := List.mem_map.mp hmem
      obtain ⟨hx, hxt⟩ := List.mem_filter.mp hx
      obtain ⟨stop, hstop, rfl⟩ := List.mem_map.mp hx
      rw [converted_id] at hid
      exact (ho ht).2.2 stop hstop hxt hid
    · rw [List.filter_cons_of_neg ht]
      exact h.distinct
  fits x hx hxt := by
    rcases List.mem_cons.mp hx with rfl | hx
    · exact ⟨(ho hxt).1, (ho hxt).2.1⟩
    · exact h.fits x hx hxt

namespace Related

variable {s : Engine (OrderBook L)} {r : ReferenceBook}

/-- Cancelling takes an order out of the pending stops or out of the book. -/
theorem processCancel (h : Tracks all U s.book (s.outstanding []) r) (e : CancelOrderEvent) :
    Related all U ⟨(s.processCancel e).1, [], (s.processCancel e).2⟩
      ⟨((s.withBook r).processCancel e).1, [], ((s.withBook r).processCancel e).2⟩ := by
  have hfind : findOrder (s.withBook r).book e.orderId = findOrder s.book e.orderId :=
    (h.represents.find e.orderId).symm
  rw [Engine.processCancel, Engine.processCancel, hfind]
  cases hp : s.pendingStops.find? (·.id == e.orderId) with
  | some stop =>
    have hp' : (s.withBook r).pendingStops.find? (·.id == e.orderId) = some stop := hp
    rw [hp']
    exact ⟨r, rfl, h.sublist (List.eraseP_sublist.map Order.converted)⟩
  | none =>
    have hp' : (s.withBook r).pendingStops.find? (·.id == e.orderId) = none := hp
    rw [hp']
    simp only
    split
    · exact ⟨r, rfl, h⟩
    · split
      · exact ⟨r.cancelOrder e.orderId, rfl, h.shrink (h.represents.cancelOrder e.orderId)
          (h.represents.shrinks_cancelOrder e.orderId)⟩
      · exact ⟨r, rfl, h⟩

/-- Modifying an order that can be requeued. -/
theorem processModify (h : Tracks all U s.book (s.outstanding []) r) (e : ModifyOrderEvent)
    (he : Requeueable s.book e) :
    Related all U ⟨(s.processModify e).1, [], (s.processModify e).2⟩
      ⟨((s.withBook r).processModify e).1, [], ((s.withBook r).processModify e).2⟩ := by
  have hfind : findOrder (s.withBook r).book e.orderId = findOrder s.book e.orderId :=
    (h.represents.find e.orderId).symm
  rw [Engine.processModify, Engine.processModify, hfind]
  cases ho : findOrder s.book e.orderId with
  | none => exact ⟨r, rfl, h⟩
  | some o =>
    have hid : o.id = e.orderId :=
      (ReferenceBook.mem_of_findOrder ((h.represents.find e.orderId).symm.trans ho)).2
    simp only
    split
    · next hr =>
      split
      · next hq =>
        have hc := h.shrink (h.represents.cancelOrder e.orderId)
          (h.represents.shrinks_cancelOrder e.orderId)
        have hU : U e.orderId := h.known _ _ _ (h.represents.entry_of_find ho)
        have hmod : (modified e o).id = e.orderId := hid
        refine ⟨_, rfl, hc.insert ?_ ?_ (hmod ▸ hU) fun x hx hxt ↦ ?_⟩
        · rw [hmod, OrderBook.findOrder_cancelOrder, if_pos rfl]
        · rw [hmod]
          exact he o ho hr hq
        · rw [hmod]
          intro hxid
          have hnone := (h.fits x hx hxt).1.1
          rw [hxid] at hnone
          exact absurd (hnone.symm.trans ho) (by simp)
      · split
        · obtain ⟨hu, hus⟩ := h.represents.updateOrderQuantity e.orderId e.newQuantity
          obtain ⟨hr, hrs⟩ := hu.reduceLevelVolume o.side o.price (o.quantity - e.newQuantity)
          exact ⟨_, rfl, h.shrink hr (hrs.trans hus)⟩
        · exact ⟨r, rfl, h⟩
    · exact ⟨r, rfl, h⟩

/-- The machines start an event alike. -/
theorem start (h : Tracks all U s.book (s.outstanding []) r) {e : OrderEvent}
    (he : Admits all U s e) : Related all U (.start s e) (.start (s.withBook r) e) := by
  cases e with
  | newOrder e => exact enter (s := { s with sequence := s.sequence + 1 }) (h.cons he)
  | cancelOrder e => exact processCancel (s := { s with sequence := s.sequence + 1 }) h e
  | modifyOrder e => exact processModify (s := { s with sequence := s.sequence + 1 }) h e he
  | replaceOrder e =>
    have hhas : hasOrder (s.withBook r).book e.oldOrderId = hasOrder s.book e.oldOrderId :=
      h.represents.hasOrder_eq e.oldOrderId
    simp only [Config.start, hhas]
    split
    · have hc := h.shrink (h.represents.cancelOrder e.oldOrderId)
        (h.represents.shrinks_cancelOrder e.oldOrderId)
      exact enter (s := { s with book := cancelOrder s.book e.oldOrderId
                                 sequence := s.sequence + 1 })
        (hc.cons (s := { s with book := cancelOrder s.book e.oldOrderId }) he)
    · exact ⟨r, rfl, h⟩

end Related

end LobEngine
