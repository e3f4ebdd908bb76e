import LobEngine.Properties.Scene
import LobEngine.Properties.WellFormed

/-!
# Resting orders are alive

An iceberg matches with its peak only. Where the peak is used up on arrival and a reserve is left,
`process_new_order` inserts the order as it is: quantity zero and status `Filled`. It cannot be
cancelled, and the next order at its level trades with it for nothing. In runs in which no
iceberg with a reserve can meet as much as its peak on arrival, every order of the book is alive and
every trade has a quantity.
-/

namespace LobEngine

open BookOps Engine Stepper

/-! ### The branch that goes wrong -/

section Spent

variable {B : Type} [BookOps B]

/-- The innermost match loop is that of an iceberg that has traded its whole peak and has a
reserve left. -/
def Config.Spent (c : Config B) : Prop :=
  match c.stack with
  | .matching a :: _ => a.type = .iceberg ∧ a.quantity = 0 ∧ a.reserveQty > 0
  | _ => False

/-- A filled order leaves its match loop and is gone, unless it is a spent iceberg. -/
private theorem Config.settle_filled (s : Engine B) {a : Order} {K : List Frame} {r : MatchResult}
    (hq : a.quantity = 0) (hs : ¬Config.Spent ⟨s, .matching a :: K, r⟩) :
    Config.settle s (markFilled a) = s := by
  apply Config.settle_markFilled hq
  intro ht
  by_contra hne
  exact hs ⟨ht, hq, UInt64.pos_iff_ne_zero.mpr hne⟩

/-- The order that an event matches has a resting status. -/
private theorem matching_start {s : Engine B} {e : OrderEvent} {a : Order}
    (h : .matching a ∈ (Config.start s e).stack) : a.isResting = true := by
  have henter {s' : Engine B} {o : Order}
      (h : .matching a ∈ (Config.enter s' o [] {}).stack) : a.isResting = true := by
    simp only [Config.enter] at h
    split at h
    · simp only [List.mem_singleton, Frame.matching.injEq] at h
      rw [h]
      rfl
    · simp only [List.mem_singleton, Frame.matching.injEq] at h
      rw [h]
      rfl
    · simp only [List.mem_singleton, Frame.matching.injEq] at h
      rw [h]
      rfl
    all_goals
      split at h
      · simp only [Config.enterConverted, List.mem_singleton, Frame.matching.injEq] at h
        rw [h]
        rfl
      · exact absurd h List.not_mem_nil
  have hstart := Config.starts s e
  generalize Config.start s e = c at hstart h
  cases hstart with
  | newOrder | replaced => exact henter h
  | stopCancelled | orderCancelled | cancelRejected | requeued | reduced | unmodified
  | replaceRejected => exact absurd h List.not_mem_nil

end Spent

/-! ### The invariant -/

/-- The order can be cancelled and traded with. -/
def Order.Alive (o : Order) : Prop := o.quantity > 0 ∧ o.isResting = true

/-- The invariant of the machine: the orders of the book are alive, the orders being matched have
a resting status, and every trade has a quantity. -/
structure Thriving (c : Config ReferenceBook) : Prop where
  alive : ∀ o ∈ c.engine.book.allOrders, o.Alive
  active : ∀ a, .matching a ∈ c.stack → a.isResting = true
  trades : ∀ t ∈ c.result.trades, t.quantity > 0

/-- What a fill leaves of an order that is alive is alive. -/
private theorem alive_leftAfter {o x : Order} {q : Quantity} (h : o.Alive)
    (hx : x ∈ (o.leftAfter q).toList) : x.Alive := by
  refine ⟨leftAfter_pos hx, ?_⟩
  rw [Option.mem_toList, Order.leftAfter] at hx
  split at hx
  · split at hx
    · obtain rfl := Option.some.inj hx
      exact h.2
    · exact absurd hx (by simp)
  · obtain rfl := Option.some.inj hx
    exact h.2

/-- A move out of a state that is not spent keeps the machine thriving. -/
theorem Thriving.moves {U : OrderId → Prop} {c d : Config ReferenceBook} (ho : Orderly U c)
    (h : Thriving c) (hs : ¬c.Spent) (hm : Config.Moves c d) : Thriving d := by
  obtain ⟨halive, hactive, htrades⟩ := h
  have hsettle {s : Engine ReferenceBook} {a : Order} (hbook : ∀ o ∈ s.book.allOrders, o.Alive)
      (ha : a.Alive) : ∀ o ∈ (Config.settle s a).book.allOrders, o.Alive := by
    intro o hmem
    rcases mem_settle hmem with hmem | ⟨rfl, -⟩
    · exact hbook o hmem
    · exact ha
  cases hm with
  | @filled s a K r hq =>
    rw [Config.settle_filled s hq hs]
    exact ⟨halive, fun x hx ↦ hactive x (List.mem_cons_of_mem _ hx), htrades⟩
  | @uncrossed s a K r p hq =>
    have ha : a.Alive := ⟨hq, hactive a List.mem_cons_self⟩
    exact ⟨hsettle halive ha, fun x hx ↦ hactive x (List.mem_cons_of_mem _ hx), htrades⟩
  | @unopposed s a K r hq =>
    have ha : a.Alive := ⟨hq, hactive a List.mem_cons_self⟩
    exact ⟨hsettle halive ha, fun x hx ↦ hactive x (List.mem_cons_of_mem _ hx), htrades⟩
  | exhausted => exact ⟨halive, fun x hx ↦ hactive x (List.mem_cons_of_mem _ hx), htrades⟩
  | @fill s a passive K r p key book book' q hq hb ht hp hqq hset =>
    obtain ⟨rfl, rfl, ⟨rest, hrest⟩, -⟩ := ho.distinct.of_pickPassive hp
    have hmem := (ReferenceBook.mem_of_head hrest).1
    have hpassive := halive passive hmem
    constructor
    · intro o hmem'
      rw [evaluate_book] at hmem'
      rcases List.mem_append.mp
        ((ho.distinct.filled hmem hset).perm.mem_iff.mp hmem') with hmem' | hmem'
      · exact alive_leftAfter hpassive hmem'
      · exact halive o (List.mem_filter.mp hmem').1
    · intro x hx
      rcases List.mem_cons.mp (Config.matching_evaluate hx) with he | hx
      · obtain rfl := Frame.matching.inj he
        exact hactive a List.mem_cons_self
      · exact hactive x (List.mem_cons_of_mem _ hx)
    · intro t hmem'
      rw [evaluate_result] at hmem'
      rcases List.mem_append.mp hmem' with hmem' | hmem'
      · exact htrades t hmem'
      · obtain rfl := List.mem_singleton.mp hmem'
        change q > 0
        rw [hqq]
        exact UInt64.min_pos hq hpassive.1
  | evaluated => exact ⟨halive, fun x hx ↦ hactive x (List.mem_cons_of_mem _ hx), htrades⟩
  | @triggered s p stop working K r =>
    refine ⟨halive, fun x hx ↦ ?_, htrades⟩
    rcases List.mem_cons.mp hx with he | hx
    · obtain rfl := Frame.matching.inj he
      rfl
    · rcases List.mem_cons.mp hx with he | hx
      · exact absurd he (by simp)
      · exact hactive x (List.mem_cons_of_mem _ hx)
  | @kept s p stop working K r =>
    refine ⟨halive, fun x hx ↦ ?_, htrades⟩
    rcases List.mem_cons.mp hx with he | hx
    · exact absurd he (by simp)
    · exact hactive x (List.mem_cons_of_mem _ hx)

/-- Every event but a modify starts thriving. -/
theorem thriving_start {t : Engine ReferenceBook} {e : OrderEvent} (hm : NoModify e)
    (h : ∀ o ∈ t.book.allOrders, o.Alive) : Thriving (.start t e) := by
  constructor
  · intro o ho
    exact h o (resting_start hm ho)
  · intro a ha
    exact matching_start ha
  · intro tr htr
    rw [start_trades] at htr
    exact absurd htr List.not_mem_nil

/-! ### Peaks that suffice -/

/-- An incoming iceberg with a reserve cannot meet as much as its peak. -/
def Scene.SparesPeak (z : Scene) (woken : OrderId → Bool) : Prop :=
  z.Closed woken ∧ ∀ a ∈ z.incoming, a.type = .iceberg → a.reserveQty = 0 ∨
    z.reach woken a.side.opposite (Config.trades a) < a.quantity.toNat

instance (z : Scene) (woken : OrderId → Bool) : Decidable (z.SparesPeak woken) :=
  inferInstanceAs (Decidable (_ ∧ _))

/-- A cancel, or a new order or a replacement that is no iceberg with a reserve that can meet as
much as its peak. -/
def SparesWith (woken : OrderId → Bool) (s : Engine (OrderBook PriceLevel)) : OrderEvent → Prop
  | .newOrder e => (sceneOf OrderBook.storedOrders s e.order).SparesPeak woken
  | .replaceOrder e => hasOrder s.book e.oldOrderId = true →
      (sceneOf OrderBook.storedOrders { s with book := cancelOrder s.book e.oldOrderId }
        e.newOrder).SparesPeak woken
  | .cancelOrder _ => True
  | .modifyOrder _ => False

instance (woken : OrderId → Bool) (s : Engine (OrderBook PriceLevel)) :
    DecidablePred (SparesWith woken s)
  | .newOrder _ => inferInstanceAs (Decidable (Scene.SparesPeak _ _))
  | .replaceOrder _ => inferInstanceAs (Decidable (_ → _))
  | .cancelOrder _ => .isTrue trivial
  | .modifyOrder _ => .isFalse id

/-- This is so for some set of stops that holds all that the event may trigger. -/
def SparesPeak (s : Engine (OrderBook PriceLevel)) (e : OrderEvent) : Prop :=
  ∃ woken, SparesWith woken s e

theorem SparesPeak.noModify {s : Engine (OrderBook PriceLevel)} {e : OrderEvent}
    (h : SparesPeak s e) : NoModify e := by
  obtain ⟨woken, h⟩ := h
  cases e with
  | modifyOrder => exact h
  | newOrder | cancelOrder | replaceOrder => trivial

/-- No active iceberg with a reserve can meet as much as it shows. -/
def Config.Spares (woken : OrderId → Bool) (c : Config ReferenceBook) : Prop :=
  ∀ a, .matching a ∈ c.stack → a.type = .iceberg → a.reserveQty = 0 ∨
    c.reach woken a.side.opposite (Config.trades a) < a.quantity.toNat

private theorem Config.Spares.not_spent {woken : OrderId → Bool} {c : Config ReferenceBook}
    (h : c.Spares woken) : ¬c.Spent := by
  rcases c with ⟨s, _ | ⟨_ | _, K⟩, r⟩
  · exact id
  · rintro ⟨ht, hq, hr⟩
    rcases h _ List.mem_cons_self ht with h0 | hlt
    · rw [h0] at hr
      exact absurd hr (by decide)
    · rw [hq] at hlt
      exact absurd hlt (Nat.not_lt_zero _)
  · exact id

/-- A fill takes as much from what can be met as from the iceberg. -/
private theorem Confined.spares {z : Scene} {woken : OrderId → Bool} {c d : Config ReferenceBook}
    (hd : c.engine.book.Distinct) (h : Confined z woken c) (hc : c.Spares woken)
    (hm : Config.Moves c d) : d.Spares woken := by
  have hreach := h.reach_le hd hm
  have hkeep {a : Order} (hmem : .matching a ∈ c.stack) (ht : a.type = .iceberg) :
      a.reserveQty = 0 ∨
        d.reach woken a.side.opposite (Config.trades a) < a.quantity.toNat :=
    (hc a hmem ht).imp_right (hreach _ _).trans_lt
  intro a hmem ht
  cases hm with
  | filled | uncrossed | exhausted | unopposed | evaluated =>
    exact hkeep (List.mem_cons_of_mem _ hmem) ht
  | @fill s b passive K r p key book book' q hqb hb htr hp hq hs =>
    obtain ⟨rfl, rfl, ⟨rest, hrest⟩, hbest⟩ := hd.of_pickPassive hp
    obtain rfl := Option.some.inj (hb.symm.trans hbest)
    rcases List.mem_cons.mp (Config.matching_evaluate hmem) with he | hmem
    · obtain rfl := Frame.matching.inj he
      exact (hc b List.mem_cons_self ht).imp_right fun hlt ↦
        Config.reach_fill_lt (h.awake b List.mem_cons_self) hd hrest hs hq htr hlt
    · exact hkeep (List.mem_cons_of_mem _ hmem) ht
  | @triggered s p stop working K r =>
    rcases List.mem_cons.mp hmem with he | hmem
    · obtain rfl := Frame.matching.inj he
      exact absurd ht (converted_ne_iceberg stop)
    · exact hkeep (List.mem_cons_of_mem _ ((List.mem_cons.mp hmem).resolve_left (by simp))) ht
  | kept => exact hkeep (by simpa using hmem) ht

/-! ### Runs -/

section Run

variable {es : List OrderEvent} {e : OrderEvent} {s : Engine (OrderBook PriceLevel)}
  {t t₀ t' : Engine ReferenceBook} {rs : List MatchResult} {r : MatchResult} {o : Order}

/-- An order that spares its peak keeps the reference engine thriving. -/
private theorem Run.thriving_enter {Ok : Engine ReferenceBook → OrderEvent → Prop}
    (h : Run Ok es t rs)
    (hf : Fresh (es ++ [e])) (hm : NoModify e) (halive : ∀ o ∈ t.book.allOrders, o.Alive)
    (hs : Submits t e t' r) (hstart : Config.start t e = .enter t₀ o [] {})
    {woken : OrderId → Bool} (hz : (sceneOf ReferenceBook.allOrders t₀ o).SparesPeak woken) :
    Thriving ⟨t', [], r⟩ := by
  have hthrives := thriving_start hm halive
  have hend := h.scene_induction hf hs hstart hz.1 (P := fun c ↦ Thriving c ∧ c.Spares woken) ?_
    fun c d ho hc hp hmv ↦ ⟨hp.1.moves ho hp.2.not_spent hmv, hc.spares ho.distinct hp.2 hmv⟩
  · rcases hend with hidle | ⟨-, hend, -⟩
    · rwa [hidle] at hthrives
    · exact hend
  · intro a g ha hs
    rw [hs] at hthrives
    refine ⟨hthrives, fun b hb ht ↦ ?_⟩
    obtain rfl := Frame.matching.inj (List.mem_singleton.mp hb)
    rw [Confined.reach_start woken ha]
    exact hz.2 b (by simp [sceneOf, ha]) ht

/-- A scene of the engine in the reference engine. -/
private theorem Scene.SparesPeak.represented {s : Engine (OrderBook PriceLevel)}
    (hb : Represents s.book t.book) (hp : t.pendingStops = s.pendingStops) {woken : OrderId → Bool}
    (h : (sceneOf OrderBook.storedOrders s o).SparesPeak woken) :
    (sceneOf ReferenceBook.allOrders t o).SparesPeak woken := by
  rw [sceneOf_represented hb hp]
  refine ⟨h.1.perm hb.storedOrders_perm, fun a ha ht ↦ ?_⟩
  rw [← reach_perm hb.storedOrders_perm]
  exact h.2 a ha ht

/-- An event that spares the peaks keeps the reference engine thriving. -/
theorem Refines.thriving {Ok : Engine ReferenceBook → OrderEvent → Prop} (href : Refines es s t)
    (h : Run Ok es t rs) (hf : Fresh (es ++ [e])) (halive : ∀ o ∈ t.book.allOrders, o.Alive)
    (he : SparesPeak s e) (hs : Submits t e t' r) : Thriving ⟨t', [], r⟩ := by
  have hrep := href.tracks.represents
  have hpending : t.pendingStops = s.pendingStops := congrArg Engine.pendingStops href.agree
  have hthrives := thriving_start he.noModify halive
  obtain ⟨woken, hz⟩ := he
  cases e with
  | newOrder e => exact h.thriving_enter hf trivial halive hs rfl (hz.represented hrep hpending)
  | replaceOrder e =>
    have hhas := hrep.hasOrder_eq e.oldOrderId
    by_cases hh : hasOrder t.book e.oldOrderId = true
    · have hbook : Represents (cancelOrder s.book e.oldOrderId) (cancelOrder t.book e.oldOrderId) :=
        hrep.cancelOrder e.oldOrderId
      have hz := Scene.SparesPeak.represented
        (s := { s with book := cancelOrder s.book e.oldOrderId })
        (t := { t with sequence := t.sequence + 1, book := cancelOrder t.book e.oldOrderId }) hbook
        hpending (hz (hhas ▸ hh))
      exact h.thriving_enter hf trivial halive hs (if_pos hh) hz
    · have hstart : Config.start t (.replaceOrder e) =
          ⟨{ t with sequence := t.sequence + 1 }, [], rejected e.oldOrderId .orderNotFound 0⟩ :=
        if_neg hh
      rwa [hs.of_idle (congrArg Config.stack hstart)] at hthrives
  | cancelOrder e => rwa [hs.of_idle rfl] at hthrives
  | modifyOrder e => exact absurd hz id

/-- A fresh run that spares the peaks refines a run of the reference engine in which all orders
are alive and all trades have a quantity. -/
theorem Run.thriving (h : Run SparesPeak es s rs) (hf : Fresh es) :
    ∃ t, Run Anything es t rs ∧ Refines es s t ∧ (∀ o ∈ t.book.allOrders, o.Alive) ∧
      ∀ tr ∈ rs.flatMap MatchResult.trades, tr.quantity > 0 := by
  have hlands {s : Engine (OrderBook PriceLevel)} {e : OrderEvent} (he : SparesPeak s e) :
      Lands s e := .of_keepsPlace (he.noModify.keepsPlace s)
  refine h.refines_induction hlands (P := fun _ t rs ↦ (∀ o ∈ t.book.allOrders, o.Alive) ∧
    ∀ tr ∈ rs.flatMap MatchResult.trades, tr.quantity > 0) ?_ ?_ hf
  · exact ⟨fun o ho ↦ absurd ho List.not_mem_nil, fun tr ht ↦ absurd ht List.not_mem_nil⟩
  · rintro es e s t t' rs r href ht hf he ⟨halive, htrades⟩ hs
    have hthrives := href.thriving ht hf halive he hs
    refine ⟨hthrives.alive, fun tr htr ↦ ?_⟩
    rw [List.flatMap_append, List.flatMap_singleton, List.mem_append] at htr
    rcases htr with htr | htr
    · exact htrades tr htr
    · exact hthrives.trades tr htr

/-- A cancel of an order of the book takes it out, if its status is a resting one. -/
theorem Refines.cancels (h : Refines es s t) {id : OrderId} {o : Order}
    (ho : s.book.findOrder id = some o) (hr : o.isResting = true) (ts : Timestamp) :
    ∃ s', Submits s (.cancelOrder { orderId := id, timestamp := ts }) s'
        (cancelled id o.quantity ts) ∧
      s'.book.findOrder id = none ∧ ∀ side p, ¬s'.book.Live side p id := by
  have hpending : s.pendingStops.find? (·.id == id) = none := by
    rw [List.find?_eq_none]
    intro stop hstop he
    have hmem : stop.converted ∈ s.outstanding [] := List.mem_map_of_mem hstop
    have hnone := (h.tracks.fits _ hmem rfl).1.1
    rw [converted_id, eq_of_beq he] at hnone
    exact absurd (hnone.symm.trans ho) (by simp)
  have hgone : (s.book.cancelOrder id).1.findOrder id = none := by
    rw [OrderBook.findOrder_cancelOrder, if_pos rfl]
  have hfind : findOrder s.book id = some o := ho
  refine ⟨{ s with sequence := s.sequence + 1, book := BookOps.cancelOrder s.book id }, ⟨0, ?_⟩,
    hgone, fun side p hlive ↦ ?_⟩
  · simp only [Engine.submit, Engine.processCancel, hpending, hfind, hr, ↓reduceIte]
    rfl
  · obtain ⟨x, hx, -⟩ := (h.tracks.represents.cancelOrder id).placed hlive
    exact absurd (hgone.symm.trans hx) (by simp)

/-- Every order of the book has a quantity and a resting status, a cancel is confirmed and takes
it out, and every trade had a quantity. -/
structure KeepsAlive (s : Engine (OrderBook PriceLevel)) (rs : List MatchResult) : Prop where
  quantity : ∀ id o, s.book.findOrder id = some o → o.quantity > 0
  resting : ∀ id o, s.book.findOrder id = some o → o.isResting = true
  cancels : ∀ id o, s.book.findOrder id = some o → ∀ ts, ∃ s',
    Submits s (.cancelOrder { orderId := id, timestamp := ts }) s' (cancelled id o.quantity ts) ∧
      s'.book.findOrder id = none ∧ ∀ side p, ¬s'.book.Live side p id
  trades : ∀ tr ∈ rs.flatMap MatchResult.trades, tr.quantity > 0

/-- In a fresh run of new orders, replacements and cancels in which no iceberg with a reserve can
meet as much as its peak on arrival, resting orders are alive. -/
theorem resting_orders_alive (h : Run SparesPeak es s rs) (hf : Fresh es) : KeepsAlive s rs := by
  obtain ⟨t, -, href, halive, htrades⟩ := h.thriving hf
  have hresting {id : OrderId} {o : Order} (ho : s.book.findOrder id = some o) : o.Alive := by
    rw [href.tracks.represents.find] at ho
    exact halive o (ReferenceBook.mem_of_findOrder ho).1
  constructor
  · exact fun id o ho ↦ (hresting ho).1
  · exact fun id o ho ↦ (hresting ho).2
  · exact fun id o ho ts ↦ href.cancels ho (hresting ho).2 ts
  · exact htrades

end Run

/-- Iceberg 2 trades part of its peak on arrival and rests; order 3 takes the rest of the peak and
part of the next. -/
private def peakInParts : List OrderEvent :=
  [.newOrder ⟨{ id := 1, side := .sell, price := 100, quantity := 6 }⟩,
    .newOrder ⟨{ id := 2, type := .iceberg, price := 100, quantity := 30, peakQty := 10 }⟩,
    .newOrder ⟨{ id := 3, side := .sell, price := 100, quantity := 7 }⟩]

theorem resting_orders_alive_peak_in_parts : ∃ (s : Engine (OrderBook PriceLevel))
    (rs : List MatchResult), Run SparesPeak peakInParts s rs ∧
      (rs.flatMap MatchResult.trades).map Trade.quantity = [6, 4, 3] ∧ KeepsAlive s rs := by
  obtain ⟨s, rs, hrun, hq⟩ := Run.exists_of_play (B := OrderBook PriceLevel)
    (SparesWith fun _ ↦ true) 50 peakInParts
    (fun _ rs ↦ (rs.flatMap MatchResult.trades).map Trade.quantity = [6, 4, 3]) (by decide +kernel)
  have hspares : Run SparesPeak peakInParts s rs := hrun.mono fun _ _ h ↦ ⟨_, h⟩
  exact ⟨s, rs, hspares, hq, resting_orders_alive hspares (by decide)⟩

/-- Iceberg 2 trades its whole peak on arrival. -/
private def peakAtOnce : List OrderEvent :=
  [.newOrder ⟨{ id := 1, side := .sell, price := 100, quantity := 10 }⟩,
    .newOrder ⟨{ id := 2, type := .iceberg, price := 100, quantity := 30, peakQty := 10 }⟩]

/-- An iceberg comes to rest with quantity zero. -/
theorem resting_order_not_alive : ¬∀ (es : List OrderEvent) (s : Engine (OrderBook PriceLevel))
    (rs : List MatchResult), Run Anything es s rs → Fresh es → (∀ e ∈ es, NoModify e ∧
      ∀ o ∈ e.orders, o.quantity > 0 ∧
        (o.type = .iceberg → 0 < o.peakQty ∧ o.peakQty ≤ o.quantity)) →
      KeepsAlive s rs := by
  intro hall
  obtain ⟨s, rs, hrun, o, ho, hq⟩ := Run.exists_of_play (B := OrderBook PriceLevel) Anything 50
    peakAtOnce (fun s _ ↦ ∃ o ∈ s.book.findOrder 2, o.quantity = 0) (by decide +kernel)
  have hpos := (hall _ _ _ hrun (by decide) (by decide)).quantity 2 o ho
  rw [hq] at hpos
  exact absurd hpos (by decide)

end LobEngine
