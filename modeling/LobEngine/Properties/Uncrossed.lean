import LobEngine.Properties.WellFormed

/-!
# The book is never crossed

Without icebergs and modifies an order comes to rest only in the iteration of its match loop
that finds no opposite level to trade at, so resting it cannot cross the book, however many
other loops are active.
-/

namespace LobEngine

open BookOps Engine Stepper

/-- Every bid is below every ask. -/
def Uncrossed (b : ReferenceBook) : Prop :=
  ∀ o ∈ b.allOrders, ∀ x ∈ b.allOrders, o.side = .buy → x.side = .sell → o.price < x.price

/-- Resting an order that crosses no opposite order. -/
theorem Uncrossed.insertOrder {b : ReferenceBook} (h : Uncrossed b) {a : Order}
    (ha : ∀ x ∈ b.allOrders, x.side = a.side.opposite → a.crosses x.price = false) :
    Uncrossed (b.insertOrder a) := by
  intro o ho x hx hbuy hsell
  rcases ReferenceBook.mem_insertOrder.mp ho with rfl | ho'
  · rcases ReferenceBook.mem_insertOrder.mp hx with rfl | hx'
    · rw [hbuy] at hsell
      exact absurd hsell (by decide)
    · have hc := ha x hx' (by rw [hsell, hbuy]; rfl)
      rw [Order.crosses_buy hbuy, decide_eq_false_iff_not] at hc
      exact lt_of_not_ge hc
  · rcases ReferenceBook.mem_insertOrder.mp hx with rfl | hx'
    · have hc := ha o ho' (by rw [hsell, hbuy]; rfl)
      rw [Order.crosses_sell hsell, decide_eq_false_iff_not] at hc
      exact lt_of_not_ge hc
    · exact h o ho' x hx' hbuy hsell

theorem Uncrossed.of_places {b b' : ReferenceBook} (h : Uncrossed b)
    (hp : ∀ x ∈ b'.allOrders, ∃ y ∈ b.allOrders, x.side = y.side ∧ x.price = y.price) :
    Uncrossed b' := by
  intro o ho x hx hbuy hsell
  obtain ⟨o', ho', hs, hpr⟩ := hp o ho
  obtain ⟨x', hx', hs', hpr'⟩ := hp x hx
  rw [hpr, hpr']
  exact h o' ho' x' hx' (hs ▸ hbuy) (hs' ▸ hsell)

/-- No order of the kind that can rest without having been matched. -/
def NoIceberg : OrderEvent → Prop
  | .newOrder e => e.order.type ≠ .iceberg
  | .replaceOrder e => e.newOrder.type ≠ .iceberg
  | .cancelOrder _ => True
  | .modifyOrder _ => False

instance : DecidablePred NoIceberg
  | .newOrder e => inferInstanceAs (Decidable (e.order.type ≠ .iceberg))
  | .replaceOrder e => inferInstanceAs (Decidable (e.newOrder.type ≠ .iceberg))
  | .cancelOrder _ => .isTrue trivial
  | .modifyOrder _ => .isFalse fun h ↦ h

/-- The invariant of the machine: the book is uncrossed and no active order is an iceberg. -/
structure Calm (c : Config ReferenceBook) : Prop where
  uncrossed : Uncrossed c.engine.book
  plain : ∀ a, .matching a ∈ c.stack → a.type ≠ .iceberg

namespace Calm

variable {s : Engine ReferenceBook} {K : List Frame} {r : MatchResult} {a : Order}

/-- Leaving a match loop. -/
theorem settle (h : Calm ⟨s, .matching a :: K, r⟩)
    (ha : a.quantity > 0 → ∀ x ∈ s.book.allOrders, x.side = a.side.opposite →
      a.crosses x.price = false) : Calm ⟨Config.settle s a, K, r⟩ := by
  have hplain := h.plain a List.mem_cons_self
  refine ⟨?_, fun x hx ↦ h.plain x (List.mem_cons_of_mem _ hx)⟩
  rw [Config.settle]
  split
  · split
    · next hq => exact h.uncrossed.insertOrder (ha hq)
    · exact h.uncrossed
  · next ht => exact absurd ht hplain
  · exact h.uncrossed

theorem evaluate {c : Config ReferenceBook} (h : Calm c) : Calm (.evaluate c) := by
  rw [Config.evaluate]
  split
  · exact h
  · split
    · exact h
    · refine ⟨h.uncrossed, fun x hx ↦ ?_⟩
      rcases List.mem_cons.mp hx with hx | hx
      · exact absurd hx (by simp)
      · exact h.plain x hx

/-- Starting a match loop. -/
theorem matching (hu : Uncrossed s.book) (ha : a.type ≠ .iceberg)
    (hK : ∀ x, .matching x ∈ K → x.type ≠ .iceberg) : Calm ⟨s, .matching a :: K, r⟩ := by
  refine ⟨hu, fun x hx ↦ ?_⟩
  rcases List.mem_cons.mp hx with hx | hx
  · obtain rfl := Frame.matching.inj hx
    exact ha
  · exact hK x hx

theorem enterConverted (hu : Uncrossed s.book)
    (hK : ∀ x, .matching x ∈ K → x.type ≠ .iceberg) : Calm (.enterConverted s a K r) := by
  refine matching (s := s.log _) hu ?_ hK
  rcases converted_type a with ht | ht <;> simp [ht]

/-- Every move keeps the machine calm. -/
theorem moves {U : OrderId → Prop} {c d : Config ReferenceBook} (ho : Orderly U c) (h : Calm c)
    (hm : Config.Moves c d) : Calm d := by
  cases hm with
  | @filled s a K r ha =>
    have h0 : (markFilled a).quantity = 0 := (markFilled_quantity a).trans ha
    have h' : Calm ⟨s, .matching (markFilled a) :: K, r⟩ :=
      matching h.uncrossed (by rw [markFilled_type]; exact h.plain a List.mem_cons_self)
        fun x hx ↦ h.plain x (List.mem_cons_of_mem _ hx)
    refine h'.settle fun hq ↦ ?_
    rw [h0] at hq
    exact absurd hq (by decide)
  | @uncrossed s a K r p ha hb ht =>
    refine h.settle fun _ x hx hs ↦ ?_
    obtain ⟨o, rest, horders, rfl⟩ := ReferenceBook.exists_best hb
    have hcross : a.crosses o.price = false := by
      rw [Config.trades, Bool.or_eq_false_iff] at ht
      exact ht.2
    exact Order.crosses_of_behind hcross
      (ReferenceBook.best_le horders (ReferenceBook.mem_orders.mpr ⟨hx, hs⟩))
  | @exhausted s a K r ha hb ht =>
    exact ⟨h.uncrossed, fun x hx ↦ h.plain x (List.mem_cons_of_mem _ hx)⟩
  | @unopposed s a K r ha hb ht =>
    refine h.settle fun _ x hx hs ↦ ?_
    exact absurd ⟨hx, hs⟩ (ReferenceBook.not_mem_of_bestPrice_none hb x)
  | @fill s a passive K r p key book book' q ha hb ht hp hq hs =>
    obtain ⟨rfl, rfl, ⟨rest, hrest⟩, -⟩ := ho.distinct.of_pickPassive hp
    have hmem := (ReferenceBook.mem_of_head hrest).1
    have hf := ho.distinct.filled hmem hs
    have hplain : ({ a with quantity := a.quantity - q } : Order).type ≠ .iceberg :=
      h.plain a List.mem_cons_self
    refine evaluate (matching (s := { s with book := book' }.log _) ?_ hplain
      fun x hx ↦ h.plain x (List.mem_cons_of_mem _ hx))
    exact h.uncrossed.of_places fun x hx ↦ by
      obtain ⟨y, hy, hxy⟩ := hf.descends hmem hx
      exact ⟨y, hy, hxy.side_eq, hxy.price_eq⟩
  | evaluated => exact ⟨h.uncrossed, fun x hx ↦ h.plain x (List.mem_cons_of_mem _ hx)⟩
  | @triggered s p stop working K r ht =>
    refine enterConverted h.uncrossed fun x hx ↦ ?_
    rcases List.mem_cons.mp hx with hx | hx
    · exact absurd hx (by simp)
    · exact h.plain x (List.mem_cons_of_mem _ hx)
  | @kept s p stop working K r ht =>
    refine ⟨h.uncrossed, fun x hx ↦ ?_⟩
    rcases List.mem_cons.mp hx with hx | hx
    · exact absurd hx (by simp)
    · exact h.plain x (List.mem_cons_of_mem _ hx)

/-- Submitting an order that is no iceberg. -/
theorem enter {o : Order} (hu : Uncrossed s.book) (ho : o.type ≠ .iceberg) :
    Calm (.enter s o [] r) := by
  have hnil : ∀ x, Frame.matching x ∈ ([] : List Frame) → x.type ≠ .iceberg :=
    fun x hx ↦ absurd hx List.not_mem_nil
  simp only [Config.enter]
  split
  · exact matching hu ho hnil
  · exact matching hu ho hnil
  · next ht => exact absurd ht ho
  · split
    · exact enterConverted hu hnil
    · exact ⟨hu, hnil⟩
  · split
    · exact enterConverted hu hnil
    · exact ⟨hu, hnil⟩

end Calm

/-- The reference book is uncrossed after every event. -/
theorem Run.uncrossed {es : List OrderEvent} {t : Engine ReferenceBook} {rs : List MatchResult}
    (h : Run (fun _ ↦ NoIceberg) es t rs) (hf : Fresh es) : Uncrossed t.book := by
  induction h with
  | nil => exact fun o ho ↦ absurd ho List.not_mem_nil
  | @snoc es e t t' rs r hrun hok hs ih =>
    refine (hrun.submit_induction hf hs (fun _ ↦ ?_) fun _ _ ho h hm ↦ Calm.moves ho h hm).uncrossed
    have hu := ih hf.left
    have hidle (s : Engine ReferenceBook) (res : MatchResult) (hu : Uncrossed s.book) :
        Calm ⟨s, [], res⟩ := ⟨hu, fun x hx ↦ absurd hx List.not_mem_nil⟩
    have hcancel (id : OrderId) : Uncrossed (t.book.cancelOrder id) :=
      hu.of_places fun x hx ↦ ⟨x, (ReferenceBook.mem_cancelOrder.mp hx).1, rfl, rfl⟩
    cases e with
    | newOrder e => exact Calm.enter (s := { t with sequence := t.sequence + 1 }) hu hok
    | modifyOrder e => exact absurd hok id
    | cancelOrder e =>
      refine hidle _ _ ?_
      rw [Engine.processCancel]
      split
      · exact hu
      · split
        · exact hu
        · split
          · exact hcancel e.orderId
          · exact hu
    | replaceOrder e =>
      simp only [Config.start]
      split
      · exact Calm.enter (s := { t with book := cancelOrder t.book e.oldOrderId
                                        sequence := t.sequence + 1 }) (hcancel e.oldOrderId) hok
      · exact hidle _ _ hu

theorem NoIceberg.lands {L : Type} [PriceLevelOps L] [LawfulPriceLevel L]
    (s : Engine (OrderBook L)) {e : OrderEvent} (h : NoIceberg e) : Lands s e := by
  cases e with
  | modifyOrder e => exact absurd h id
  | newOrder _ | cancelOrder _ | replaceOrder _ => trivial

/-- Without icebergs and modifies the best bid is below the best ask after every event. -/
theorem run_best_bid_lt_best_ask {es : List OrderEvent} {s : Engine (OrderBook PriceLevel)}
    {rs : List MatchResult} (h : Run (fun _ ↦ NoIceberg) es s rs) (hf : Fresh es)
    {bid ask : Price} (hbid : s.book.bestBid = some bid) (hask : s.book.bestAsk = some ask) :
    bid < ask := by
  obtain ⟨t, ht, href⟩ := h.refines (E := NoIceberg) (fun _ hk ↦ NoIceberg.lands _ hk)
    (fun hk ↦ hk) hf
  have hrep := href.tracks.represents
  obtain ⟨⟨id, o, ho, hside, rfl⟩, -⟩ := (hrep.wellFormed.bestBid bid).mp hbid
  obtain ⟨⟨id', x, hx, hside', rfl⟩, -⟩ := (hrep.wellFormed.bestAsk ask).mp hask
  rw [hrep.find] at ho hx
  exact ht.uncrossed hf o (ReferenceBook.mem_of_findOrder ho).1 x
    (ReferenceBook.mem_of_findOrder hx).1 hside hside'

/-- Stop-limit 4, triggered by the first fill of order 5, rests a bid in the middle of the
match loop of order 5. -/
private def restsMidLoop : List OrderEvent :=
  [.newOrder ⟨{ id := 1, side := .sell, price := 100, quantity := 5 }⟩,
    .newOrder ⟨{ id := 2, side := .sell, price := 102, quantity := 5 }⟩,
    .newOrder ⟨{ id := 4, type := .stopLimit, price := 99, stopPrice := 100, quantity := 3 }⟩,
    .newOrder ⟨{ id := 5, price := 101, quantity := 8 }⟩]

theorem run_best_bid_lt_best_ask_mid_loop : ∃ s : Engine (OrderBook PriceLevel),
    (s.book.bestBid = some 101 ∧ s.book.bestAsk = some 102 ∧
      s.book.orderIds .buy 99 = [4]) ∧ (101 : Price) < 102 := by
  obtain ⟨s, rs, hrun, hs⟩ := Run.exists_of_play (B := OrderBook PriceLevel) (fun _ ↦ NoIceberg) 50
    restsMidLoop (fun s _ ↦ s.book.bestBid = some 101 ∧ s.book.bestAsk = some 102 ∧
      s.book.orderIds .buy 99 = [4]) (by decide +kernel)
  exact ⟨s, hs, run_best_bid_lt_best_ask hrun (by decide) hs.1 hs.2.1⟩

end LobEngine
