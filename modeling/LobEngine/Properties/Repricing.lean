import LobEngine.Engine.Run

/-!
# Modifies that change the price

A modify moves an order to its new price without matching it. Whether the book is crossed
afterwards depends on the new price and the best opposite price alone.
-/

namespace LobEngine

open PriceLevelOps BookOps Engine

namespace OrderBook

variable {L : Type}

/-- No bid at or above an ask: invariant 4 of `docs/testing.md:120–129`. -/
def NotCrossed [PriceLevelOps L] (b : OrderBook L) : Prop :=
  ∀ bid ask, b.bestBid = some bid → b.bestAsk = some ask → bid < ask

/-- A price of a side does not reach the best price of the other side. -/
def ClearOf [PriceLevelOps L] (b : OrderBook L) : Side → Price → Prop
  | .buy, p => ∀ ask, b.bestAsk = some ask → p < ask
  | .sell, p => ∀ bid, b.bestBid = some bid → bid < p

instance [PriceLevelOps L] (b : OrderBook L) : Decidable b.NotCrossed :=
  match hb : b.bestBid, ha : b.bestAsk with
  | some bid, some ask => decidable_of_iff (bid < ask) (by simp [NotCrossed, hb, ha])
  | none, _ => .isTrue (by simp [NotCrossed, hb])
  | _, none => .isTrue (by simp [NotCrossed, ha])

/-- There is a level. -/
private theorem mem_levels {b : OrderBook L} {side : Side} {p : Price} :
    p ∈ b.levels side ↔ (b.getLevel side p).isSome = true :=
  Std.ExtTreeMap.mem_iff_isSome_getElem?

/-- A side with a level has a best price, which is no worse. -/
theorem exists_best {b : OrderBook L} {side : Side} {p : Price} (h : p ∈ b.levels side) :
    ∃ q, (b.bestLevel side).map Prod.fst = some q ∧ (side.cmp q p).isLE = true := by
  cases hb : (b.bestLevel side).map Prod.fst with
  | none =>
    rw [Option.map_eq_none_iff, bestLevel, Std.ExtTreeMap.first?_eq_none_iff] at hb
    rw [Std.ExtTreeMap.mem_iff_isSome_getElem?, hb p] at h
    exact absurd h (by simp)
  | some q => exact ⟨q, rfl, (best_iff.mp hb).2 p h⟩

variable [PriceLevelOps L]

/-- A book is not crossed exactly where every bid level is below every ask level. -/
theorem notCrossed_iff {b : OrderBook L} :
    b.NotCrossed ↔ ∀ p ∈ b.levels .buy, ∀ q ∈ b.levels .sell, p < q := by
  constructor
  · intro h p hp q hq
    obtain ⟨bid, hbid, hle⟩ := exists_best hp
    obtain ⟨ask, hask, hle'⟩ := exists_best hq
    have hpb : p ≤ bid := Std.isLE_compare.mp hle
    have hqa : ask ≤ q := Std.isLE_compare.mp hle'
    exact (hpb.trans_lt (h bid ask hbid hask)).trans_le hqa
  · intro h bid ask hbid hask
    exact h bid (best_iff.mp hbid).1 ask (best_iff.mp hask).1

/-- A price is clear of the best opposite price exactly where it is clear of all of them. -/
private theorem clearOf_iff {b : OrderBook L} {side : Side} {p : Price} :
    b.ClearOf side p ↔
      ∀ q ∈ b.levels side.opposite, match side with | .buy => p < q | .sell => q < p := by
  cases side with
  | buy =>
    constructor
    · intro h q hq
      obtain ⟨ask, hask, hle⟩ := exists_best hq
      have hqa : ask ≤ q := Std.isLE_compare.mp hle
      exact (h ask hask).trans_le hqa
    · intro h ask hask
      exact h ask (best_iff.mp hask).1
  | sell =>
    constructor
    · intro h q hq
      obtain ⟨bid, hbid, hle⟩ := exists_best hq
      have hqb : q ≤ bid := Std.isLE_compare.mp hle
      exact hqb.trans_lt (h bid hbid)
    · intro h bid hbid
      exact h bid (best_iff.mp hbid).1

/-- `insert_order` makes a level for its order and keeps the others. -/
private theorem mem_levels_insertOrder {b : OrderBook L} {o : Order} {side : Side} {p : Price} :
    p ∈ (b.insertOrder o).levels side ↔ o.side = side ∧ o.price = p ∨ p ∈ b.levels side := by
  rw [mem_levels, mem_levels, insertOrder, getLevel_setLevel]
  by_cases h : o.side = side ∧ o.price = p
  · simp [h]
  · rw [if_neg h, getLevel_storeOrder]
    simp [h]

/-- `cancel_order` can only erase levels. -/
private theorem mem_levels_of_cancelOrder {b : OrderBook L} {id : OrderId} {side : Side} {p : Price}
    (h : p ∈ (b.cancelOrder id).1.levels side) : p ∈ b.levels side := by
  rw [mem_levels] at h ⊢
  cases ho : b.findOrder id with
  | none =>
    rw [findOrder] at ho
    rwa [cancelOrder, ho] at h
  | some o =>
    cases hg : b.getLevel o.side o.price with
    | none =>
      rw [findOrder] at ho
      simp only [cancelOrder, ho, hg] at h
      cases side <;> exact h
    | some l =>
      rw [getLevel_cancelOrder ho hg rfl] at h
      by_cases hp : o.side = side ∧ o.price = p
      · rw [← hp.1, ← hp.2, hg]
        rfl
      · rwa [if_neg hp] at h

/-- `cancel_order` erases no level of the other side. -/
private theorem mem_levels_cancelOrder_opposite {b : OrderBook L} {id : OrderId} {o : Order}
    {p : Price} (ho : b.findOrder id = some o) :
    p ∈ (b.cancelOrder id).1.levels o.side.opposite ↔ p ∈ b.levels o.side.opposite := by
  rw [mem_levels, mem_levels]
  cases hg : b.getLevel o.side o.price with
  | none =>
    rw [findOrder] at ho
    simp only [cancelOrder, ho, hg]
    cases o.side <;> rfl
  | some l =>
    rw [getLevel_cancelOrder ho hg rfl, if_neg fun hp ↦ Side.opposite_ne o.side hp.1.symm]

end OrderBook

/-- The two sides of a book that a modify leaves. -/
private theorem notCrossed_requeue_iff {L : Type} [PriceLevelOps L] {b : OrderBook L}
    {e : ModifyOrderEvent} {o : Order} (hu : b.NotCrossed) (ho : b.findOrder e.orderId = some o) :
    (OrderBook.insertOrder (b.cancelOrder e.orderId).1 (modified e o)).NotCrossed ↔
      b.ClearOf o.side (modified e o).price := by
  have hopp {p : Price} : p ∈ (b.cancelOrder e.orderId).1.levels o.side.opposite ↔
      p ∈ b.levels o.side.opposite :=
    OrderBook.mem_levels_cancelOrder_opposite ho
  have hside : (modified e o).side = o.side := rfl
  rw [OrderBook.notCrossed_iff] at hu ⊢
  rw [OrderBook.clearOf_iff]
  simp only [OrderBook.mem_levels_insertOrder, hside]
  cases hs : o.side with
  | buy =>
    rw [hs] at hopp
    simp only [true_and, reduceCtorEq, false_and, false_or]
    constructor
    · intro h q hq
      exact h _ (.inl rfl) q (hopp.mpr hq)
    · rintro h p (rfl | hp) q hq
      · exact h q (hopp.mp hq)
      · exact hu p (OrderBook.mem_levels_of_cancelOrder hp) q (hopp.mp hq)
  | sell =>
    rw [hs] at hopp
    simp only [true_and, reduceCtorEq, false_and, false_or]
    constructor
    · intro h q hq
      exact h q (hopp.mpr hq) _ (.inl rfl)
    · rintro h p hp q (rfl | hq)
      · exact h p (hopp.mp hp)
      · exact hu p (hopp.mp hp) q (OrderBook.mem_levels_of_cancelOrder hq)

/-- Where the price of a resting order changes, the modify inserts the order at the new price. -/
private theorem processModify_of_newPrice {B : Type} [BookOps B] {s : Engine B}
    {e : ModifyOrderEvent}
    {o : Order} (ho : findOrder s.book e.orderId = some o) (hr : o.isResting = true)
    (hp : e.newPrice ≠ 0) (hne : e.newPrice ≠ o.price) : s.processModify e =
      ({ s with book := insertOrder (cancelOrder s.book e.orderId) (modified e o) }, {}) := by
  have hq : requeues e o = true := by simp [requeues, hp, hne]
  simp only [processModify, ho, hr, hq, ↓reduceIte]

/-- In every run that ends with a modify: if the book was not crossed and the modify changes the
price of a resting limit order, then the book is not crossed afterwards exactly where the new
price is clear of the best price of the other side. -/
theorem modify_notCrossed_iff {es : List OrderEvent} {e : ModifyOrderEvent}
    {s' : Engine (OrderBook PriceLevel)} {rs : List MatchResult}
    (h : Run Anything (es ++ [.modifyOrder e]) s' rs) :
    ∃ (s : Engine (OrderBook PriceLevel)) (rs₀ : List MatchResult), Run Anything es s rs₀ ∧
      (s.book.NotCrossed → ∀ o : Order, s.book.findOrder e.orderId = some o →
      o.isResting = true → o.type = .limit →
      e.newPrice ≠ 0 → e.newPrice ≠ o.price →
      (s'.book.NotCrossed ↔ s.book.ClearOf o.side e.newPrice)) := by
  generalize hes : es ++ [.modifyOrder e] = fs at h
  cases h with
  | nil => exact absurd hes (by simp)
  | @snoc _ _ s _ rs₀ r hrun _ hs =>
    obtain ⟨rfl, he⟩ := List.append_inj' hes rfl
    obtain rfl := List.singleton_inj.mp he
    refine ⟨s, rs₀, hrun, fun hu o ho hr _ hp hne ↦ ?_⟩
    have hend := hs.of_idle rfl
    have hmodify := processModify_of_newPrice (s := { s with sequence := s.sequence + 1 })
      ho hr hp hne
    simp only [Config.start, hmodify, Config.mk.injEq] at hend
    have hprice : (modified e o).price = e.newPrice := by simp [modified, hp]
    rw [← hend.1, ← hprice]
    exact notCrossed_requeue_iff hu ho

/-- A sell of 5 at 100 and a buy of 5 at 90. -/
private def quotes : List OrderEvent :=
  [.newOrder ⟨{ id := 1, side := .sell, price := 100, quantity := 5 }⟩,
    .newOrder ⟨{ id := 2, price := 90, quantity := 5 }⟩]

/-- What holds of the two quotes: the book is not crossed, and the buy can be repriced to a price
that is clear of the sell. -/
private def Quoted (s : Engine (OrderBook PriceLevel)) : Prop :=
  s.book.NotCrossed ∧ s.book.bestAsk = some 100 ∧
    (s.book.findOrder 2).any (fun o ↦ o.isResting && o.type == .limit && o.side == .buy &&
      o.price == 90) = true

private instance (s : Engine (OrderBook PriceLevel)) : Decidable (Quoted s) :=
  inferInstanceAs (Decidable (_ ∧ _ ∧ _))

private theorem Quoted.order {s : Engine (OrderBook PriceLevel)} (h : Quoted s) :
    ∃ o, s.book.findOrder 2 = some o ∧ o.isResting = true ∧ o.type = .limit ∧ o.side = .buy ∧
      o.price = 90 := by
  obtain ⟨o, ho, hol⟩ := Option.any_eq_true _ _ |>.mp h.2.2
  simp only [Bool.and_eq_true, beq_iff_eq, and_assoc] at hol
  exact ⟨o, ho, hol⟩

/-- Repriced to 99, the buy stays below the sell. -/
theorem modify_notCrossed_iff_clear : ∃ (s' : Engine (OrderBook PriceLevel))
    (rs : List MatchResult),
      Run Anything (quotes ++ [.modifyOrder { orderId := 2, newPrice := 99 }]) s' rs ∧
      s'.book.bestBid = some 99 ∧ s'.book.NotCrossed := by
  obtain ⟨s', rs, hrun, hbid⟩ := Run.exists_of_play (B := OrderBook PriceLevel) Anything 50
    (quotes ++ [.modifyOrder { orderId := 2, newPrice := 99 }])
    (fun s _ ↦ s.book.bestBid = some 99) (by decide +kernel)
  obtain ⟨s₀, rs₁, hrun₁, hquoted⟩ := Run.exists_of_play (B := OrderBook PriceLevel) Anything 50
    quotes (fun s _ ↦ Quoted s) (by decide +kernel)
  obtain ⟨s, rs₀, hrun₀, hiff⟩ := modify_notCrossed_iff hrun
  obtain ⟨rfl, -⟩ := hrun₀.unique hrun₁
  obtain ⟨o, ho, hr, ht, hside, hprice⟩ := hquoted.order
  refine ⟨s', rs, hrun, hbid, (hiff hquoted.1 o ho hr ht (by decide) ?_).mpr ?_⟩
  · rw [hprice]
    decide
  · rw [hside]
    intro ask hask
    obtain rfl := Option.some.inj (hquoted.2.1.symm.trans hask)
    decide

/-- Repriced to 105, the buy rests above the sell and nothing trades. -/
theorem modify_crosses : ∃ (s s' : Engine (OrderBook PriceLevel)) (rs : List MatchResult)
    (o : Order), Fresh (quotes ++ [.modifyOrder { orderId := 2, newPrice := 105 }]) ∧
      Run Anything quotes s rs ∧ s.book.NotCrossed ∧ s.book.findOrder 2 = some o ∧
      o.isResting = true ∧ o.type = .limit ∧ o.price ≠ 105 ∧
      Submits s (.modifyOrder { orderId := 2, newPrice := 105 }) s' {} ∧
      s'.book.bestBid = some 105 ∧ s'.book.bestAsk = some 100 ∧ ¬s'.book.NotCrossed := by
  obtain ⟨s, rs, hrun, hquoted, hsub⟩ := Run.exists_of_play (B := OrderBook PriceLevel) Anything 50
    quotes (fun s _ ↦ Quoted s ∧
      (s.submit 50 (.modifyOrder { orderId := 2, newPrice := 105 })).toOption.any
        (fun a ↦ decide (a.2 = {} ∧ a.1.book.bestBid = some 105 ∧ a.1.book.bestAsk = some 100 ∧
          ¬a.1.book.NotCrossed)) = true) (by decide +kernel)
  obtain ⟨o, ho, hr, ht, -, hprice⟩ := hquoted.order
  obtain ⟨s', r, hs, rfl, hbid, hask, hcross⟩ := Submits.exists_of_submit s _ 50
    (fun s' r ↦ r = {} ∧ s'.book.bestBid = some 105 ∧ s'.book.bestAsk = some 100 ∧
      ¬s'.book.NotCrossed) hsub
  refine ⟨s, s', rs, o, by decide, hrun, hquoted.1, ho, hr, ht, ?_, hs, hbid, hask, hcross⟩
  rw [hprice]
  decide

end LobEngine
