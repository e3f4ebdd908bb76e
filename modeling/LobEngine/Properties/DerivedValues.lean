import LobEngine.Properties.Pushes
import LobEngine.Properties.WellFormed
import LobEngine.Refinement.Sessions

/-!
# Derived prices and volumes

`spread` and `mid_price` add and subtract the best prices, and `push_back` adds to the volume of a
level, all without a check, and nothing bounds the prices and quantities of the orders. The
results stay within 64 bits as long as every submitted order leaves room for it: its price with
the prices of the orders that it may face, its quantity with what can be recorded at its price.
-/

namespace LobEngine

open PriceLevelOps BookOps Engine Stepper

/-- What `spread` and `mid_price` compute from a bid and an ask stays within 64 bits;
`src/book/order_book.cpp:73,81`. -/
def Quotable (bid ask : Price) : Prop := InInt64 (ask - bid) ∧ InInt64 (bid + ask)

instance (bid ask : Price) : Decidable (Quotable bid ask) := inferInstanceAs (Decidable (_ ∧ _))

/-- The derived prices of a book stay within 64 bits. -/
def OrderBook.Quotes (b : OrderBook PriceLevel) : Prop :=
  ∀ bid ask, b.bestBid = some bid → b.bestAsk = some ask → Quotable bid ask

/-- `OrderBook::mid_price`, the sum narrowed to 64 bits; `src/book/order_book.cpp:68–74`. -/
def OrderBook.midPrice (b : OrderBook PriceLevel) : Option Price := do
  let bid ← b.bestBid
  let ask ← b.bestAsk
  return (narrow64 (bid + ask)).tdiv 2

/-- Within the range, the mid price is the middle of the best prices, rounded towards zero. -/
theorem OrderBook.Quotes.midPrice_eq {b : OrderBook PriceLevel} (h : b.Quotes) {bid ask : Price}
    (hbid : b.bestBid = some bid) (hask : b.bestAsk = some ask) :
    b.midPrice = some ((bid + ask).tdiv 2) := by
  have hsum := narrow64_of_inInt64 (h bid ask hbid hask).2
  simp only [midPrice, hbid, hask, bind, Option.bind, hsum, pure]

/-- The published spread is the difference of the published prices, zero if a side is empty. -/
def ExactSpread (e : BookUpdatedEvent) : Prop :=
  narrow64 e.spread = if e.bidLevels = 0 ∨ e.askLevels = 0 then 0 else e.bestAsk - e.bestBid

instance (e : BookUpdatedEvent) : Decidable (ExactSpread e) := inferInstanceAs (Decidable (_ = _))

/-- The book and the next addition of a configuration stay within 64 bits. -/
structure Config.InRange (c : Config (OrderBook PriceLevel)) : Prop where
  quotes : c.engine.book.Quotes
  pushes : ∀ v q, c.Pushes v q → v.toNat + q.toNat < 2 ^ 64

/-! ### The condition -/

namespace Order

/-- If the orders are on opposite sides their prices can be quoted together. -/
def QuotesWith (x y : Order) : Prop :=
  (x.side = .buy → y.side = .sell → Quotable x.price y.price) ∧
    (y.side = .buy → x.side = .sell → Quotable y.price x.price)

/-- The order may come to rest while the other one is in the book: it does not cross it, or it is
an iceberg, which rests with its reserve. -/
def RestsBeside (x y : Order) : Prop := x.type = .iceberg ∨ x.crosses y.price = false

instance (x y : Order) : Decidable (x.QuotesWith y) := inferInstanceAs (Decidable (_ ∧ _))

instance (x y : Order) : Decidable (x.RestsBeside y) := inferInstanceAs (Decidable (_ ∨ _))

end Order

/-- Prices of resting orders, and of those that may come to rest, can be quoted together. -/
structure Compatible (resting coming : List Order) : Prop where
  present : ∀ x ∈ resting, ∀ y ∈ resting, x.QuotesWith y
  future : ∀ x ∈ coming, ∀ y ∈ resting ++ coming, x.RestsBeside y → x.QuotesWith y

/-- The outstanding orders that may come to rest. -/
def Engine.coming {B : Type} (s : Engine B) (K : List Frame) : List Order :=
  (s.outstanding K).filter Order.canRest

/-- If the order can come to rest, its price can be quoted with that of every order beside which
it may rest, and what it may show fits on top of what can be recorded at its price. -/
def HasRoom (s : Engine (OrderBook PriceLevel)) (o : Order) : Prop :=
  o.canRest = true →
    (∀ y ∈ s.book.storedOrders ++ s.coming [], o.RestsBeside y → o.QuotesWith y) ∧
      demandAt s.book s.book.storedOrders (s.outstanding []) o.side o.price + o.demand < 2 ^ 64

instance (s : Engine (OrderBook PriceLevel)) (o : Order) : Decidable (HasRoom s o) :=
  inferInstanceAs (Decidable (_ → _))

/-- The order of a message leaves room in the book of its symbol. -/
def LeavesRoom (m : ExchangeManager) (msg : OrderMessage) : Prop :=
  msg.action = .newOrder → ∀ s ∈ m.engine? msg.symbol, HasRoom s (msg.order 0).entering

instance (m : ExchangeManager) (msg : OrderMessage) : Decidable (LeavesRoom m msg) :=
  inferInstanceAs (Decidable (_ → _))

/-! ### Prices -/

namespace Order

variable {x y x' y' : Order}

theorem QuotesWith.symm (h : x.QuotesWith y) : y.QuotesWith x := And.symm h

/-- Orders on one side are not quoted together. -/
private theorem quotesWith_of_side (h : x.side = y.side) : x.QuotesWith y :=
  ⟨fun hx hy ↦ absurd (hx.symm.trans (h.trans hy)) (by decide),
    fun hy hx ↦ absurd (hy.symm.trans (h.symm.trans hx)) (by decide)⟩

theorem QuotesWith.descend (h : x.QuotesWith y) (hx : x'.Descends x) (hy : y'.Descends y) :
    x'.QuotesWith y' := by
  unfold QuotesWith
  rw [hx.side_eq, hy.side_eq, hx.price_eq, hy.price_eq]
  exact h

private theorem RestsBeside.ascend (h : x'.RestsBeside y') (hx : x'.Descends x)
    (hy : y'.Descends y) : x.RestsBeside y := by
  unfold RestsBeside crosses isBuy isSell at h ⊢
  rw [hx.type_eq, hx.side_eq, hx.price_eq, hy.price_eq] at h
  exact h

/-- Crossing is mutual. -/
private theorem crosses_comm (h : x.side = y.side.opposite) :
    x.crosses y.price = y.crosses x.price := by
  cases hs : y.side with
  | buy =>
    have hx : x.side = .sell := by rw [h, hs]; rfl
    rw [crosses_buy hs, crosses_sell hx]
  | sell =>
    have hx : x.side = .buy := by rw [h, hs]; rfl
    rw [crosses_sell hs, crosses_buy hx]

end Order

namespace Compatible

variable {resting coming resting' coming' : List Order} {a : Order}

theorem descend (h : Compatible resting coming)
    (hr : ∀ x ∈ resting', ∃ y ∈ resting, x.Descends y)
    (hc : ∀ x ∈ coming', ∃ y ∈ coming, x.Descends y) : Compatible resting' coming' where
  present x hx y hy := by
    obtain ⟨x₀, hx₀, hdx⟩ := hr x hx
    obtain ⟨y₀, hy₀, hdy⟩ := hr y hy
    exact (h.present x₀ hx₀ y₀ hy₀).descend hdx hdy
  future x hx y hy hb := by
    obtain ⟨x₀, hx₀, hdx⟩ := hc x hx
    obtain ⟨y₀, hy₀, hdy⟩ : ∃ y₀ ∈ resting ++ coming, y.Descends y₀ := by
      rcases List.mem_append.mp hy with hy | hy
      · obtain ⟨y₀, hy₀, hdy⟩ := hr y hy
        exact ⟨y₀, List.mem_append_left _ hy₀, hdy⟩
      · obtain ⟨y₀, hy₀, hdy⟩ := hc y hy
        exact ⟨y₀, List.mem_append_right _ hy₀, hdy⟩
    exact (h.future x₀ hx₀ y₀ hy₀ (hb.ascend hdx hdy)).descend hdx hdy

/-- An order comes to rest beside the resting ones. -/
theorem rest (h : Compatible resting (a :: coming))
    (hb : ∀ y ∈ resting, y.side = a.side.opposite → a.RestsBeside y)
    (hp : List.Perm resting' (a :: resting)) : Compatible resting' coming := by
  have hjoin (y : Order) (hy : y ∈ resting) : a.QuotesWith y := by
    rcases Side.eq_or_eq_opposite y.side a.side with hs | hs
    · exact Order.quotesWith_of_side hs.symm
    · exact h.future a List.mem_cons_self y (List.mem_append_left _ hy) (hb y hy hs)
  constructor
  · intro x hx y hy
    rcases List.mem_cons.mp (hp.mem_iff.mp hx) with rfl | hx <;>
      rcases List.mem_cons.mp (hp.mem_iff.mp hy) with rfl | hy
    · exact Order.quotesWith_of_side rfl
    · exact hjoin y hy
    · exact (hjoin x hx).symm
    · exact h.present x hx y hy
  · intro x hx y hy hbeside
    refine h.future x (List.mem_cons_of_mem a hx) y ?_ hbeside
    rcases List.mem_append.mp hy with hy | hy
    · rcases List.mem_cons.mp (hp.mem_iff.mp hy) with rfl | hy
      · exact List.mem_append_right _ List.mem_cons_self
      · exact List.mem_append_left _ hy
    · exact List.mem_append_right _ (List.mem_cons_of_mem a hy)

/-- A new order joins those that may come to rest. -/
theorem join (h : Compatible resting coming)
    (ha : ∀ y ∈ resting ++ coming, a.RestsBeside y → a.QuotesWith y)
    (hplain : ∀ y ∈ coming, y.type ≠ .iceberg) : Compatible resting (a :: coming) where
  present := h.present
  future x hx y hy hb := by
    have hother : y = a ∨ y ∈ resting ++ coming := by
      rcases List.mem_append.mp hy with hy | hy
      · exact .inr (List.mem_append_left _ hy)
      · exact (List.mem_cons.mp hy).imp_right (List.mem_append_right _)
    rcases List.mem_cons.mp hx with rfl | hx' <;> rcases hother with rfl | hy'
    · exact Order.quotesWith_of_side rfl
    · exact ha y hy' hb
    · rcases Side.eq_or_eq_opposite x.side y.side with hs | hs
      · exact Order.quotesWith_of_side hs
      · have hcross := hb.resolve_left (hplain x hx')
        rw [Order.crosses_comm hs] at hcross
        exact (ha x (List.mem_append_right _ hx') (.inr hcross)).symm
    · exact h.future x hx' y hy' hb

end Compatible

/-! ### Steps -/

private theorem demandAt_perm (b : OrderBook PriceLevel) {resting resting' outs outs' : List Order}
    (hr : List.Perm resting' resting) (ho : List.Perm outs' outs) (side : Side) (p : Price) :
    demandAt b resting' outs' side p = demandAt b resting outs side p := by
  rw [demandAt, hr.sumOver_eq, ho.sumOver_eq, demandAt]

/-- An outstanding order asks for no more than before. -/
private theorem demandAt_head (b : OrderBook PriceLevel) {a a' : Order} (hd : a'.Descends a)
    (hle : a'.demand ≤ a.demand) (resting outs : List Order) (side : Side) (p : Price) :
    demandAt b resting (a' :: outs) side p ≤ demandAt b resting (a :: outs) side p := by
  have hsame : a'.headsFor side p = a.headsFor side p := by
    simp only [Order.headsFor, Order.canRest, Order.restsAt, hd.type_eq, hd.side_eq, hd.price_eq]
  rw [demandAt, demandAt, List.sumOver_cons, List.sumOver_cons, hsame]
  split <;> omega

private theorem demandAt_tail (b : OrderBook PriceLevel) (resting : List Order) (a : Order)
    (outs : List Order) (side : Side) (p : Price) :
    demandAt b resting outs side p ≤ demandAt b resting (a :: outs) side p := by
  rw [demandAt, demandAt, List.sumOver_cons]
  omega

/-- The invariant of the machine: nothing that the live orders can lead to leaves the range. -/
structure Contained (U : OrderId → Prop) (c : Config (OrderBook PriceLevel)) (r : ReferenceBook) :
    Prop where
  tracks : Tracks true U c.engine.book (c.engine.outstanding c.stack) r
  volumes : ∀ side p,
    demandAt c.engine.book r.allOrders (c.engine.outstanding c.stack) side p < 2 ^ 64
  prices : Compatible r.allOrders (c.engine.coming c.stack)

namespace Contained

variable {U : OrderId → Prop} {c d : Config (OrderBook PriceLevel)} {r r' : ReferenceBook}
  {s : Engine (OrderBook PriceLevel)} {a a' : Order} {K : List Frame} {res res' : MatchResult}

/-- A step that asks for no more, and after which every live order descends from one before. -/
private theorem less (h : Contained U c r)
    (ht : Tracks true U d.engine.book (d.engine.outstanding d.stack) r')
    (hv : ∀ side p, demandAt d.engine.book r'.allOrders (d.engine.outstanding d.stack) side p ≤
      demandAt c.engine.book r.allOrders (c.engine.outstanding c.stack) side p)
    (hr : ∀ x ∈ r'.allOrders, ∃ y ∈ r.allOrders, x.Descends y)
    (ho : ∀ x ∈ d.engine.outstanding d.stack, ∃ y ∈ c.engine.outstanding c.stack, x.Descends y) :
    Contained U d r' where
  tracks := ht
  volumes side p := Nat.lt_of_le_of_lt (hv side p) (h.volumes side p)
  prices := h.prices.descend hr fun x hx ↦ by
    obtain ⟨hx, hrest⟩ := List.mem_filter.mp hx
    obtain ⟨y, hy, hd⟩ := ho x hx
    refine ⟨y, List.mem_filter.mpr ⟨hy, ?_⟩, hd⟩
    rwa [Order.canRest, ← hd.type_eq]

/-- The order of a match loop asks for no more than before. -/
theorem matching (h : Contained U ⟨s, .matching a :: K, res⟩ r) (hd : a'.Descends a)
    (hle : a'.demand ≤ a.demand) : Contained U ⟨s, .matching a' :: K, res'⟩ r := by
  have hstand := standsFor_of_eq hd.id_eq hd.type_eq hd.side_eq hd.price_eq
  refine h.less (h.tracks.stand hstand) (demandAt_head _ hd hle _ _) (fun x hx ↦ ⟨x, hx, .refl x⟩)
    fun x hx ↦ ?_
  rcases List.mem_cons.mp hx with rfl | hx
  · exact ⟨a, List.mem_cons_self, hd⟩
  · exact ⟨x, List.mem_cons_of_mem a hx, .refl x⟩

/-- The order of a match loop is gone. -/
theorem drop (h : Contained U ⟨s, .matching a :: K, res⟩ r) : Contained U ⟨s, K, res'⟩ r :=
  h.less h.tracks.tail (demandAt_tail _ _ a _) (fun x hx ↦ ⟨x, hx, .refl x⟩)
    fun x hx ↦ ⟨x, List.mem_cons_of_mem a hx, .refl x⟩

/-- The order of a match loop comes to rest. -/
theorem insert (h : Contained U ⟨s, .matching a :: K, res⟩ r) (hrest : a.canRest = true)
    (hb : ∀ y ∈ r.allOrders, y.side = a.side.opposite → a.RestsBeside y) :
    Contained U ⟨s.insert a, K, res'⟩ (r.insertOrder a) where
  tracks := h.tracks.insertOrder hrest
  volumes side p := Nat.lt_of_le_of_lt (demandAt_inserted _ side p hrest) (h.volumes side p)
  prices := by
    have hp := h.prices
    simp only [Engine.coming, outstanding_matching, List.filter_cons_of_pos hrest] at hp
    exact hp.rest hb (ReferenceBook.allOrders_insertOrder r a)

/-- A match loop is left. -/
theorem settle (h : Contained U ⟨s, .matching a :: K, res⟩ r)
    (hb : ∀ y ∈ r.allOrders, y.side = a.side.opposite → a.RestsBeside y) :
    ∃ r', Contained U ⟨Config.settle s a, K, res'⟩ r' := by
  unfold Config.settle
  split
  · next ht =>
    split
    · exact ⟨_, h.insert (by rw [Order.canRest, ht]) hb⟩
    · exact ⟨r, h.drop⟩
  · next ht =>
    split
    · exact ⟨_, h.insert (by rw [Order.canRest, ht]) hb⟩
    · exact ⟨r, h.drop⟩
  · exact ⟨r, h.drop⟩

/-- Starting the evaluation of stops only moves them. -/
theorem evaluate (h : Contained U c r) : Contained U (Config.evaluate c) r := by
  have hp := outstanding_evaluate c
  refine h.less ?_ (fun side p ↦ ?_) (fun x hx ↦ ⟨x, hx, .refl x⟩)
    fun x hx ↦ ⟨x, hp.mem_iff.mp hx, .refl x⟩
  · rw [evaluate_book]
    exact h.tracks.perm hp
  · rw [evaluate_book, demandAt_perm _ (.refl _) hp]

/-- What is left of an order after a fill asks for no more. -/
private theorem demand_debited (a : Order) {q : Quantity} (hq : q ≤ a.quantity) :
    Order.demand { a with quantity := a.quantity - q } ≤ a.demand := by
  have hsub := UInt64.toNat_sub_of_le _ _ hq
  have hice : Order.isIceberg { a with quantity := a.quantity - q } = a.isIceberg := rfl
  rw [Order.demand, Order.demand, Order.visibleQty, Order.visibleQty, Order.hidden, Order.hidden,
    hice]
  split
  · exact Nat.le_refl _
  · dsimp only
    omega

/-- Every step keeps the live orders within range. -/
theorem moves (h : Contained U c r) (hm : Config.Moves c d) : ∃ r', Contained U d r' := by
  have hr := h.tracks.represents
  cases hm with
  | @filled s a K res h0 =>
    have hmark : (markFilled a).demand = a.demand := by
      rw [markFilled]
      split <;> rfl
    by_cases hice : a.type = .iceberg
    · have hm : Contained U ⟨s, .matching (markFilled a) :: K, res⟩ r :=
        h.matching (markFilled_descends a) (Nat.le_of_eq hmark)
      exact hm.settle fun y _ _ ↦ .inl ((markFilled_type a).trans hice)
    · rw [Config.settle_markFilled h0 fun ht ↦ absurd ht hice]
      exact ⟨r, h.drop⟩
  | @uncrossed s a K res p hq hb hno =>
    refine h.settle fun y hy hs ↦ .inr ?_
    rw [hr.bestPrice] at hb
    obtain ⟨o, rest, ho, rfl⟩ := ReferenceBook.exists_best hb
    rw [Config.trades, Bool.or_eq_false_iff] at hno
    exact Order.crosses_of_behind hno.2
      (ReferenceBook.best_le ho (ReferenceBook.mem_orders.mpr ⟨hy, hs⟩))
  | @exhausted s a K res hq hb ht =>
    have hd : Contained U ⟨s, K, res⟩ r := h.drop
    exact ⟨r, hd.tracks, hd.volumes, hd.prices⟩
  | unopposed hq hb ht =>
    refine h.settle fun y hy hs ↦ ?_
    rw [hr.bestPrice] at hb
    exact absurd ⟨hy, hs⟩ (ReferenceBook.not_mem_of_bestPrice_none hb y)
  | @fill s a passive K res p key book book' q hq hb htr hpick hqq hset =>
    obtain ⟨rfl, rfl, ⟨rest, ho⟩, hr₁, hs₁⟩ := hr.of_pickPassive hb hpick
    obtain ⟨b₂, r₂, hset', hsetr, hr₂, hs₂⟩ := hr₁.settlePassive ho q
    obtain rfl : book' = b₂ := Except.ok.inj (hset.symm.trans hset')
    have hmem := (ReferenceBook.mem_of_head ho).1
    have hf := hr.distinct.filled hmem hsetr
    have hqa : q ≤ a.quantity := hqq ▸ Std.min_le_left
    have hd : ({ a with quantity := a.quantity - q } : Order).Descends a :=
      ⟨rfl, rfl, rfl, rfl, rfl, Nat.le_refl _⟩
    have hm : Contained U ⟨s, .matching { a with quantity := a.quantity - q } :: K,
        res.pushTrade (fillTrade a passive q)⟩ r := h.matching hd (demand_debited a hqa)
    refine ⟨r₂, evaluate ?_⟩
    refine hm.less (hm.tracks.shrink hr₂ (hs₂.trans hs₁)) (fun side p ↦ ?_)
      (fun x hx ↦ hf.descends hmem hx) fun x hx ↦ ⟨x, hx, .refl x⟩
    refine Nat.le_trans (demandAt_settled _ side p hr₁ ho hset hf) (Nat.le_of_eq ?_)
    rw [demandAt, OrderBook.volume_pickPassive hpick]
    rfl
  | evaluated => exact ⟨r, h.tracks, h.volumes, h.prices⟩
  | @triggered s p stop working K res ht =>
    have hcons : Contained U ⟨s, .matching stop.converted :: .triggers p working :: K, res⟩ r :=
      ⟨h.tracks, h.volumes, h.prices⟩
    have hm : Contained U ⟨s, .matching { stop.converted with status := .resting } ::
        .triggers p working :: K, res⟩ r := hcons.matching (Order.descends_status _ _)
      (Nat.le_refl _)
    exact ⟨r, hm.tracks, hm.volumes, hm.prices⟩
  | @kept s p stop working K res ht =>
    have hp := outstanding_kept s stop (.triggers p working :: K)
    refine ⟨r, h.less (h.tracks.perm hp) (fun side q ↦ ?_) (fun x hx ↦ ⟨x, hx, .refl x⟩)
      fun x hx ↦ ⟨x, hp.mem_iff.mp hx, .refl x⟩⟩
    exact Nat.le_of_eq (demandAt_perm _ (.refl _) hp side q)

/-- A step. -/
theorem step (h : ∃ r, Contained U c r) (hstep : c.step = .ok (some d)) :
    ∃ r, Contained U d r := by
  obtain ⟨r, hc⟩ := h
  exact hc.moves (Config.moves_of_step hstep)

/-- What the next step adds to a level fits. -/
private theorem pushes (h : Contained U c r) {v q : Quantity} (hp : c.Pushes v q) :
    v.toNat + q.toNat < 2 ^ 64 := by
  have hr := h.tracks.represents
  cases hp with
  | @rested s a K res hleave hrests =>
    have hrest : a.canRest = true := by
      rcases hrests with ⟨ht, -⟩ | ⟨ht, -⟩ <;> rw [Order.canRest, ht]
    have hself : a.headsFor a.side a.price = true := by
      rw [Order.headsFor, hrest, Order.restsAt_iff.mpr ⟨rfl, rfl⟩]
      rfl
    have hv : demandAt s.book r.allOrders (a :: s.outstanding K) a.side a.price < 2 ^ 64 :=
      h.volumes a.side a.price
    rw [demandAt, List.sumOver_cons, if_pos hself, Order.demand] at hv
    have hlevel := OrderBook.toNat_totalVolume s.book a.side a.price
    omega
  | @replenished s a o K res p key book q l l' hq hb htr hpick hqq h0 hice hres hl hpop =>
    obtain ⟨rfl, rfl, ⟨rest, hx⟩, -⟩ := hr.of_pickPassive hb hpick
    have hmem := (ReferenceBook.mem_of_head hx).1
    have hv := h.volumes o.side o.price
    rw [demandAt, (hr.distinct.perm_of_mem hmem).sumOver_eq, List.sumOver_cons,
      if_pos (Order.restsAt_iff.mpr ⟨rfl, rfl⟩), Order.hidden, if_pos hice,
      ← OrderBook.volume_pickPassive hpick, OrderBook.volume_of_level hl] at hv
    have hmin := UInt64.toNat_min o.peakQty o.reserveQty
    rw [PriceLevel.totalVolume_popFront hpop, toNat_clampedSub]
    omega

/-- The best prices belong to resting orders. -/
theorem quotes (h : Contained U c r) : c.engine.book.Quotes := by
  intro bid ask hbid hask
  have hr := h.tracks.represents
  obtain ⟨⟨id, o, ho, hside, rfl⟩, -⟩ := (hr.wellFormed.bestBid bid).mp hbid
  obtain ⟨⟨id', x, hx, hside', rfl⟩, -⟩ := (hr.wellFormed.bestAsk ask).mp hask
  rw [hr.find] at ho hx
  exact (h.prices.present o (ReferenceBook.mem_of_findOrder ho).1 x
    (ReferenceBook.mem_of_findOrder hx).1).1 hside hside'

private theorem inRange (h : Contained U c r) : c.InRange where
  quotes := h.quotes
  pushes _ _ hp := h.pushes hp

/-! ### Messages -/

/-- Only converted stops wait between two messages. -/
private theorem coming_idle {B : Type} {s : Engine B} {y : Order} (hy : y ∈ s.coming []) :
    y.type ≠ .iceberg := by
  obtain ⟨stop, -, rfl⟩ := List.mem_map.mp (List.mem_filter.mp hy).1
  exact converted_ne_iceberg stop

/-- An order that has room is submitted. -/
theorem enter {o : Order} (h : Contained U ⟨s, [], {}⟩ r)
    (ht : Tracks true U s.book (o :: s.outstanding []) r) (hroom : HasRoom s o.entering)
    (res : MatchResult) : Contained U (.enter s o [] res) r := by
  obtain ⟨st, hp⟩ := outstanding_enter s o [] res
  have hstored := h.tracks.represents.storedOrders_perm
  have hroom' : HasRoom s { o.entering with status := st } := hroom
  generalize { o.entering with status := st } = e at hp hroom'
  refine ⟨?_, fun side p ↦ ?_, ?_⟩
  · obtain ⟨r', he, htr⟩ :
        Related true U (.enter s o [] res) (.enter (s.withBook r) o [] res) := .enter ht
    have hbook : r = r' := by
      have hsame := congrArg (fun d ↦ d.engine.book) he
      rw [enter_book] at hsame
      exact hsame
    exact hbook ▸ htr
  · have hv : demandAt s.book r.allOrders (s.outstanding []) side p < 2 ^ 64 := h.volumes side p
    rw [enter_book, demandAt_perm _ (.refl _) hp]
    rw [demandAt] at hv
    rw [demandAt, List.sumOver_cons]
    split
    · next hhead =>
      rw [Order.headsFor, Bool.and_eq_true, Order.restsAt_iff] at hhead
      obtain ⟨hrest, rfl, rfl⟩ := hhead
      have hfits := (hroom' hrest).2
      rw [demandAt_perm _ hstored (.refl _), demandAt] at hfits
      omega
    · omega
  · by_cases hrest : e.canRest = true
    · have hjoin := h.prices.join (a := e) (fun y hy hb ↦ (hroom' hrest).1 y
        (((hstored.append_right _).mem_iff).mpr hy) hb) fun y hy ↦ coming_idle hy
      refine hjoin.descend (fun x hx ↦ ⟨x, hx, .refl x⟩) fun x hx ↦ ?_
      have hcons := (hp.filter Order.canRest).mem_iff.mp hx
      rw [List.filter_cons_of_pos hrest] at hcons
      exact ⟨x, hcons, .refl x⟩
    · refine h.prices.descend (fun x hx ↦ ⟨x, hx, .refl x⟩) fun x hx ↦ ?_
      have hcons := (hp.filter Order.canRest).mem_iff.mp hx
      rw [List.filter_cons_of_neg hrest] at hcons
      exact ⟨x, hcons, .refl x⟩

/-- A message whose order leaves room starts within range. -/
theorem start (h : Contained U ⟨s, [], {}⟩ r) {msg : OrderMessage} {now : Timestamp}
    (hadmits : Admits true U s (msg.event now))
    (hroom : msg.action = .newOrder → HasRoom s (msg.order now).entering) :
    ∃ r', Contained U (.start s (msg.event now)) r' := by
  unfold OrderMessage.event at hadmits ⊢
  split at hadmits
  · have hstart := Config.starts s
      (.cancelOrder { orderId := msg.orderId, timestamp := msg.timestamp })
    generalize Config.start s _ = c at hstart
    cases hstart with
    | stopCancelled hfind =>
      have hsub := (List.eraseP_sublist (l := s.pendingStops)
        (p := (·.id == msg.orderId))).map Order.converted
      refine ⟨r, h.less (h.tracks.sublist hsub) (fun side p ↦ ?_) (fun x hx ↦ ⟨x, hx, .refl x⟩)
        fun x hx ↦ ⟨x, hsub.subset hx, .refl x⟩⟩
      exact Nat.add_le_add_left hsub.sumOver_le _
    | orderCancelled _ ho =>
      have hr := h.tracks.represents
      refine ⟨_, h.less (h.tracks.shrink (hr.cancelOrder msg.orderId)
        (hr.shrinks_cancelOrder msg.orderId)) (fun side p ↦ demandAt_cancelled _ side p ho)
        (fun x hx ↦ ⟨x, (ReferenceBook.mem_cancelOrder.mp hx).1, .refl x⟩)
        fun x hx ↦ ⟨x, hx, .refl x⟩⟩
    | cancelRejected => exact ⟨r, h.tracks, h.volumes, h.prices⟩
  · next ha =>
    have h' : Contained U ⟨{ s with sequence := s.sequence + 1 }, [], {}⟩ r :=
      ⟨h.tracks, h.volumes, h.prices⟩
    exact ⟨r, h'.enter (h.tracks.cons hadmits) (hroom ha) {}⟩

end Contained

/-! ### Sessions -/

/-- The invariant between two messages. -/
structure WithinRange (s : Engine (OrderBook PriceLevel)) : Prop where
  quotes : s.book.Quotes
  volumes : ∀ side p, demandAt s.book s.book.storedOrders (s.outstanding []) side p < 2 ^ 64
  prices : Compatible s.book.storedOrders (s.coming [])

private theorem WithinRange.contained {U : OrderId → Prop} {s : Engine (OrderBook PriceLevel)}
    {r : ReferenceBook} (h : WithinRange s) (ht : Tracks true U s.book (s.outstanding []) r) :
    Contained U ⟨s, [], {}⟩ r where
  tracks := ht
  volumes side p := by
    rw [← demandAt_perm _ ht.represents.storedOrders_perm (.refl _)]
    exact h.volumes side p
  prices := h.prices.descend
    (fun x hx ↦ ⟨x, ht.represents.storedOrders_perm.mem_iff.mpr hx, .refl x⟩)
    fun x hx ↦ ⟨x, hx, .refl x⟩

theorem Contained.withinRange {U : OrderId → Prop} {s : Engine (OrderBook PriceLevel)}
    {r : ReferenceBook} {res : MatchResult} (h : Contained U ⟨s, [], res⟩ r) : WithinRange s where
  quotes := h.quotes
  volumes side p := by
    rw [demandAt_perm _ h.tracks.represents.storedOrders_perm (.refl _)]
    exact h.volumes side p
  prices := h.prices.descend
    (fun x hx ↦ ⟨x, h.tracks.represents.storedOrders_perm.mem_iff.mp hx, .refl x⟩)
    fun x hx ↦ ⟨x, hx, .refl x⟩

theorem WithinRange.init : WithinRange Engine.init := by
  have hnone : (Engine.init : Engine (OrderBook PriceLevel)).book.bestBid = none := by
    decide +kernel
  refine ⟨fun bid ask hbid ↦ absurd (hnone.symm.trans hbid) (by simp), fun side p ↦ ?_,
    fun x hx ↦ absurd hx List.not_mem_nil, fun x hx ↦ absurd hx List.not_mem_nil⟩
  have hvol : (Engine.init : Engine (OrderBook PriceLevel)).book.volume side p = 0 :=
    Represents.empty.volume_eq_zero (by cases side <;> rfl)
  rw [demandAt, hvol]
  change 0 + [].sumOver _ _ + [].sumOver _ _ < 2 ^ 64
  rw [List.sumOver_nil, List.sumOver_nil]
  decide

/-- The time does not matter. -/
private theorem hasRoom_order {s : Engine (OrderBook PriceLevel)} {msg : OrderMessage}
    (h : HasRoom s (msg.order 0).entering) (now : Timestamp) :
    HasRoom s (msg.order now).entering := by
  unfold Order.entering at h ⊢
  cases ht : msg.type with
  | limit | market | iceberg =>
    simp only [OrderMessage.order, ht] at h ⊢
    exact h
  | stop | stopLimit =>
    simp only [OrderMessage.order, ht, Order.converted] at h ⊢
    exact h

variable {msgs : List OrderMessage} {msg : OrderMessage} {m : ExchangeManager}
  {outs : List (List ExchangeEvent)} {i : Fin instrumentCount}

/-- A side without levels has no best level. -/
private theorem levelCount_eq_zero_iff (b : OrderBook PriceLevel) (side : Side) :
    b.levelCount side = 0 ↔ (b.bestLevel side).map Prod.fst = none := by
  rw [Option.map_eq_none_iff, OrderBook.bestLevel, Std.ExtTreeMap.first?, List.head?_eq_none_iff,
    ← List.length_eq_zero_iff, Std.ExtTreeMap.length_toList, OrderBook.levelCount]

/-- The events of a book within range publish its spread. -/
private theorem exactSpread_of_mem {b : OrderBook PriceLevel} (hb : b.Quotes) {ts : Timestamp}
    {r : MatchResult} {e : BookUpdatedEvent}
    (he : .bookUpdated e ∈ ExchangeManager.translateResult ts msg r b) : ExactSpread e := by
  obtain rfl : e = ExchangeManager.bookEvent msg ts b := by
    simp only [ExchangeManager.translateResult, List.mem_append, List.mem_map,
      List.mem_singleton] at he
    rcases he with (((⟨_, _, h⟩ | ⟨_, _, h⟩) | ⟨_, _, h⟩) | h) | h
    · exact absurd h (by simp)
    · exact absurd h (by simp)
    · exact absurd h (by simp)
    · split at h <;> exact absurd h (by simp)
    · exact ExchangeEvent.bookUpdated.inj h
  have hbids : b.levelCount .buy = 0 ↔ b.bestBid = none := levelCount_eq_zero_iff b .buy
  have hasks : b.levelCount .sell = 0 ↔ b.bestAsk = none := levelCount_eq_zero_iff b .sell
  simp only [ExactSpread, ExchangeManager.bookEvent, hbids, hasks]
  cases hbid : b.bestBid with
  | none =>
    have hnone : b.spread = none := by simp only [OrderBook.spread, hbid, bind, Option.bind]
    rw [hnone, if_pos (.inl rfl)]
    rfl
  | some bid =>
    cases hask : b.bestAsk with
    | none =>
      have hnone : b.spread = none := by
        simp only [OrderBook.spread, hbid, hask, bind, Option.bind]
      rw [hnone, if_pos (.inr rfl)]
      rfl
    | some ask =>
      have hspread : b.spread = some (ask - bid) := by
        simp only [OrderBook.spread, hbid, hask, bind, Option.bind, pure]
      rw [hspread, if_neg (by simp)]
      exact narrow64_of_inInt64 (hb bid ask hbid hask).1

/-- A message of a session that leaves room starts within range. -/
theorem WithinRange.start {es : List OrderEvent} {t : Engine ReferenceBook}
    (hw : WithinRange (m.engineAt i)) (href : Refines es (m.engineAt i) t) {now : Timestamp}
    (hf : Fresh (es ++ [msg.event now])) (hi : m.index[msg.symbol]? = some i)
    (hroom : LeavesRoom m msg) : ∃ r, Contained (· ∈ submittedIds (es ++ [msg.event now]))
      (.start (m.engineAt i) (msg.event now)) r := by
  refine (hw.contained (href.extend (msg.event now))).start
    (href.admits hf (.of_keepsPlace (FromMessage.keepsPlace ⟨msg, now, rfl⟩ _))) fun ha ↦ ?_
  have hs : m.engineAt i ∈ m.engine? msg.symbol := by
    rw [ExchangeManager.engine?, hi]
    rfl
  exact hasRoom_order (hroom ha _ hs) now

/-- Every engine of a session is within range, and every event publishes an exact spread. -/
theorem Session.withinRange (h : Session LeavesRoom msgs m outs) (hd : DistinctIds msgs) :
    (∀ i, WithinRange (m.engineAt i)) ∧
      ∀ out ∈ outs, ∀ e, .bookUpdated e ∈ out → ExactSpread e := by
  induction h with
  | nil =>
    refine ⟨fun i ↦ ?_, fun out hout ↦ absurd hout List.not_mem_nil⟩
    have hinit : ExchangeManager.init.engineAt i = Engine.init := by
      simp [ExchangeManager.engineAt, ExchangeManager.init]
    exact hinit ▸ .init
  | @snoc msgs msg m m' outs out fuel now ts h hroom hp ih =>
    obtain ⟨hw, hexact⟩ := ih hd.left
    rcases ExchangeManager.process_ok hp with ⟨-, rfl, rfl⟩ | ⟨j, s', r, hj, hs, rfl, rfl⟩
    · refine ⟨hw, fun out hout e he ↦ ?_⟩
      rcases List.mem_append.mp hout with hout | hout
      · exact hexact out hout e he
      · rw [List.mem_singleton.mp hout] at he
        exact absurd he List.not_mem_nil
    · obtain ⟨es, -, t, -, href, hf, -⟩ := h.refines hd hj now
      have hsub : Submits (m.engineAt j) (msg.event now) s' r := ⟨fuel, hs⟩
      obtain ⟨r', hend⟩ := hsub.preserves (P := fun c ↦ ∃ r, Contained _ c r)
        (fun _ _ ↦ Contained.step) ((hw j).start href hf hj hroom)
      refine ⟨fun i ↦ ?_, fun out hout e he ↦ ?_⟩
      · rw [ExchangeManager.engineAt_setEngine]
        split
        · exact hend.withinRange
        · exact hw i
      · rcases List.mem_append.mp hout with hout | hout
        · exact hexact out hout e he
        · rw [List.mem_singleton.mp hout] at he
          exact exactSpread_of_mem hend.quotes he

/-- As long as every order leaves room, what is derived from the best prices stays within 64 bits
and is published as it is. While the next such message is processed, so does every addition to a
volume. -/
theorem session_derived_values (h : Session LeavesRoom msgs m outs) (hd : DistinctIds msgs) :
    (∀ i, (m.engineAt i).book.Quotes) ∧
      (∀ out ∈ outs, ∀ e, .bookUpdated e ∈ out → ExactSpread e) ∧
      ∀ msg, DistinctIds (msgs ++ [msg]) → LeavesRoom m msg → ∀ i now n c,
        m.index[msg.symbol]? = some i →
        Steps Config.step n (.start (m.engineAt i) (msg.event now)) c → c.InRange := by
  obtain ⟨hw, hexact⟩ := h.withinRange hd
  refine ⟨fun i ↦ (hw i).quotes, hexact, fun msg hd' hroom i now n c hi hsteps ↦ ?_⟩
  obtain ⟨es, -, t, -, href, hf, -⟩ := h.refines hd' hi now
  obtain ⟨r, hc⟩ := hsteps.preserves (P := fun c ↦ ∃ r, Contained _ c r)
    (fun _ _ ↦ Contained.step) ((hw i).start href hf hi hroom)
  exact hc.inRange

/-- Order 3 trades at any price and takes the first peak of order 2; order 4 rests as far from the
offers as the range allows. -/
private def farApart : List OrderMessage :=
  [{ orderId := 1, symbol := "STOCK_1", side := .sell, price := 2 ^ 62, quantity := 2 ^ 63 },
    { orderId := 2, symbol := "STOCK_1", side := .sell, type := .iceberg, price := 2 ^ 62 - 1
      quantity := 2 ^ 62, peakQty := 5 },
    { orderId := 3, symbol := "STOCK_1", price := 2 ^ 63 - 1, quantity := 5 },
    { orderId := 4, symbol := "STOCK_1", price := 1 - 2 ^ 62, quantity := 7 }]

/-- An offer that fills the level of order 1 up. -/
private def topUp : OrderMessage :=
  { orderId := 5, symbol := "STOCK_1", side := .sell, price := 2 ^ 62, quantity := 2 ^ 63 - 1 }

theorem session_derived_values_far_apart : ∃ m outs, Session LeavesRoom farApart m outs ∧
    (m.engineAt 0).book.spread = some (2 ^ 63 - 2) ∧ (m.engineAt 0).book.Quotes ∧
      (Config.start (m.engineAt 0) (topUp.event 0)).InRange := by
  obtain ⟨m, outs, hsession, hspread, hindex, hroom⟩ := Session.exists_of_serve LeavesRoom 50
    farApart (fun m ↦ (m.engineAt 0).book.spread = some (2 ^ 63 - 2) ∧
      m.index[topUp.symbol]? = some 0 ∧ LeavesRoom m topUp) (by decide +kernel)
  obtain ⟨hquotes, -, hnext⟩ := session_derived_values hsession (by decide)
  exact ⟨m, outs, hsession, hspread, hquotes 0, hnext topUp (by decide) hroom 0 0 0 _ hindex
    (.refl _)⟩

/-- A limit order without an opposite side comes to rest at once. -/
private theorem pushes_start {s : Engine (OrderBook PriceLevel)} {o : Order} (ht : o.type = .limit)
    (hq : o.quantity > 0) (hnone : bestPrice s.book o.side.opposite = none) :
    (Config.start s (.newOrder ⟨o⟩)).Pushes
      ((s.book.getLevel o.side o.price).getD (ofPrice o.price)).totalVolume o.visibleQty := by
  rw [start_direct (.inl ht)]
  exact .rested (.inr fun p hp ↦ absurd (hnone.symm.trans hp) (by simp)) (.inl ⟨ht, hq⟩)

/-- An offer at the highest price. -/
private def highestOffer : OrderMessage :=
  { orderId := 1, symbol := "STOCK_1", side := .sell, price := 2 ^ 63 - 1, quantity := 2 ^ 63 }

/-- A bid too far from it, and an offer of the same size behind it. -/
private def lowBid : OrderMessage :=
  { orderId := 2, symbol := "STOCK_1", price := -2, quantity := 1 }

private def secondOffer : OrderMessage := { highestOffer with orderId := 2 }

/-- A spread that is not that of the prices. -/
private def misquotes : ExchangeEvent → Bool
  | .bookUpdated e => !decide (ExactSpread e)
  | _ => false

/-- Without the condition the spread of two accepted orders leaves the range, and so does the
volume of a level that a second order joins. -/
theorem derived_values_wrap :
    (¬∀ msgs m outs, Session (fun _ _ ↦ True) msgs m outs → DistinctIds msgs →
      ∀ i, (m.engineAt i).book.Quotes) ∧
    (¬∀ msgs m outs, Session (fun _ _ ↦ True) msgs m outs → DistinctIds msgs →
      ∀ out ∈ outs, ∀ e, .bookUpdated e ∈ out → ExactSpread e) ∧
    ¬∀ msgs m outs, Session (fun _ _ ↦ True) msgs m outs →
      ∀ msg, DistinctIds (msgs ++ [msg]) → ∀ i now n c, m.index[msg.symbol]? = some i →
        Steps Config.step n (.start (m.engineAt i) (msg.event now)) c → c.InRange := by
  refine ⟨fun hall ↦ ?_, fun hall ↦ ?_, fun hall ↦ ?_⟩
  · obtain ⟨m, outs, hsession, hbid, hask⟩ := Session.exists_of_serve (fun _ _ ↦ True) 50
      [highestOffer, lowBid] (fun m ↦ (m.engineAt 0).book.bestBid = some (-2) ∧
        (m.engineAt 0).book.bestAsk = some (2 ^ 63 - 1)) (by decide +kernel)
    have hquotes := hall _ m outs hsession (by decide) 0 _ _ hbid hask
    exact absurd hquotes (by decide)
  · obtain ⟨m, outs, hsession, hout⟩ := Session.exists_of_serve (fun _ _ ↦ True) 50
      [highestOffer] (fun m ↦ (m.process 50 0 0 lowBid).toOption.any
        (fun a ↦ a.2.any misquotes) = true) (by decide +kernel)
    obtain ⟨⟨m', out⟩, hp, hany⟩ := (Option.any_eq_true _ _).mp hout
    obtain ⟨ev, hev, hmis⟩ := List.any_eq_true.mp hany
    have hnext := hsession.snoc trivial (eq_ok_of_toOption hp)
    cases ev with
    | bookUpdated e =>
      have hexact := hall _ _ _ hnext (by decide) out (by simp) e hev
      rw [misquotes, decide_eq_true hexact] at hmis
      exact absurd hmis (by decide)
    | orderAccepted | orderRejected | orderCanceled | tradeExecuted | snapshot =>
      exact absurd hmis (by simp [misquotes])
  · obtain ⟨m, outs, hsession, hindex, hnone, hvol⟩ := Session.exists_of_serve (fun _ _ ↦ True) 50
      [highestOffer] (fun m ↦ m.index[secondOffer.symbol]? = some 0 ∧
        bestPrice (m.engineAt 0).book .buy = none ∧
          (((m.engineAt 0).book.getLevel .sell (2 ^ 63 - 1)).getD
            (ofPrice (2 ^ 63 - 1))).totalVolume = 2 ^ 63) (by decide +kernel)
    have hrange := hall _ m outs hsession secondOffer (by decide) 0 0 0 _ hindex (.refl _)
    have hpush := hrange.pushes _ _ (pushes_start (s := m.engineAt 0) (o := secondOffer.order 0) rfl
      (by decide +kernel) hnone)
    have hlevel : (((m.engineAt 0).book.getLevel (secondOffer.order 0).side
        (secondOffer.order 0).price).getD (ofPrice (secondOffer.order 0).price)).totalVolume =
          2 ^ 63 := hvol
    rw [hlevel] at hpush
    exact absurd hpush (by decide +kernel)

end LobEngine
