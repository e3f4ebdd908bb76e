import LobEngine.Properties.Supply

/-!
# What an incoming order can set off

The trades of an incoming order trigger stops, and the trades of these trigger further ones. How far
this goes depends on how deep the match loops reach into the book, which what they ask for and what
rests there limit. So a set of stops that contains every stop triggered at a price that its own
orders can reach contains every stop that is triggered at all, and where what these orders ask for
on one side is covered by the other, none of them is left without an opposite order.
-/

namespace LobEngine

open BookOps Engine

/-! ### The state before the order -/

/-- What an order finds when it is submitted: the resting orders, the pending stops, and the order
itself where it is matched at once. -/
structure Scene where
  resting : List Order
  stops : List Order
  incoming : List Order

section Incoming

variable {B : Type} [BookOps B]

/-- The order as `process_new_order` matches it at once; a stop that is not triggered on arrival
waits. `src/engine/matching_engine.cpp:27–62` -/
def Engine.incoming (s : Engine B) (o : Order) : List Order :=
  match o.type with
  | .limit | .market => [o.accepted]
  | .iceberg => [splitIceberg o.accepted]
  | .stop | .stopLimit =>
    if s.immediatelyTriggered o.accepted then
      [{ o.accepted.converted with status := .resting }]
    else []

/-- The order and what it finds in an engine whose book stores the orders that `list` lists. -/
def sceneOf (list : B → List Order) (s : Engine B) (o : Order) : Scene :=
  ⟨list s.book, s.pendingStops, s.incoming o⟩

/-- An incoming order starts its match loop. -/
theorem enter_incoming (s : Engine B) (o : Order) (K : List Frame) (r : MatchResult) :
    s.incoming o = [] ∧ (Config.enter s o K r).stack = K ∨ ∃ a g, s.incoming o = [a] ∧
      a.id = o.id ∧ Config.enter s o K r = ⟨{ s with ghost := g }, .matching a :: K, r⟩ := by
  have hstop (hs : s.incoming o = if s.immediatelyTriggered o.accepted then
        [{ o.accepted.converted with status := .resting }] else [])
      (he : Config.enter s o K r = if s.immediatelyTriggered o.accepted then
        .enterConverted s o.accepted K r
        else ⟨{ s with pendingStops := s.pendingStops ++ [o.accepted] }, K, r⟩) :
      s.incoming o = [] ∧ (Config.enter s o K r).stack = K ∨ ∃ a g, s.incoming o = [a] ∧
        a.id = o.id ∧ Config.enter s o K r = ⟨{ s with ghost := g }, .matching a :: K, r⟩ := by
    rw [hs, he]
    split
    · exact .inr ⟨_, _, rfl, converted_id o.accepted, rfl⟩
    · exact .inl ⟨rfl, rfl⟩
  obtain ⟨id, side, type, price, stopPrice, quantity, origQty, peakQty, reserveQty, timestamp,
    status⟩ := o
  cases type with
  | limit | market | iceberg => exact .inr ⟨_, s.ghost, rfl, rfl, rfl⟩
  | stop | stopLimit => exact hstop rfl rfl

end Incoming

namespace Scene

variable (z : Scene) (woken : OrderId → Bool)

/-- The orders that may be matched: the incoming order and the stops whose identifiers are `woken`,
as they are converted. -/
def movers : List Order := (z.incoming ++ z.stops.map Order.converted).filter (woken ·.id)

/-- The orders that may be traded with: those that rest, and the stops whose identifiers are
`woken` that become limit orders. -/
def makers : List Order :=
  z.resting ++ (z.stops.map Order.converted).filter fun x ↦ woken x.id && x.type != .market

/-- What the movers can meet on a side at the prices that pass a test. -/
def reach : Side → (Price → Bool) → Nat := reachOf z.resting (z.movers woken)

/-- What the movers of a side may take. -/
def demand (side : Side) : Nat := demandOf (z.reach woken) (z.movers woken) side

/-- The movers of a side may take no more than what rests on the other. -/
def Covers (side : Side) : Prop :=
  z.demand woken side ≤ offered Order.worth side.opposite (fun _ ↦ true) z.resting

/-- The movers may reach an order: one of them accepts its price, and what rests at better prices
does not satisfy them, or the order shows no quantity and takes nothing to be reached. -/
def Meets (x : Order) : Prop :=
  (∃ a ∈ z.movers woken, a.side = x.side.opposite ∧ Config.trades a x.price = true) ∧
    (offered Order.worth x.side (fun p ↦ x.side.cmp p x.price == .lt) z.resting <
      z.demand woken x.side.opposite ∨ x.quantity = 0)

/-- Every stop is `woken` that is triggered at a price which the movers may reach. -/
structure Closed : Prop where
  incoming : ∀ a ∈ z.incoming, woken a.id = true
  stops : ∀ x ∈ z.makers woken, x.price ≠ 0 → z.Meets woken x →
    ∀ stop ∈ z.stops, stop.triggeredAt x.price = true → woken stop.id = true

instance (side : Side) : Decidable (z.Covers woken side) := inferInstanceAs (Decidable (_ ≤ _))

instance (x : Order) : Decidable (z.Meets woken x) := inferInstanceAs (Decidable (_ ∧ _))

instance : Decidable (z.Closed woken) :=
  decidable_of_iff ((∀ a ∈ z.incoming, woken a.id = true) ∧ ∀ x ∈ z.makers woken, x.price ≠ 0 →
    z.Meets woken x → ∀ stop ∈ z.stops, stop.triggeredAt x.price = true → woken stop.id = true)
    ⟨fun h ↦ ⟨h.1, h.2⟩, fun h ↦ ⟨h.incoming, h.stops⟩⟩

/-- The set of all stops is closed. -/
theorem closed_all (z : Scene) : z.Closed fun _ ↦ true := ⟨fun _ _ ↦ rfl, fun _ _ _ _ _ _ _ ↦ rfl⟩

end Scene

/-! ### The invariant -/

/-- Starting an evaluation puts the pending stops on the stack, or changes nothing. -/
theorem Config.stack_evaluate {B : Type} [BookOps B] (c : Config B) :
    (Config.evaluate c).stack = c.stack ∨ lastTradePrice c.engine.book ≠ 0 ∧
      (Config.evaluate c).stack =
        .triggers (lastTradePrice c.engine.book) c.engine.pendingStops :: c.stack := by
  rw [Config.evaluate]
  split
  · exact .inl rfl
  · split
    · exact .inl rfl
    · next h0 => exact .inr ⟨h0, rfl⟩

/-- The stops that are triggered while the event is processed are `woken`, and their demand follows
what is left in the book. -/
structure Confined (z : Scene) (woken : OrderId → Bool) (c : Config ReferenceBook) : Prop where
  line : ∀ stop ∈ c.line, stop ∈ z.stops
  awake : Config.Awake woken c
  wakes : ∀ p working, .triggers p working ∈ c.stack →
    ∀ stop ∈ working, stop.triggeredAt p = true → woken stop.id = true
  movers : ∀ a ∈ c.motion woken, ∃ x ∈ z.movers woken, a.Descends x
  followers : ∀ a, .matching a ∈ c.stack.dropLast → ∃ stop ∈ z.stops, a.Descends stop.converted
  makers : c.stack ≠ [] → ∀ o ∈ c.engine.book.allOrders, ∃ x ∈ z.makers woken,
    o.Descends x ∧ (o.quantity = 0 → x.quantity = 0)
  balance : ∀ side m, offered Order.worth side.opposite m z.resting + c.demand woken side ≤
    offered Order.worth side.opposite m c.engine.book.allOrders + z.demand woken side
  refused : ∀ rej ∈ c.result.rejections, ∃ x ∈ z.movers woken, x.type = .market ∧
    x.id = rej.orderId ∧ ¬z.Covers woken x.side

namespace Confined

variable {z : Scene} {woken : OrderId → Bool} {c d : Config ReferenceBook}
  {s : Engine ReferenceBook} {a : Order} {K : List Frame} {r : MatchResult}

private theorem motion_start (woken : OrderId → Bool) {t : Engine ReferenceBook} {o : Order}
    {g : List GhostEvent} (ha : t.incoming o = [a]) :
    Config.motion woken ⟨{ t with ghost := g }, [.matching a], r⟩ =
      (sceneOf ReferenceBook.allOrders t o).movers woken := by
  rw [Scene.movers, sceneOf, ha]
  rfl

theorem reach_start (woken : OrderId → Bool) {t : Engine ReferenceBook} {o : Order}
    {g : List GhostEvent} (ha : t.incoming o = [a]) :
    Config.reach woken ⟨{ t with ghost := g }, [.matching a], r⟩ =
      (sceneOf ReferenceBook.allOrders t o).reach woken := by
  funext side m
  rw [Config.reach, motion_start woken ha]
  rfl

/-- The match loop of the incoming order starts. -/
theorem start {t : Engine ReferenceBook} {o : Order} {g : List GhostEvent}
    (hz : (sceneOf ReferenceBook.allOrders t o).Closed woken) (ha : t.incoming o = [a]) :
    Confined (sceneOf ReferenceBook.allOrders t o) woken
      ⟨{ t with ghost := g }, [.matching a], {}⟩ := by
  have hwoken : woken a.id = true := hz.incoming a (by simp [sceneOf, ha])
  have hmotion := motion_start woken (r := {}) (g := g) ha
  have hreach := reach_start woken (r := {}) (g := g) ha
  constructor
  · intro stop hstop
    simpa [Config.line, sceneOf] using hstop
  · intro b hb
    obtain rfl := Frame.matching.inj (List.mem_singleton.mp hb)
    exact hwoken
  · intro p working hmem
    exact absurd (List.mem_singleton.mp hmem) (by simp)
  · intro b hb
    exact ⟨b, hmotion ▸ hb, .refl b⟩
  · intro b hb
    exact absurd hb List.not_mem_nil
  · intro _ x hx
    exact ⟨x, List.mem_append_left _ hx, .refl x, id⟩
  · intro side m
    rw [Config.demand, hmotion, hreach]
    exact Nat.le_refl _
  · intro rej hrej
    exact absurd hrej List.not_mem_nil

/-- Every stop that is about to be converted is `woken`. -/
private theorem wakes_next (h : Confined z woken c) (p : Price) (stop : Order)
    (working : List Order) (K : List Frame) (hc : c.stack = .triggers p (stop :: working) :: K)
    (ht : stop.triggeredAt p = true) : woken stop.id = true :=
  h.wakes p _ (hc ▸ List.mem_cons_self) stop List.mem_cons_self ht

theorem reach_le (ho : c.engine.book.Distinct) (h : Confined z woken c) (hm : Config.Moves c d)
    (side : Side) (m : Price → Bool) : d.reach woken side m ≤ c.reach woken side m :=
  hm.reach_le ho h.awake h.wakes_next

/-- What a move leaves alone, or changes as the machine does everywhere. -/
private theorem of_moves (ho : c.engine.book.Distinct) (h : Confined z woken c)
    (hm : Config.Moves c d) (hawake : Config.Awake woken d)
    (hwakes : ∀ p working, .triggers p working ∈ d.stack →
      ∀ stop ∈ working, stop.triggeredAt p = true → woken stop.id = true)
    (hfollowers : ∀ a, .matching a ∈ d.stack.dropLast →
      ∃ stop ∈ z.stops, a.Descends stop.converted)
    (hmakers : d.stack ≠ [] → ∀ o ∈ d.engine.book.allOrders, ∃ x ∈ z.makers woken,
      o.Descends x ∧ (o.quantity = 0 → x.quantity = 0))
    (hrefused : ∀ rej ∈ d.result.rejections, ∃ x ∈ z.movers woken, x.type = .market ∧
      x.id = rej.orderId ∧ ¬z.Covers woken x.side) : Confined z woken d where
  line stop hstop := h.line stop (hm.line hstop)
  awake := hawake
  wakes := hwakes
  movers a ha := by
    obtain ⟨hout, hw⟩ := List.mem_filter.mp ha
    obtain ⟨x, hx, hax⟩ := hm.outstanding hout
    obtain ⟨y, hy, hxy⟩ := h.movers x (List.mem_filter.mpr ⟨hx, hax.id_eq ▸ hw⟩)
    exact ⟨y, hy, hax.trans hxy⟩
  followers := hfollowers
  makers := hmakers
  balance side m := by
    have hbefore := h.balance side m
    have hmove := hm.balance ho h.awake h.wakes_next side m
    omega
  refused := hrefused

private theorem mem_dropLast_cons {f g : Frame} (h : f ∈ K.dropLast) : f ∈ (g :: K).dropLast := by
  cases K with
  | nil => exact absurd h List.not_mem_nil
  | cons => exact List.mem_cons_of_mem _ h

/-- A match loop is left. Unless it is the last one, a limit order with a quantity left comes to
rest, or nothing does. -/
private theorem leave {s' : Engine ReferenceBook} {r' : MatchResult} (ho : s.book.Distinct)
    (h : Confined z woken ⟨s, .matching a :: K, r⟩)
    (hm : Config.Moves ⟨s, .matching a :: K, r⟩ ⟨s', K, r'⟩)
    (hbook : s'.book = s.book ∨ a.type = .limit ∧ a.quantity > 0 ∧ s' = s.insert a ∨ K = [])
    (hrefused : ∀ rej ∈ r'.rejections, ∃ x ∈ z.movers woken, x.type = .market ∧
      x.id = rej.orderId ∧ ¬z.Covers woken x.side) : Confined z woken ⟨s', K, r'⟩ := by
  refine of_moves ho h hm (fun b hb ↦ h.awake b (List.mem_cons_of_mem _ hb))
    (fun p working hmem ↦ h.wakes p working (List.mem_cons_of_mem _ hmem))
    (fun b hb ↦ h.followers b (mem_dropLast_cons hb)) ?_ hrefused
  intro hK o hmem
  have hrests := h.makers (List.cons_ne_nil _ _) o
  rcases hbook with hbook | ⟨ht, hq, rfl⟩ | hnil
  · exact hrests (hbook ▸ hmem)
  · rcases ReferenceBook.mem_insertOrder.mp hmem with rfl | hmem
    · obtain ⟨stop, hstop, hdesc⟩ :=
        h.followers o (List.dropLast_cons_of_ne_nil hK ▸ List.mem_cons_self)
      have hwoken := h.awake o List.mem_cons_self
      refine ⟨stop.converted, List.mem_append_right _ (List.mem_filter.mpr
        ⟨List.mem_map_of_mem hstop, ?_⟩), hdesc, fun h0 ↦ ?_⟩
      · rw [← hdesc.id_eq, ← hdesc.type_eq, hwoken, ht]
        rfl
      · rw [h0] at hq
        exact absurd hq (by decide)
    · exact hrests hmem
  · exact absurd hnil hK

/-- The order of a match loop that is not the last one is a limit or a market order. -/
private theorem follower_type (h : Confined z woken ⟨s, .matching a :: K, r⟩) (hK : K ≠ []) :
    a.type ≠ .iceberg := by
  obtain ⟨stop, -, hdesc⟩ := h.followers a (List.dropLast_cons_of_ne_nil hK ▸ List.mem_cons_self)
  rw [hdesc.type_eq]
  exact converted_ne_iceberg stop

/-- An order with a quantity left comes to rest as a limit order, or it is the last one. -/
private theorem settle_follower (h : Confined z woken ⟨s, .matching a :: K, r⟩)
    (hq : a.quantity > 0) : (Config.settle s a).book = s.book ∨
      a.type = .limit ∧ a.quantity > 0 ∧ Config.settle s a = s.insert a ∨ K = [] := by
  by_cases hK : K = []
  · exact .inr (.inr hK)
  have hice := h.follower_type hK
  unfold Config.settle
  split
  · next ht => exact .inr (.inl ⟨ht, hq, if_pos hq⟩)
  · next ht => exact absurd ht hice
  · exact .inl rfl

/-- What is offered at no better price than the best one is nothing. -/
private theorem offered_better {b : ReferenceBook} {side : Side} {o : Order} {rest : List Order}
    (ho : b.orders side = o :: rest) :
    offered Order.worth side (fun p ↦ side.cmp p o.price == .lt) b.allOrders = 0 := by
  apply offered_eq_zero
  intro x hx
  have hle := ReferenceBook.best_le ho hx
  rw [beq_eq_false_iff_ne]
  intro hlt
  rw [Std.OrientedCmp.gt_of_lt hlt] at hle
  exact absurd hle (by decide)

/-- A market order that finds no opposite level is on a side that is not covered. -/
private theorem not_covers (h : Confined z woken ⟨s, .matching a :: K, r⟩) (hq : a.quantity > 0)
    (ht : a.type = .market) (hb : bestPrice s.book a.side.opposite = none) :
    ¬z.Covers woken a.side := by
  have hnone : offered Order.worth a.side.opposite (fun _ ↦ true) s.book.allOrders = 0 :=
    offered_eq_zero fun x hx ↦
      absurd (ReferenceBook.mem_orders.mp hx) (ReferenceBook.not_mem_of_bestPrice_none hb x)
  have hbalance := h.balance a.side fun _ ↦ true
  rw [Config.demand, Config.motion_matching (h.awake a List.mem_cons_self), demandOf_cons,
    if_pos rfl, Order.wants, if_pos ht, hnone] at hbalance
  rw [gt_iff_lt, UInt64.pos_iff_toNat_pos] at hq
  intro hcovers
  rw [Scene.Covers] at hcovers
  omega

/-- An order that trades is in demand. -/
private theorem wants_pos (h : Confined z woken ⟨s, .matching a :: K, r⟩) (hd : s.book.Distinct)
    {passive : Order} (hmem : passive ∈ s.book.allOrders) (hside : passive.side = a.side.opposite)
    (ht : Config.trades a passive.price = true) (hq : a.quantity > 0)
    (hp : passive.quantity > 0) :
    0 < Config.demand woken ⟨s, .matching a :: K, r⟩ a.side := by
  have hwants : 0 < a.wants (Config.reach woken ⟨s, .matching a :: K, r⟩) := by
    have hworth := worth_le_offered hd hmem hside ht
    have hshow := passive.quantity_le_worth
    have hreach : offered Order.worth a.side.opposite (Config.trades a) s.book.allOrders ≤
        Config.reach woken ⟨s, .matching a :: K, r⟩ a.side.opposite (Config.trades a) :=
      Nat.le_add_right _ _
    rw [gt_iff_lt, UInt64.pos_iff_toNat_pos] at hq hp
    rw [Order.wants]
    split
    · exact hq
    · omega
  rw [Config.demand, Config.motion_matching (h.awake a List.mem_cons_self), demandOf_cons,
    if_pos rfl]
  exact Nat.add_pos_left hwants _

/-- An order that trades reaches an order of the scene. -/
private theorem meets (h : Confined z woken ⟨s, .matching a :: K, r⟩) (hd : s.book.Distinct)
    {passive : Order} {rest : List Order} (hrest : s.book.orders a.side.opposite = passive :: rest)
    (ht : Config.trades a passive.price = true) (hq : a.quantity > 0) :
    ∃ x ∈ z.makers woken, x.price = passive.price ∧ z.Meets woken x := by
  obtain ⟨hmem, hside⟩ := ReferenceBook.mem_of_head hrest
  obtain ⟨x, hx, hdesc, hzero⟩ := h.makers (List.cons_ne_nil _ _) passive hmem
  obtain ⟨y, hy, hay⟩ := h.movers a
    (Config.motion_matching (h.awake a List.mem_cons_self) ▸ List.mem_cons_self)
  have hxside : x.side = a.side.opposite := hdesc.side_eq ▸ hside
  refine ⟨x, hx, hdesc.price_eq.symm, ⟨y, hy, ?_, ?_⟩, ?_⟩
  · rw [← hay.side_eq, hxside, Side.opposite_opposite]
  · rw [← hdesc.price_eq, ← ht]
    simp only [Config.trades, Order.crosses, Order.isBuy, Order.isSell, hay.type_eq, hay.side_eq,
      hay.price_eq]
  · by_cases hpq : passive.quantity = 0
    · exact .inr (hzero hpq)
    left
    have hdemand := h.wants_pos hd hmem hside ht hq (UInt64.pos_iff_ne_zero.mpr hpq)
    have hbalance := h.balance a.side fun p ↦ a.side.opposite.cmp p passive.price == .lt
    rw [offered_better hrest] at hbalance
    rw [hxside, Side.opposite_opposite, ← hdesc.price_eq]
    omega

/-- The stops that a trade triggers are `woken`. -/
private theorem wakes_fill {passive : Order} (h : Confined z woken ⟨s, .matching a :: K, r⟩)
    (hd : s.book.Distinct) (hz : z.Closed woken) {rest : List Order}
    (hrest : s.book.orders a.side.opposite = passive :: rest)
    (ht : Config.trades a passive.price = true) (hq : a.quantity > 0) (h0 : passive.price ≠ 0)
    {stop : Order} (hstop : stop ∈ s.pendingStops) (htr : stop.triggeredAt passive.price = true) :
    woken stop.id = true := by
  obtain ⟨x, hx, hprice, hmeets⟩ := h.meets hd hrest ht hq
  have hline : stop ∈ z.stops := h.line stop (List.mem_append_left _ hstop)
  exact hz.stops x hx (hprice ▸ h0) hmeets stop hline (hprice ▸ htr)

/-- The order of a match loop that is not the last one still descends from a converted stop when
it has traded. -/
private theorem followers_fill (h : Confined z woken ⟨s, .matching a :: K, r⟩) {a' b : Order}
    (ha : a'.Descends a) (hb : .matching b ∈ (.matching a' :: K).dropLast) :
    ∃ stop ∈ z.stops, b.Descends stop.converted := by
  cases K with
  | nil => exact absurd hb List.not_mem_nil
  | cons f K =>
    rcases List.mem_cons.mp hb with he | hb
    · obtain rfl := Frame.matching.inj he
      obtain ⟨stop, hstop, hdesc⟩ := h.followers a List.mem_cons_self
      exact ⟨stop, hstop, ha.trans hdesc⟩
    · exact h.followers b (List.mem_cons_of_mem _ hb)

/-- What a trade leaves of the passive order descends from the order it was. -/
private theorem makers_fill {passive : Order} {book' : ReferenceBook} {q : Quantity}
    (h : Confined z woken ⟨s, .matching a :: K, r⟩) (hmem : passive ∈ s.book.allOrders)
    (hf : s.book.Filled passive q book') {o : Order} (ho : o ∈ book'.allOrders) :
    ∃ x ∈ z.makers woken, o.Descends x ∧ (o.quantity = 0 → x.quantity = 0) := by
  rcases List.mem_append.mp (hf.perm.mem_iff.mp ho) with ho | ho
  · obtain ⟨x, hx, hdesc, -⟩ := h.makers (List.cons_ne_nil _ _) passive hmem
    refine ⟨x, hx, (leftAfter_descends ho).trans hdesc, fun h0 ↦ ?_⟩
    have hpos := leftAfter_pos ho
    rw [h0] at hpos
    exact absurd hpos (by decide)
  · exact h.makers (List.cons_ne_nil _ _) o (List.mem_filter.mp ho).1

/-- A match loop trades. -/
private theorem fill {passive : Order} {book' : ReferenceBook} {q : Quantity} {g : GhostEvent}
    {r' : MatchResult} (hd : s.book.Distinct) (h : Confined z woken ⟨s, .matching a :: K, r⟩)
    (hz : z.Closed woken) {a' : Order} (ha : a'.Descends a) {rest : List Order}
    (hrest : s.book.orders a.side.opposite = passive :: rest)
    (ht : Config.trades a passive.price = true) (hq : a.quantity > 0)
    (hf : s.book.Filled passive q book') (hr : r'.rejections = r.rejections)
    (hm : Config.Moves ⟨s, .matching a :: K, r⟩
      (.evaluate ⟨{ s with book := book' }.log g, .matching a' :: K, r'⟩)) :
    Confined z woken (.evaluate ⟨{ s with book := book' }.log g, .matching a' :: K, r'⟩) := by
  have hstack := Config.stack_evaluate
    (⟨{ s with book := book' }.log g, .matching a' :: K, r'⟩ : Config ReferenceBook)
  refine of_moves hd h hm ?_ ?_ ?_ ?_ ?_
  · intro b hb
    rcases List.mem_cons.mp (Config.matching_evaluate hb) with he | hb
    · rw [Frame.matching.inj he, ha.id_eq]
      exact h.awake a List.mem_cons_self
    · exact h.awake b (List.mem_cons_of_mem _ hb)
  · intro p working hmem stop hstop htr
    have hold (hmem : .triggers p working ∈ .matching a' :: K) : woken stop.id = true := by
      have hK := (List.mem_cons.mp hmem).resolve_left (by simp)
      exact h.wakes p working (List.mem_cons_of_mem _ hK) stop hstop htr
    rcases hstack with hstack | ⟨h0, hstack⟩
    · rw [hstack] at hmem
      exact hold hmem
    · rw [hstack] at hmem
      rcases List.mem_cons.mp hmem with he | hmem
      · obtain ⟨rfl, rfl⟩ := Frame.triggers.inj he
        have hlast : lastTradePrice book' = passive.price := hf.last
        exact h.wakes_fill hd hz hrest ht hq (hlast ▸ h0) hstop (hlast ▸ htr)
      · exact hold hmem
  · intro b hb
    rcases hstack with hstack | ⟨-, hstack⟩
    · rw [hstack] at hb
      exact h.followers_fill ha hb
    · rw [hstack] at hb
      exact h.followers_fill ha ((List.mem_cons.mp hb).resolve_left (by simp))
  · intro _ o ho
    rw [evaluate_book] at ho
    exact h.makers_fill (ReferenceBook.mem_of_head hrest).1 hf ho
  · intro rej hrej
    rw [evaluate_result, hr] at hrej
    exact h.refused rej hrej

/-- A trigger loop that has compared a stop. -/
private theorem compared {p : Price} {stop : Order} {working : List Order}
    (h : Confined z woken ⟨s, .triggers p (stop :: working) :: K, r⟩) :
    (∀ b, .matching b ∈ .triggers p working :: K → woken b.id = true) ∧
      (∀ p' working', .triggers p' working' ∈ .triggers p working :: K →
        ∀ x ∈ working', x.triggeredAt p' = true → woken x.id = true) ∧
      ∀ b, .matching b ∈ (.triggers p working :: K).dropLast →
        ∃ stop ∈ z.stops, b.Descends stop.converted := by
  refine ⟨fun b hb ↦ ?_, fun p' working' hmem x hx ↦ ?_, fun b hb ↦ ?_⟩
  · exact h.awake b (List.mem_cons_of_mem _ ((List.mem_cons.mp hb).resolve_left (by simp)))
  · rcases List.mem_cons.mp hmem with he | hmem
    · obtain ⟨rfl, rfl⟩ := Frame.triggers.inj he
      exact h.wakes p' _ List.mem_cons_self x (List.mem_cons_of_mem _ hx)
    · exact h.wakes p' working' (List.mem_cons_of_mem _ hmem) x hx
  · cases K with
    | nil => exact absurd hb List.not_mem_nil
    | cons f K =>
      exact h.followers b (List.mem_cons_of_mem _ ((List.mem_cons.mp hb).resolve_left (by simp)))

/-- Every move keeps the invariant. -/
theorem moves {U : OrderId → Prop} (ho : Orderly U c) (h : Confined z woken c)
    (hz : z.Closed woken) (hm : Config.Moves c d) : Confined z woken d := by
  have hm' := hm
  cases hm with
  | @filled s a K r hq =>
    refine h.leave ho.distinct hm' ?_ h.refused
    by_cases hK : K = []
    · exact .inr (.inr hK)
    · rw [Config.settle_markFilled hq fun ht ↦ absurd ht (h.follower_type hK)]
      exact .inl rfl
  | @uncrossed s a K r p hq | @unopposed s a K r hq =>
    exact h.leave ho.distinct hm' (h.settle_follower hq) h.refused
  | @exhausted s a K r hq hb ht =>
    refine h.leave ho.distinct hm' (.inl rfl) fun rej hrej ↦ ?_
    rcases List.mem_append.mp hrej with hrej | hrej
    · exact h.refused rej hrej
    · obtain rfl := List.mem_singleton.mp hrej
      obtain ⟨x, hx, hdesc⟩ := h.movers a
        (Config.motion_matching (h.awake a List.mem_cons_self) ▸ List.mem_cons_self)
      exact ⟨x, hx, hdesc.type_eq ▸ ht, hdesc.id_eq.symm, hdesc.side_eq ▸ h.not_covers hq ht hb⟩
  | @fill s a passive K r p key book book' q hqa hb ht hp hq hs =>
    obtain ⟨rfl, rfl, ⟨rest, hrest⟩, hbest⟩ := ho.distinct.of_pickPassive hp
    obtain rfl := Option.some.inj (hb.symm.trans hbest)
    have hf := ho.distinct.filled (ReferenceBook.mem_of_head hrest).1 hs
    exact h.fill ho.distinct hz ⟨rfl, rfl, rfl, rfl, rfl, Nat.le_refl _⟩ hrest ht hqa hf rfl hm'
  | @evaluated s p K r =>
    exact of_moves ho.distinct h hm' (fun b hb ↦ h.awake b (List.mem_cons_of_mem _ hb))
      (fun p working hmem ↦ h.wakes p working (List.mem_cons_of_mem _ hmem))
      (fun b hb ↦ h.followers b (mem_dropLast_cons hb))
      (fun _ ↦ h.makers (List.cons_ne_nil _ _)) h.refused
  | @triggered s p stop working K r ht =>
    have hstop : stop ∈ z.stops :=
      h.line stop (List.mem_append_right _ (List.mem_append_left _ List.mem_cons_self))
    obtain ⟨hawake, hwakes, hfollowers⟩ := h.compared
    refine of_moves ho.distinct h hm' ?_ ?_ ?_ (fun _ ↦ h.makers (List.cons_ne_nil _ _)) h.refused
    · intro b hb
      rcases List.mem_cons.mp hb with he | hb
      · rw [Frame.matching.inj he]
        exact (converted_id stop).symm ▸ h.wakes p _ List.mem_cons_self stop List.mem_cons_self ht
      · exact hawake b hb
    · intro p' working' hmem
      exact hwakes p' working' ((List.mem_cons.mp hmem).resolve_left (by simp))
    · intro b hb
      rcases List.mem_cons.mp hb with he | hb
      · rw [Frame.matching.inj he]
        exact ⟨stop, hstop, stop.converted.descends_status _⟩
      · exact hfollowers b hb
  | @kept s p stop working K r ht =>
    obtain ⟨hawake, hwakes, hfollowers⟩ := h.compared
    exact of_moves ho.distinct h hm' hawake hwakes hfollowers
      (fun _ ↦ h.makers (List.cons_ne_nil _ _)) h.refused

end Confined

/-! ### Events -/

section Run

variable {Ok : Engine ReferenceBook → OrderEvent → Prop} {es : List OrderEvent} {e : OrderEvent}
  {t t₀ t' : Engine ReferenceBook} {rs : List MatchResult} {r : MatchResult} {o : Order}
  {woken : OrderId → Bool}

/-- The invariant rule for an event that submits an order: the order waits as a stop, or what its
match loop starts with and every move preserves holds at the end. -/
theorem Run.scene_induction (h : Run Ok es t rs) (hf : Fresh (es ++ [e])) (hs : Submits t e t' r)
    (hstart : Config.start t e = .enter t₀ o [] {})
    (hz : (sceneOf ReferenceBook.allOrders t₀ o).Closed woken) {P : Config ReferenceBook → Prop}
    (h₀ : ∀ a g, t₀.incoming o = [a] →
      Config.start t e = ⟨{ t₀ with ghost := g }, [.matching a], {}⟩ →
      P ⟨{ t₀ with ghost := g }, [.matching a], {}⟩)
    (hP : ∀ c d, Orderly (· ∈ submittedIds (es ++ [e])) c →
      Confined (sceneOf ReferenceBook.allOrders t₀ o) woken c → P c → Config.Moves c d → P d) :
    Config.start t e = ⟨t', [], r⟩ ∨
      Confined (sceneOf ReferenceBook.allOrders t₀ o) woken ⟨t', [], r⟩ ∧ P ⟨t', [], r⟩ := by
  rcases enter_incoming t₀ o [] {} with ⟨-, hidle⟩ | ⟨a, g, ha, -, henter⟩
  · exact .inl (hs.of_idle (hstart ▸ hidle))
  · right
    refine h.submit_induction hf hs (P := fun c ↦
      Confined (sceneOf ReferenceBook.allOrders t₀ o) woken c ∧ P c) (fun _ ↦ ?_)
      fun c d ho hc hm ↦ ?_
    · rw [hstart, henter]
      exact ⟨.start hz ha, h₀ a g ha (hstart.trans henter)⟩
    · exact ⟨hc.1.moves ho hz hm, hP c d ho hc.1 hc.2 hm⟩

/-- An event rejects only market orders of the scene whose side is not covered. -/
theorem Run.refused (h : Run Ok es t rs) (hf : Fresh (es ++ [e])) (hs : Submits t e t' r)
    (hstart : Config.start t e = .enter t₀ o [] {})
    (hz : (sceneOf ReferenceBook.allOrders t₀ o).Closed woken) : ∀ rej ∈ r.rejections,
      ∃ x ∈ (sceneOf ReferenceBook.allOrders t₀ o).movers woken, x.type = .market ∧
        x.id = rej.orderId ∧ ¬(sceneOf ReferenceBook.allOrders t₀ o).Covers woken x.side := by
  rcases h.scene_induction hf hs hstart hz (P := fun _ ↦ True) (fun _ _ _ _ ↦ trivial)
    (fun _ _ _ _ _ _ ↦ trivial) with hidle | ⟨hend, -⟩
  · obtain rfl : {} = r := by
      have hr := congrArg Config.result hidle
      rwa [hstart, enter_result] at hr
    exact fun rej hrej ↦ absurd hrej List.not_mem_nil
  · exact hend.refused

end Run

/-! ### The scene in the engine -/

private theorem incoming_congr {B B' : Type} [BookOps B] [BookOps B'] {s : Engine B} {t : Engine B'}
    (h : lastTradePrice s.book = lastTradePrice t.book) (o : Order) :
    s.incoming o = t.incoming o := by
  have htriggered : s.immediatelyTriggered o.accepted = t.immediatelyTriggered o.accepted := by
    rw [immediatelyTriggered, immediatelyTriggered, h]
  unfold Engine.incoming
  rw [htriggered]

namespace Scene

variable {os os' stops incoming : List Order} {woken : OrderId → Bool}

theorem reach_perm (h : List.Perm os os') :
    (⟨os, stops, incoming⟩ : Scene).reach woken = (⟨os', stops, incoming⟩ : Scene).reach woken := by
  funext side m
  rw [reach, reach, reachOf, reachOf, offered_perm h]
  rfl

private theorem demand_perm (h : List.Perm os os') (side : Side) :
    (⟨os, stops, incoming⟩ : Scene).demand woken side =
      (⟨os', stops, incoming⟩ : Scene).demand woken side := by
  rw [demand, demand, reach_perm h]
  rfl

theorem Covers.perm (h : List.Perm os os') {side : Side}
    (hc : (⟨os, stops, incoming⟩ : Scene).Covers woken side) :
    (⟨os', stops, incoming⟩ : Scene).Covers woken side := by
  rw [Covers, ← demand_perm h, ← offered_perm h]
  exact hc

theorem Closed.perm (h : List.Perm os os') (hc : (⟨os, stops, incoming⟩ : Scene).Closed woken) :
    (⟨os', stops, incoming⟩ : Scene).Closed woken where
  incoming := hc.incoming
  stops x hx h0 hmeets := by
    obtain ⟨hmover, hdepth⟩ := hmeets
    rw [← demand_perm h, ← offered_perm h] at hdepth
    exact hc.stops x ((h.symm.append_right _).mem_iff.mp hx) h0 ⟨hmover, hdepth⟩

end Scene

section Represented

variable {L : Type} [PriceLevelOps L] [LawfulPriceLevel L] {s : Engine (OrderBook L)}
  {t : Engine ReferenceBook} {woken : OrderId → Bool}

/-- An order finds the same scene in the reference engine, up to the order of the resting orders. -/
theorem sceneOf_represented (hb : Represents s.book t.book) (hp : t.pendingStops = s.pendingStops)
    (o : Order) : sceneOf ReferenceBook.allOrders t o =
      ⟨t.book.allOrders, s.pendingStops, s.incoming o⟩ := by
  rw [sceneOf, hp, incoming_congr (s := t) (t := s) hb.last.symm]

end Represented

end LobEngine
