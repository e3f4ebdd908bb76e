import LobEngine.Properties.Ledger

/-!
# One match loop without stops

A match loop that triggers no stop runs alone: it takes the opposite orders from the best price
on, one fill at a time, and the hidden reserve of an iceberg comes back behind the orders of its
price. `Sweep` is the invariant of the loop. It measures an order by what it can still trade
passively, so that every fill moves one quantity from the offer to the trades. `Swept` lists the
ways in which the loop is left.
-/

namespace LobEngine

open BookOps Engine

/-- The sum of the quantities of trades. -/
def volume (ts : List Trade) : Nat := (ts.map fun t ↦ t.quantity.toNat).sum

/-- What the orders of a side at the prices that pass a test hold of a measure. -/
def offered (μ : Order → Nat) (side : Side) (m : Price → Bool) (os : List Order) : Nat :=
  os.sumOver (fun x ↦ x.side == side && m x.price) μ

/-- No trade has a better price for an aggressor on the side than an earlier one. -/
def NeverImproves (side : Side) (ts : List Trade) : Prop :=
  ts.Pairwise fun t t' ↦ match side with
    | .buy => t.price ≤ t'.price
    | .sell => t'.price ≤ t.price

/-! ### Measures -/

@[simp] theorem volume_nil : volume [] = 0 := rfl

private theorem volume_concat (ts : List Trade) (t : Trade) :
    volume (ts ++ [t]) = volume ts + t.quantity.toNat := by
  rw [volume, List.map_append, List.sum_append]
  rfl

section Offered

variable {μ : Order → Nat} {side : Side} {m : Price → Bool}

theorem offered_cons (o : Order) (os : List Order) : offered μ side m (o :: os) =
    (if o.side = side ∧ m o.price = true then μ o else 0) + offered μ side m os := by
  rw [offered, List.sumOver_cons]
  simp only [Bool.and_eq_true, beq_iff_eq]
  rfl

theorem offered_append (os os' : List Order) :
    offered μ side m (os ++ os') = offered μ side m os + offered μ side m os' :=
  List.sumOver_append _ _ _ _

theorem offered_perm {os os' : List Order} (h : List.Perm os os') :
    offered μ side m os = offered μ side m os' := h.sumOver_eq

/-- Nothing is offered where no price passes the test. -/
theorem offered_eq_zero {b : ReferenceBook} (h : ∀ x ∈ b.orders side, m x.price = false) :
    offered μ side m b.allOrders = 0 := by
  apply List.sumOver_eq_zero
  intro x hx
  by_cases hside : x.side = side
  · rw [h x (ReferenceBook.mem_orders.mpr ⟨hx, hside⟩), Bool.and_false]
  · rw [beq_eq_false_iff_ne.mpr hside, Bool.false_and]

/-- No order is worth more than the offer it belongs to. -/
theorem worth_le_offered {b : ReferenceBook} {o : Order} (hd : b.Distinct) (ho : o ∈ b.allOrders)
    (hs : o.side = side) (hm : m o.price = true) :
    o.worth ≤ offered Order.worth side m b.allOrders := by
  rw [offered_perm (hd.perm_of_mem ho), offered_cons, if_pos ⟨hs, hm⟩]
  omega

/-- What is left of an order is offered where the order was. -/
private theorem offered_leftAfter {o : Order} {q : Quantity}
    (ho : o.side = side ∧ m o.price = true) :
    offered μ side m (o.leftAfter q).toList = ((o.leftAfter q).toList.map μ).sum := by
  cases hl : o.leftAfter q with
  | none => rfl
  | some x =>
    have hd : x.Descends o := leftAfter_descends (q := q) (by simp [hl])
    rw [Option.toList_some, offered_cons, hd.side_eq, hd.price_eq, if_pos ho]
    rfl

/-- A fill takes its quantity out of every offer that the passive order belongs to. -/
theorem offered_filled {b b' : ReferenceBook} {o : Order} {q : Quantity} (hf : b.Filled o q b')
    (hd : b.Distinct) (ho : o ∈ b.allOrders) (hm : o.side = side ∧ m o.price = true)
    (hq : q ≤ o.quantity) :
    offered Order.worth side m b'.allOrders + q.toNat =
      offered Order.worth side m b.allOrders := by
  have hleft := worth_leftAfter hq
  rw [offered_perm hf.perm, offered_perm (hd.perm_of_mem ho), offered_append, offered_cons,
    offered_leftAfter hm, if_pos hm]
  omega

end Offered

/-! ### The loop -/

/-- From the book `b` and the order `a₀`, a match loop has reached the engine `s`, the order `a`
and the result `r`. -/
structure Sweep (b : ReferenceBook) (a₀ : Order) (s : Engine ReferenceBook) (a : Order)
    (r : MatchResult) : Prop where
  calm : s.pendingStops = []
  same : a = { a₀ with quantity := a.quantity }
  spent : volume r.trades + a.quantity.toNat = a₀.quantity.toNat
  taken : ∀ m : Price → Bool, (∀ p, Config.trades a₀ p = true → m p = true) →
    offered Order.worth a₀.side.opposite m s.book.allOrders + volume r.trades =
      offered Order.worth a₀.side.opposite m b.allOrders
  refused : ∀ p, Config.trades a₀ p = false →
    s.book.atPrice a₀.side.opposite p = b.atPrice a₀.side.opposite p
  descends : ∀ x ∈ s.book.allOrders, ∃ y ∈ b.allOrders, x.Descends y
  mine : ∀ t ∈ r.trades, t.aggressorId = a₀.id
  ordered : r.trades.Pairwise fun t t' ↦
    (a₀.side.opposite.cmp t.price t'.price).isLE = true
  reached : ∀ t ∈ r.trades, ∀ x ∈ s.book.orders a₀.side.opposite,
    (a₀.side.opposite.cmp t.price x.price).isLE = true
  quiet : r.rejections = []

namespace Sweep

variable {b : ReferenceBook} {a₀ a : Order} {s : Engine ReferenceBook} {r : MatchResult}

theorem start (hs : s.pendingStops = []) : Sweep s.book a₀ s a₀ {} where
  calm := hs
  same := rfl
  spent := Nat.zero_add _
  taken _ _ := rfl
  refused _ _ := rfl
  descends x hx := ⟨x, hx, .refl x⟩
  mine _ ht := absurd ht List.not_mem_nil
  ordered := .nil
  reached _ ht := absurd ht List.not_mem_nil
  quiet := rfl

theorem side_eq (h : Sweep b a₀ s a r) : a.side = a₀.side := by rw [h.same]

theorem id_eq (h : Sweep b a₀ s a r) : a.id = a₀.id := by rw [h.same]

theorem type_eq (h : Sweep b a₀ s a r) : a.type = a₀.type := by rw [h.same]

theorem own (h : Sweep b a₀ s a r) : a.Descends a₀ := by
  rw [h.same]
  exact ⟨rfl, rfl, rfl, rfl, rfl, Nat.le_refl _⟩

theorem trades_eq (h : Sweep b a₀ s a r) (p : Price) :
    Config.trades a p = Config.trades a₀ p := by
  rw [h.same]
  rfl

/-- One iteration that fills. -/
theorem fill (h : Sweep b a₀ s a r) (hd : s.book.Distinct) {o : Order} {rest : List Order}
    (ho : s.book.orders a₀.side.opposite = o :: rest) (ht : Config.trades a₀ o.price = true)
    {q : Quantity} (hq : q = min a.quantity o.quantity) {b' : ReferenceBook}
    (hf : s.book.Filled o q b') :
    Sweep b a₀ ({ s with book := b' }.log (.fill (fillTrade a o q)))
      { a with quantity := a.quantity - q } (r.pushTrade (fillTrade a o q)) := by
  obtain ⟨hmem, hside⟩ := ReferenceBook.mem_of_head ho
  have hqa : q ≤ a.quantity := hq ▸ Std.min_le_left
  have hqo : q ≤ o.quantity := hq ▸ Std.min_le_right
  have htrades : (r.pushTrade (fillTrade a o q)).trades = r.trades ++ [fillTrade a o q] := rfl
  have hvolume : volume (r.trades ++ [fillTrade a o q]) = volume r.trades + q.toNat :=
    volume_concat _ _
  constructor
  · exact h.calm
  · have hsame := h.same
    rw [hsame]
  · have hsub := UInt64.toNat_sub_of_le _ _ hqa
    have hspent := h.spent
    rw [UInt64.le_iff_toNat_le] at hqa
    rw [htrades, hvolume, hsub]
    omega
  · intro m hm
    have htaken := h.taken m hm
    have hfilled := offered_filled hf hd hmem ⟨hside, hm _ ht⟩ hqo
    rw [htrades, hvolume]
    change offered Order.worth a₀.side.opposite m b'.allOrders + _ = _
    omega
  · intro p hp
    have hne : ¬(o.side = a₀.side.opposite ∧ o.price = p) := by
      rintro ⟨-, rfl⟩
      rw [ht] at hp
      exact absurd hp (by decide)
    exact (hf.elsewhere hne).trans (h.refused p hp)
  · intro x hx
    obtain ⟨y, hy, hxy⟩ := hf.descends hmem hx
    obtain ⟨z, hz, hyz⟩ := h.descends y hy
    exact ⟨z, hz, hxy.trans hyz⟩
  · intro t ht'
    rcases List.mem_append.mp (htrades ▸ ht') with ht' | ht'
    · exact h.mine t ht'
    · obtain rfl := List.mem_singleton.mp ht'
      exact h.id_eq
  · rw [htrades, List.pairwise_append]
    refine ⟨h.ordered, List.pairwise_singleton _ _, ?_⟩
    intro t ht' t' ht''
    obtain rfl := List.mem_singleton.mp ht''
    exact h.reached t ht' o (ho ▸ List.mem_cons_self)
  · -- what rests after the fill descends from what rested before, and `o` was the first of that
    intro t ht' x hx
    obtain ⟨hx, hxside⟩ := ReferenceBook.mem_orders.mp hx
    obtain ⟨y, hy, hxy⟩ := hf.descends hmem hx
    have hyside : y ∈ s.book.orders a₀.side.opposite :=
      ReferenceBook.mem_orders.mpr ⟨hy, hxy.side_eq ▸ hxside⟩
    rw [hxy.price_eq]
    rcases List.mem_append.mp (htrades ▸ ht') with ht' | ht'
    · exact h.reached t ht' y hyside
    · obtain rfl := List.mem_singleton.mp ht'
      exact ReferenceBook.best_le ho hyside
  · exact h.quiet

end Sweep

/-- How the match loop of `a₀` on the book `b` is left: filled; with some quantity, where no
opposite order trades with it; or, as a market order, exhausted. -/
inductive Swept (b : ReferenceBook) (a₀ : Order) : Engine ReferenceBook → MatchResult → Prop
  | filled {s : Engine ReferenceBook} {a : Order} {r : MatchResult} :
      Sweep b a₀ s a r → a.quantity = 0 → Swept b a₀ (Config.settle s (markFilled a)) r
  | blocked {s : Engine ReferenceBook} {a : Order} {r : MatchResult} :
      Sweep b a₀ s a r → a.quantity > 0 → a₀.type ≠ .market →
      (∀ x ∈ s.book.orders a₀.side.opposite, Config.trades a₀ x.price = false) →
      Swept b a₀ (Config.settle s a) r
  | exhausted {s : Engine ReferenceBook} {a : Order} {r : MatchResult} :
      Sweep b a₀ s a r → a.quantity > 0 → a₀.type = .market →
      s.book.orders a₀.side.opposite = [] →
      Swept b a₀ (s.log (.exhausted (exhaustion a))) (r.pushRejection (exhaustion a))

/-- The machine in or after such a loop. -/
def Sweeping (b : ReferenceBook) (a₀ : Order) (c : Config ReferenceBook) : Prop :=
  (∃ a, c.stack = [.matching a] ∧ Sweep b a₀ c.engine a c.result) ∨
    c.stack = [] ∧ Swept b a₀ c.engine c.result

/-- A move goes on with the loop or leaves it. -/
theorem Sweeping.moves {U : OrderId → Prop} {b : ReferenceBook} {a₀ : Order}
    {c d : Config ReferenceBook} (ho : Orderly U c) (h : Sweeping b a₀ c)
    (hm : Config.Moves c d) : Sweeping b a₀ d := by
  have hnil {side : Side} {b : ReferenceBook} (hb : BookOps.bestPrice b side = none) :
      b.orders side = [] := by
    apply List.eq_nil_iff_forall_not_mem.mpr
    intro x hx
    exact ReferenceBook.not_mem_of_bestPrice_none hb x (ReferenceBook.mem_orders.mp hx)
  rcases h with ⟨a', hstack, h⟩ | ⟨hstack, -⟩
  · cases hm with
    | @filled s a K r hq =>
      obtain ⟨he, rfl⟩ := List.cons.inj hstack
      obtain rfl := Frame.matching.inj he
      exact .inr ⟨rfl, .filled h hq⟩
    | @uncrossed s a K r p hq hb ht =>
      obtain ⟨he, rfl⟩ := List.cons.inj hstack
      obtain rfl := Frame.matching.inj he
      have hcross : a.crosses p = false ∧ a.type ≠ .market := by
        rw [Config.trades, Bool.or_eq_false_iff] at ht
        exact ⟨ht.2, by simpa using ht.1⟩
      refine .inr ⟨rfl, .blocked h hq (h.type_eq ▸ hcross.2) fun x hx ↦ ?_⟩
      obtain ⟨o, rest, hrest, rfl⟩ := ReferenceBook.exists_best hb
      rw [← h.side_eq] at hx
      have hback := Order.crosses_of_behind hcross.1 (ReferenceBook.best_le hrest hx)
      rw [← h.trades_eq, Config.trades, hback, Bool.or_false]
      simpa using hcross.2
    | @exhausted s a K r hq hb ht =>
      obtain ⟨he, rfl⟩ := List.cons.inj hstack
      obtain rfl := Frame.matching.inj he
      exact .inr ⟨rfl, .exhausted h hq (h.type_eq ▸ ht) (h.side_eq ▸ hnil hb)⟩
    | @unopposed s a K r hq hb ht =>
      obtain ⟨he, rfl⟩ := List.cons.inj hstack
      obtain rfl := Frame.matching.inj he
      refine .inr ⟨rfl, .blocked h hq (h.type_eq ▸ ht) fun x hx ↦ ?_⟩
      rw [← h.side_eq, hnil hb] at hx
      exact absurd hx List.not_mem_nil
    | @fill s a passive K r p key book book' q hq hb ht hp hqq hset =>
      obtain ⟨he, rfl⟩ := List.cons.inj hstack
      obtain rfl := Frame.matching.inj he
      obtain ⟨rfl, rfl, ⟨rest, hrest⟩, hbest⟩ := ho.distinct.of_pickPassive hp
      obtain rfl := Option.some.inj (hb.symm.trans hbest)
      have hf := ho.distinct.filled (ReferenceBook.mem_of_head hrest).1 hset
      have hfill := h.fill ho.distinct (h.side_eq ▸ hrest) (h.trades_eq _ ▸ ht) hqq hf
      have hcalm : ({ s with book := book' }.log (.fill (fillTrade a passive q))).pendingStops =
          [] := h.calm
      rw [Config.evaluate, if_pos hcalm]
      exact .inl ⟨_, rfl, hfill⟩
    | evaluated | triggered | kept => exact absurd (List.cons.inj hstack).1 (by simp)
  · cases hm <;> exact absurd hstack (List.cons_ne_nil _ _)

/-- An event that starts one match loop and meets no pending stop runs that loop. -/
theorem Run.swept {Ok : Engine ReferenceBook → OrderEvent → Prop} {es : List OrderEvent}
    {e : OrderEvent} {t t₀ t' : Engine ReferenceBook} {rs : List MatchResult} {r : MatchResult}
    {a : Order} (h : Run Ok es t rs) (hf : Fresh (es ++ [e])) (hs : Submits t e t' r)
    (hstart : Config.start t e = ⟨t₀, [.matching a], {}⟩) (hp : t₀.pendingStops = []) :
    Swept t₀.book a t' r := by
  have hall : Sweeping t₀.book a ⟨t', [], r⟩ := by
    apply h.submit_induction hf hs
    · intro _
      rw [hstart]
      exact .inl ⟨a, rfl, .start hp⟩
    · intro c d ho hc hm
      exact hc.moves ho hm
  rcases hall with ⟨a, hstack, -⟩ | ⟨-, hswept⟩
  · exact absurd hstack (List.cons_ne_nil _ _).symm
  · exact hswept

/-! ### What the loop leaves -/

/-- An order that comes to rest leaves the other side alone. -/
theorem atPrice_settle (s : Engine ReferenceBook) (a : Order) (p : Price) :
    (Config.settle s a).book.atPrice a.side.opposite p = s.book.atPrice a.side.opposite p := by
  rcases Config.settle_eq s a with h | h
  · rw [h]
  · rw [h]
    change (s.book.insertOrder a).atPrice a.side.opposite p = _
    rw [ReferenceBook.atPrice_insertOrder, if_neg fun h ↦ Side.opposite_ne _ h.1.symm,
      List.append_nil]

namespace Sweep

variable {b : ReferenceBook} {a₀ a : Order} {s : Engine ReferenceBook} {r : MatchResult}

/-- The loop does not add its own order. -/
theorem absent (h : Sweep b a₀ s a r) (hnew : ∀ x ∈ b.allOrders, x.id ≠ a₀.id) :
    s.book.findOrder a₀.id = none := by
  rw [ReferenceBook.findOrder_eq_none_iff]
  intro x hx
  obtain ⟨y, hy, hxy⟩ := h.descends x hx
  rw [hxy.id_eq]
  exact hnew y hy

/-- What the loop can take at most. -/
theorem le_offered (h : Sweep b a₀ s a r) : volume r.trades ≤
    offered Order.worth a₀.side.opposite (Config.trades a₀) b.allOrders := by
  have htaken := h.taken (Config.trades a₀) fun _ hp ↦ hp
  omega

/-- A loop that no opposite order trades with has taken the whole offer. -/
theorem eq_offered (h : Sweep b a₀ s a r)
    (hnone : ∀ x ∈ s.book.orders a₀.side.opposite, Config.trades a₀ x.price = false) :
    volume r.trades = offered Order.worth a₀.side.opposite (Config.trades a₀) b.allOrders := by
  have htaken := h.taken (Config.trades a₀) fun _ hp ↦ hp
  have hzero : offered Order.worth a₀.side.opposite (Config.trades a₀) s.book.allOrders = 0 :=
    offered_eq_zero hnone
  omega

end Sweep

namespace Swept

variable {b : ReferenceBook} {a₀ : Order} {t : Engine ReferenceBook} {r : MatchResult}

/-- What the loop leaves is its last state, up to its own order. -/
theorem last (h : Swept b a₀ t r) : ∃ s a r₀, Sweep b a₀ s a r₀ ∧ r.trades = r₀.trades ∧
    (t.book = s.book ∨ ∃ x, x.Descends a₀ ∧ t.book = s.book.insertOrder x) ∧
    (a.quantity = 0 ∨
      ∀ x ∈ s.book.orders a₀.side.opposite, Config.trades a₀ x.price = false) := by
  have hsettle (s : Engine ReferenceBook) {a : Order} (ha : a.Descends a₀) :
      (Config.settle s a).book = s.book ∨
        ∃ x, x.Descends a₀ ∧ (Config.settle s a).book = s.book.insertOrder x := by
    rcases Config.settle_eq s a with hs | hs
    · exact .inl (congrArg Engine.book hs)
    · exact .inr ⟨a, ha, congrArg Engine.book hs⟩
  cases h with
  | @filled s a r hsweep hq =>
    have hdesc := (markFilled_descends a).trans hsweep.own
    exact ⟨s, a, r, hsweep, rfl, hsettle s hdesc, .inl hq⟩
  | @blocked s a r hsweep _ _ hnone =>
    exact ⟨s, a, r, hsweep, rfl, hsettle s hsweep.own, .inr hnone⟩
  | @exhausted s a r hsweep _ _ hnil =>
    refine ⟨s, a, r, hsweep, rfl, .inl rfl, .inr fun x hx ↦ ?_⟩
    rw [hnil] at hx
    exact absurd hx List.not_mem_nil

/-- The trades sum to the smaller of the order's quantity and the offer. -/
theorem volume_eq (h : Swept b a₀ t r) : volume r.trades = min a₀.quantity.toNat
    (offered Order.worth a₀.side.opposite (Config.trades a₀) b.allOrders) := by
  obtain ⟨s, a, r₀, hsweep, htrades, -, hend⟩ := h.last
  have hspent := hsweep.spent
  rw [htrades]
  rcases hend with hq | hnone
  · have hle := hsweep.le_offered
    rw [hq, UInt64.toNat_zero] at hspent
    omega
  · have heq := hsweep.eq_offered hnone
    omega

/-- The offer falls by what was traded. -/
theorem taken (h : Swept b a₀ t r) {m : Price → Bool}
    (hm : ∀ p, Config.trades a₀ p = true → m p = true) :
    offered Order.worth a₀.side.opposite m t.book.allOrders + volume r.trades =
      offered Order.worth a₀.side.opposite m b.allOrders := by
  obtain ⟨s, a, r₀, hsweep, htrades, hbook, -⟩ := h.last
  have hsame : offered Order.worth a₀.side.opposite m t.book.allOrders =
      offered Order.worth a₀.side.opposite m s.book.allOrders := by
    rcases hbook with hb | ⟨x, hx, hb⟩
    · rw [hb]
    · have hne : ¬(x.side = a₀.side.opposite ∧ m x.price = true) := by
        rw [hx.side_eq]
        exact fun hx ↦ Side.opposite_ne _ hx.1.symm
      rw [hb, offered_perm (ReferenceBook.allOrders_insertOrder _ _), offered_cons, if_neg hne,
        Nat.zero_add]
  rw [hsame, htrades]
  exact hsweep.taken m hm

/-- The orders of the other side are those that the last iteration left. -/
private theorem atPrice_last {s : Engine ReferenceBook}
    (hb : t.book = s.book ∨ ∃ x, x.Descends a₀ ∧ t.book = s.book.insertOrder x) (p : Price) :
    t.book.atPrice a₀.side.opposite p = s.book.atPrice a₀.side.opposite p := by
  rcases hb with hb | ⟨x, hx, hb⟩
  · rw [hb]
  · have hne : ¬(x.side = a₀.side.opposite ∧ x.price = p) := by
      rw [hx.side_eq]
      exact fun hx ↦ Side.opposite_ne _ hx.1.symm
    rw [hb, ReferenceBook.atPrice_insertOrder, if_neg hne, List.append_nil]

/-- Prices at which the order does not trade keep their orders. -/
theorem refused (h : Swept b a₀ t r) {p : Price} (hp : Config.trades a₀ p = false) :
    t.book.atPrice a₀.side.opposite p = b.atPrice a₀.side.opposite p := by
  obtain ⟨s, a, r₀, hsweep, -, hbook, -⟩ := h.last
  exact (atPrice_last hbook p).trans (hsweep.refused p hp)

/-- What rests opposite descends from what rested before. -/
theorem descends (h : Swept b a₀ t r) {x : Order} (hx : x ∈ t.book.allOrders)
    (hside : x.side = a₀.side.opposite) : ∃ y ∈ b.allOrders, x.Descends y := by
  obtain ⟨s, a, r₀, hsweep, -, hbook, -⟩ := h.last
  apply hsweep.descends x
  have hat := ReferenceBook.mem_atPrice.mpr ⟨hx, hside, rfl⟩
  rw [atPrice_last hbook] at hat
  exact (ReferenceBook.mem_atPrice.mp hat).1

theorem mine (h : Swept b a₀ t r) : ∀ tr ∈ r.trades, tr.aggressorId = a₀.id := by
  obtain ⟨s, a, r₀, hsweep, htrades, -⟩ := h.last
  rw [htrades]
  exact hsweep.mine

theorem neverImproves (h : Swept b a₀ t r) : NeverImproves a₀.side r.trades := by
  obtain ⟨s, a, r₀, hsweep, htrades, -⟩ := h.last
  have hordered := hsweep.ordered
  rw [← htrades] at hordered
  apply hordered.imp
  intro tr tr' hle
  cases hs : a₀.side with
  | buy =>
    rw [hs] at hle
    exact Std.isLE_compare.mp hle
  | sell =>
    rw [hs] at hle
    exact Std.isLE_compare.mp hle

end Swept

end LobEngine
