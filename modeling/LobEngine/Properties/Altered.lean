import LobEngine.Book.Alteration
import LobEngine.Properties.Ledger

/-!
# Runs that differ in one order

The reference machine with an order `x`, and the machine over the book in which `x` is erased or
has another quantity. As long as no result mentions `x`, the second machine makes the moves of
the first, apart from those of `x` itself, and returns the same result. A change that matching
does not read is never seen, whether `x` is mentioned or not.
-/

namespace LobEngine

open BookOps Engine Stepper

/-- A trade, a report or a rejection names the order. -/
def MatchResult.Mentions (r : MatchResult) (id : OrderId) : Prop :=
  (∃ t ∈ r.trades, t.involves id = true) ∨ (∃ rep ∈ r.reports, rep.orderId = id) ∨
    ∃ rej ∈ r.rejections, rej.orderId = id

instance (r : MatchResult) (id : OrderId) : Decidable (r.Mentions id) :=
  inferInstanceAs (Decidable (_ ∨ _ ∨ _))

/-- A move takes nothing back. -/
private theorem Config.Moves.mentions {c d : Config ReferenceBook} (h : Config.Moves c d)
    {x : OrderId} (hx : c.result.Mentions x) : d.result.Mentions x := by
  have hpush {r : MatchResult} {t : Trade} (hr : r.Mentions x) : (r.pushTrade t).Mentions x := by
    rcases hr with ⟨u, hu, hux⟩ | hr
    · exact .inl ⟨u, List.mem_append_left _ hu, hux⟩
    · exact .inr hr
  cases h with
  | fill =>
    rw [evaluate_result]
    exact hpush hx
  | exhausted =>
    rcases hx with hx | hx | ⟨rej, hrej, hid⟩
    · exact .inl hx
    · exact .inr (.inl hx)
    · exact .inr (.inr ⟨rej, List.mem_append_left _ hrej, hid⟩)
  | filled | uncrossed | unopposed | evaluated | triggered | kept => exact hx

/-- A trade mentions its orders. -/
private theorem mentions_pushTrade {r : MatchResult} {t : Trade} {x : OrderId}
    (h : t.involves x = true) : (r.pushTrade t).Mentions x :=
  .inl ⟨t, List.mem_append_right _ List.mem_cons_self, h⟩

/-! ### The order itself -/

/-- If the order comes to rest without a trade, it rests with a status that can be cancelled. -/
structure Order.RestsAlive (a : Order) : Prop where
  resting : a.isResting = true
  empty : a.quantity = 0 → a.type = .iceberg → a.reserveQty = 0

/-- What the change `f` of the order `x` relies on: `x` can still enter the book only if it is
erased there, and it can be cancelled as long as it is in the book. -/
structure Intact (x : OrderId) (f : Change) (c : Config ReferenceBook) : Prop where
  gone : f = .erase ∨ ∀ o ∈ c.engine.outstanding c.stack, o.id ≠ x
  loops : ∀ a, .matching a ∈ c.stack → a.id = x → a.RestsAlive
  resting : ∀ o ∈ c.engine.book.allOrders, o.id = x → o.isResting = true

/-- A fill does not change the status of its passive order. -/
private theorem leftAfter_status {o y : Order} {q : Quantity} (h : y ∈ (o.leftAfter q).toList) :
    y.status = o.status := by
  rw [Option.mem_toList, Order.leftAfter] at h
  split at h
  · split at h
    · obtain rfl := Option.some.inj h
      rfl
    · exact absurd h (by simp)
  · obtain rfl := Option.some.inj h
    rfl

namespace Intact

variable {x : OrderId} {f : Change} {s : Engine ReferenceBook} {K : List Frame}
  {r : MatchResult} {a : Order} {c d : Config ReferenceBook}

/-- An order that is outstanding under the name `x` can only be erased. -/
private theorem erased (h : Intact x f ⟨s, .matching a :: K, r⟩) (ha : a.id = x) : f = .erase :=
  h.gone.resolve_right fun hne ↦ hne a List.mem_cons_self ha

/-- Leaving a match loop whose order is alive if it rests. -/
private theorem resting_settle (h : Intact x f ⟨s, .matching a :: K, r⟩)
    (ha : a.id = x → a.isResting = true) {o : Order}
    (ho : o ∈ (Config.settle s a).book.allOrders) (hx : o.id = x) : o.isResting = true := by
  rcases mem_settle ho with ho | ⟨rfl, -⟩
  · exact h.resting o ho hx
  · exact ha hx

/-- A move that does not mention `x` leaves `x` intact. -/
theorem moves {U : OrderId → Prop} (ho : Orderly U c) (h : Intact x f c) (hm : Config.Moves c d)
    (hx : f.Hidden ∨ ¬d.result.Mentions x) : Intact x f d := by
  have hgone : f = .erase ∨ ∀ o ∈ d.engine.outstanding d.stack, o.id ≠ x := by
    apply h.gone.imp_right
    intro hne o hod
    obtain ⟨y, hy, hoy⟩ := hm.outstanding hod
    exact hoy.id_eq ▸ hne y hy
  have hloops : ∀ b, .matching b ∈ c.stack.tail → b.id = x → b.RestsAlive :=
    fun b hb ↦ h.loops b (List.mem_of_mem_tail hb)
  refine ⟨hgone, ?_, ?_⟩
  · cases hm with
    | filled | uncrossed | exhausted | unopposed | evaluated => exact hloops
    | @fill s a passive K r p key book book' q =>
      intro b hb hbx
      rcases List.mem_cons.mp (Config.matching_evaluate hb) with hb | hb
      · obtain rfl := Frame.matching.inj hb
        have hax : a.id = x := hbx
        rcases hx with hx | hx
        · rw [h.erased hax] at hx
          exact absurd hx id
        · rw [evaluate_result] at hx
          exact absurd (mentions_pushTrade (by simp [Trade.involves, fillTrade, hax])) hx
      · exact hloops b hb hbx
    | @triggered s p stop working K r =>
      intro b hb hbx
      rcases List.mem_cons.mp hb with hb | hb
      · obtain rfl := Frame.matching.inj hb
        exact ⟨rfl, fun _ ht ↦ absurd ht (converted_ne_iceberg stop)⟩
      · rcases List.mem_cons.mp hb with hb | hb
        · exact absurd hb (by simp)
        · exact hloops b hb hbx
    | kept =>
      intro b hb hbx
      rcases List.mem_cons.mp hb with hb | hb
      · exact absurd hb (by simp)
      · exact hloops b hb hbx
  · cases hm with
    | @filled s a K r ha =>
      intro o hod hox
      by_cases hax : a.id = x
      · rw [Config.settle_markFilled ha ((h.loops a List.mem_cons_self hax).empty ha)] at hod
        exact h.resting o hod hox
      · rcases mem_settle hod with hod | ⟨rfl, -⟩
        · exact h.resting o hod hox
        · exact absurd ((markFilled_descends a).id_eq.symm.trans hox) hax
    | uncrossed | unopposed =>
      intro o hod hox
      exact h.resting_settle (fun hax ↦ (h.loops _ List.mem_cons_self hax).resting) hod hox
    | @fill s a passive K r p key book book' q _ _ _ hp _ hs =>
      obtain ⟨rfl, rfl, ⟨rest, hrest⟩, -⟩ := ho.distinct.of_pickPassive hp
      have hmem := (ReferenceBook.mem_of_head hrest).1
      intro o hod hox
      rw [evaluate_book] at hod
      rcases List.mem_append.mp ((ho.distinct.filled hmem hs).perm.mem_iff.mp hod) with hod | hod
      · have hpx : passive.id = x := (leftAfter_descends hod).id_eq.symm.trans hox
        have hst := h.resting passive hmem hpx
        rwa [Order.isResting, leftAfter_status hod]
      · exact h.resting o (List.mem_filter.mp hod).1 hox
    | exhausted | evaluated | triggered | kept => exact h.resting

end Intact

/-! ### The two machines -/

/-- The frames that are left without the order `x`: its match loop is gone, no trigger loop holds
it, and a trigger loop that holds nothing else may be gone too. -/
inductive Without (x : OrderId) : List Frame → List Frame → Prop
  | nil : Without x [] []
  | other {a : Order} {K K' : List Frame} : a.id ≠ x → Without x K K' →
      Without x (.matching a :: K) (.matching a :: K')
  | own {a : Order} {K K' : List Frame} : a.id = x → Without x K K' →
      Without x (.matching a :: K) K'
  | triggers {p : Price} {working : List Order} {K K' : List Frame} : Without x K K' →
      Without x (.triggers p working :: K) (.triggers p (working.filter (·.id != x)) :: K')
  | idle {p : Price} {working : List Order} {K K' : List Frame} :
      (∀ stop ∈ working, stop.id = x) → Without x K K' → Without x (.triggers p working :: K) K'

/-- The engine `t` is `s` with `x` changed in the book and no longer pending. -/
structure Engine.Altered (x : OrderId) (f : Change) (s t : Engine ReferenceBook) : Prop where
  book : t.book = s.book.alter x f
  stops : t.pendingStops = s.pendingStops.filter (·.id != x)

/-- The configuration `d` is `c` with `x` changed in the book and gone from everywhere else. -/
structure Config.Altered (x : OrderId) (f : Change) (c d : Config ReferenceBook) : Prop where
  engine : c.engine.Altered x f d.engine
  stack : Without x c.stack d.stack
  result : d.result = c.result

namespace Engine.Altered

variable {x : OrderId} {f : Change} {s t : Engine ReferenceBook}

theorem last (h : s.Altered x f t) : lastTradePrice t.book = lastTradePrice s.book := by
  rw [h.book]
  rfl

theorem log (h : s.Altered x f t) (g g' : GhostEvent) : (s.log g).Altered x f (t.log g') :=
  ⟨h.book, h.stops⟩

/-- Another order comes to rest in both books. -/
theorem settle {a : Order} (h : s.Altered x f t) (ha : a.id ≠ x) :
    (Config.settle s a).Altered x f (Config.settle t a) := by
  have hin : (s.insert a).Altered x f (t.insert a) := by
    constructor
    · change t.book.insertOrder a = (s.book.insertOrder a).alter x f
      rw [ReferenceBook.alter_insertOrder (Change.apply_of_ne ha), h.book]
    · exact h.stops
  unfold Config.settle
  split
  · split
    · exact hin
    · exact h
  · split
    · exact hin
    · exact h
  · exact h

/-- The order itself comes to rest in one book and is erased in the other. -/
private theorem settle_own {a : Order} (h : s.Altered x .erase t) (ha : a.id = x) :
    (Config.settle s a).Altered x .erase t := by
  rcases Config.settle_eq s a with he | he
  · rw [he]
    exact h
  · rw [he]
    constructor
    · change t.book = (s.book.insertOrder a).alter x .erase
      rw [ReferenceBook.alter_insertOrder_erased (by rw [Change.apply, if_pos ha]), h.book]
    · exact h.stops

/-- A stop waits. -/
theorem wait {stop : Order} (h : s.Altered x f t) (hx : stop.id ≠ x) :
    { s with pendingStops := s.pendingStops ++ [stop] }.Altered x f
      { t with pendingStops := t.pendingStops ++ [stop] } := by
  refine ⟨h.book, ?_⟩
  simp only [h.stops, List.filter_append, List.filter_cons, bne_iff_ne.mpr hx, List.filter_nil,
    ↓reduceIte]

/-- The order itself waits. -/
theorem wait_own {stop : Order} (h : s.Altered x f t) (hx : stop.id = x) :
    { s with pendingStops := s.pendingStops ++ [stop] }.Altered x f t := by
  refine ⟨h.book, ?_⟩
  simp only [h.stops, List.filter_append, List.filter_cons, hx, bne_self_eq_false,
    Bool.false_eq_true, ↓reduceIte, List.filter_nil, List.append_nil]

end Engine.Altered

namespace Config.Altered

variable {x : OrderId} {f : Change} {c d : Config ReferenceBook}

/-- Starting the evaluation of stops. -/
theorem evaluate (h : c.Altered x f d) : (Config.evaluate c).Altered x f (Config.evaluate d) := by
  unfold Config.evaluate
  rw [h.engine.last, h.engine.stops]
  by_cases hp : c.engine.pendingStops = []
  · rw [if_pos hp, if_pos (by rw [hp]; rfl)]
    exact h
  · rw [if_neg hp]
    by_cases hl : lastTradePrice c.engine.book = 0
    · rw [if_pos hl, if_pos hl, ite_self]
      exact h
    · rw [if_neg hl, if_neg hl]
      by_cases hf : c.engine.pendingStops.filter (·.id != x) = []
      · rw [if_pos hf]
        refine ⟨⟨h.engine.book, ?_⟩, .idle ?_ h.stack, h.result⟩
        · rw [h.engine.stops, hf]
          rfl
        · intro stop hstop
          simpa using List.filter_eq_nil_iff.mp hf stop hstop
      · rw [if_neg hf]
        exact ⟨⟨h.engine.book, rfl⟩, .triggers h.stack, h.result⟩

end Config.Altered

/-! ### The first orders of a side -/

/-- What the change leaves at the head of a side. -/
private theorem bestPrice_alter_none {b : ReferenceBook} {side : Side} {x : OrderId} {f : Change}
    (h : bestPrice b side = none) : bestPrice (b.alter x f) side = none := by
  change (b.orders side).head?.map _ = none at h
  rw [Option.map_eq_none_iff, List.head?_eq_none_iff] at h
  change ((b.alter x f).orders side).head?.map _ = none
  rw [ReferenceBook.orders_alter, h]
  rfl

/-- A price that an order does not accept is no better in the altered book. -/
private theorem trades_alter {b : ReferenceBook} {a : Order} {x : OrderId} {f : Change}
    {p q : Price} (hb : bestPrice b a.side.opposite = some p) (ht : Config.trades a p = false)
    (hq : bestPrice (b.alter x f) a.side.opposite = some q) : Config.trades a q = false := by
  obtain ⟨o, rest, ho, rfl⟩ := ReferenceBook.exists_best hb
  obtain ⟨y, rest', hy, rfl⟩ := ReferenceBook.exists_best hq
  rw [ReferenceBook.orders_alter] at hy
  obtain ⟨z, hz, hzy⟩ := List.mem_filterMap.mp (hy ▸ List.mem_cons_self : y ∈ _)
  have hle := ReferenceBook.best_le ho hz
  rw [← (Change.apply_keeps hzy).2.2] at hle
  rw [Config.trades, Bool.or_eq_false_iff] at ht ⊢
  exact ⟨ht.1, Order.crosses_of_behind ht.2 hle⟩

/-! ### One move -/

section Move

variable {x : OrderId} {f : Change} {s t : Engine ReferenceBook} {K K' : List Frame}
  {r : MatchResult} {a : Order} {c c' d : Config ReferenceBook}

/-- Either nothing moves on the second side, or the same move is made there. -/
def Matched (x : OrderId) (f : Change) (c' d : Config ReferenceBook) : Prop :=
  c'.Altered x f d ∨ ∃ d', d.step = .ok (some d') ∧ c'.Altered x f d'

private theorem Matched.of_moves {d' : Config ReferenceBook} (hm : Config.Moves d d')
    (h : c'.Altered x f d') : Matched x f c' d := .inr ⟨d', hm.step, h⟩

/-- Another order meets no level at which it trades. -/
private theorem matched_uncrossed {p : Price} (he : s.Altered x f t) (hK : Without x K K')
    (ha : a.id ≠ x) (hq : a.quantity > 0) (hb : bestPrice s.book a.side.opposite = some p)
    (ht : Config.trades a p = false) :
    Matched x f ⟨Config.settle s a, K, r⟩ ⟨t, .matching a :: K', r⟩ := by
  have hsettle : Config.Altered x f ⟨Config.settle s a, K, r⟩ ⟨Config.settle t a, K', r⟩ :=
    ⟨he.settle ha, hK, rfl⟩
  cases hb' : bestPrice t.book a.side.opposite with
  | none =>
    have hmarket : a.type ≠ .market := by
      intro hm
      rw [Config.trades, hm] at ht
      exact absurd ht (by simp)
    exact .of_moves (.unopposed hq hb' hmarket) hsettle
  | some p' =>
    have ht' := trades_alter hb ht (he.book ▸ hb')
    exact .of_moves (.uncrossed hq hb' ht') hsettle

/-- Another order fills an order that the change does not hide. -/
private theorem matched_fill {passive : Order} {rest : List Order} {book' : ReferenceBook}
    {q : Quantity} (hd : s.book.Distinct) (he : s.Altered x f t) (hK : Without x K K')
    (ha : a.id ≠ x) (hq : a.quantity > 0) (ht : Config.trades a passive.price = true)
    (ho : s.book.orders a.side.opposite = passive :: rest)
    (hqty : q = min a.quantity passive.quantity)
    (hs : settlePassive s.book passive.id passive q = .ok book') (hp : f.Passes x passive.id) :
    Matched x f (.evaluate ⟨{ s with book := book' }.log (.fill (fillTrade a passive q)),
      .matching { a with quantity := a.quantity - q } :: K,
      r.pushTrade (fillTrade a passive q)⟩) ⟨t, .matching a :: K', r⟩ := by
  let passive' := { passive with origQty := f.label x passive }
  have hmem := (ReferenceBook.mem_of_head ho).1
  have hhead : t.book.orders a.side.opposite =
      passive' :: rest.filterMap fun o ↦ f.apply x o := by
    rw [he.book, ReferenceBook.orders_alter, ho, List.filterMap_cons, Change.apply_of_passes hp]
  have hdt : t.book.Distinct := he.book ▸ hd.alter x f
  have hs' := ReferenceBook.settlePassive_alter hd hmem hp hs
  rw [← he.book] at hs'
  refine .of_moves (.fill hq (ReferenceBook.bestPrice_of_head hhead) ht
    (hdt.pickPassive hhead) hqty hs') (Config.Altered.evaluate ⟨⟨rfl, he.stops⟩, ?_, rfl⟩)
  exact .other (show { a with quantity := a.quantity - q }.id ≠ x from ha) hK

/-- A move of the machine with `x` is matched, as long as it does not mention `x` or the change
is hidden. -/
theorem Config.Altered.move {U : OrderId → Prop} (ho : Orderly U c) (hi : Intact x f c)
    (h : c.Altered x f d) (hm : Config.Moves c c') (hx : f.Hidden ∨ ¬c'.result.Mentions x) :
    Matched x f c' d := by
  obtain ⟨t, Kd, rd⟩ := d
  obtain ⟨he, hstack, hres⟩ := h
  simp only at he hstack hres
  subst hres
  cases hm with
  | @filled s a K r ha =>
    cases hstack with
    | other hne hK =>
      refine .of_moves (.filled ha) ⟨he.settle ?_, hK, rfl⟩
      rwa [(markFilled_descends a).id_eq]
    | own hax hK =>
      left
      rw [Config.settle_markFilled ha ((hi.loops a List.mem_cons_self hax).empty ha)]
      exact ⟨he, hK, rfl⟩
  | @uncrossed s a K r p ha hb ht =>
    cases hstack with
    | other hne hK => exact matched_uncrossed he hK hne ha hb ht
    | own hax hK =>
      obtain rfl := hi.erased hax
      exact .inl ⟨he.settle_own hax, hK, rfl⟩
  | @exhausted s a K r ha hb ht =>
    cases hstack with
    | other hne hK =>
      have hb' : bestPrice t.book a.side.opposite = none := he.book ▸ bestPrice_alter_none hb
      exact .of_moves (.exhausted ha hb' ht) ⟨he.log _ _, hK, rfl⟩
    | own hax hK =>
      obtain rfl := hi.erased hax
      rcases hx with hx | hx
      · exact absurd hx id
      · exact absurd (.inr (.inr ⟨_, List.mem_append_right _ List.mem_cons_self, hax⟩)) hx
  | @unopposed s a K r ha hb ht =>
    cases hstack with
    | other hne hK =>
      have hb' : bestPrice t.book a.side.opposite = none := he.book ▸ bestPrice_alter_none hb
      exact .of_moves (.unopposed ha hb' ht) ⟨he.settle hne, hK, rfl⟩
    | own hax hK =>
      obtain rfl := hi.erased hax
      exact .inl ⟨he.settle_own hax, hK, rfl⟩
  | @fill s a passive K r p key book book' q ha hb ht hp hq hs =>
    obtain ⟨rfl, rfl, ⟨rest, hrest⟩, hbest⟩ := ho.distinct.of_pickPassive hp
    obtain rfl := Option.some.inj (hb.symm.trans hbest)
    rw [evaluate_result] at hx
    cases hstack with
    | other hne hK =>
      have hpass : f.Passes x passive.id := by
        by_cases hpx : passive.id = x
        · refine .inr (hx.resolve_right fun hm ↦ hm (mentions_pushTrade ?_))
          simp [Trade.involves, fillTrade, hpx]
        · exact .inl hpx
      exact matched_fill ho.distinct he hK hne ha ht hrest hq hs hpass
    | own hax hK =>
      obtain rfl := hi.erased hax
      rcases hx with hx | hx
      · exact absurd hx id
      · exact absurd (mentions_pushTrade (by simp [Trade.involves, fillTrade, hax])) hx
  | @evaluated s p K r =>
    cases hstack with
    | triggers hK => exact .of_moves .evaluated ⟨he, hK, rfl⟩
    | idle _ hK => exact .inl ⟨he, hK, rfl⟩
  | @triggered s p stop working K r ht =>
    have hid : ({ stop.converted with status := .resting } : Order).id = stop.id :=
      converted_id stop
    cases hstack with
    | @triggers _ _ _ K' hK =>
      by_cases hsx : stop.id = x
      · rw [List.filter_cons_of_neg (by simp [hsx])]
        exact .inl ⟨⟨he.book, he.stops⟩, .own (hid.trans hsx) (.triggers hK), rfl⟩
      · rw [List.filter_cons_of_pos (by simpa using hsx)]
        exact .of_moves (.triggered ht)
          ⟨he.log _ _, .other (fun hx ↦ hsx (hid.symm.trans hx)) (.triggers hK), rfl⟩
    | idle hall hK =>
      have hsx := hall stop List.mem_cons_self
      exact .inl ⟨⟨he.book, he.stops⟩, .own (hid.trans hsx)
        (.idle (fun y hy ↦ hall y (List.mem_cons_of_mem _ hy)) hK), rfl⟩
  | @kept s p stop working K r ht =>
    cases hstack with
    | @triggers _ _ _ K' hK =>
      by_cases hsx : stop.id = x
      · rw [List.filter_cons_of_neg (by simp [hsx])]
        exact .inl ⟨he.wait_own hsx, .triggers hK, rfl⟩
      · rw [List.filter_cons_of_pos (by simpa using hsx)]
        exact .of_moves (.kept ht) ⟨he.wait hsx, .triggers hK, rfl⟩
    | idle hall hK =>
      exact .inl ⟨he.wait_own (hall stop List.mem_cons_self),
        .idle (fun y hy ↦ hall y (List.mem_cons_of_mem _ hy)) hK, rfl⟩

end Move

/-! ### One event -/

/-- The order that a cancel, a modify or a replace asks for. -/
def OrderEvent.target : OrderEvent → Option OrderId
  | .newOrder _ => none
  | .cancelOrder e => some e.orderId
  | .modifyOrder e => some e.orderId
  | .replaceOrder e => some e.oldOrderId

/-- The event names the order. -/
def OrderEvent.Names (e : OrderEvent) (id : OrderId) : Prop :=
  e.target = some id ∨ ∃ o ∈ e.orders, o.id = id

instance (e : OrderEvent) (id : OrderId) : Decidable (e.Names id) :=
  inferInstanceAs (Decidable (_ ∨ _))

/-- The change of `x` cannot be seen by what the event asks for, and the event does not submit
`x` again. -/
structure OrderEvent.Ignores (e : OrderEvent) (x : OrderId) (f : Change) : Prop where
  target : ∀ y, e.target = some y → f.Passes x y
  orders : ∀ o ∈ e.orders, o.id ≠ x

/-- Nothing pending has the name `x`, unless `x` can be erased. -/
def Gone (x : OrderId) (f : Change) (stops : List Order) : Prop :=
  f = .erase ∨ ∀ stop ∈ stops, stop.id ≠ x

/-- Nothing pending has a name that the change passes. -/
private theorem Gone.not_pending {x : OrderId} {f : Change} {stops : List Order}
    (h : Gone x f stops) (hp : f.Passes x x) : ∀ stop ∈ stops, stop.id ≠ x := by
  apply h.resolve_left
  rintro rfl
  exact hp.elim (fun hne ↦ hne rfl) id

namespace Engine.Altered

variable {x y : OrderId} {f : Change} {s t : Engine ReferenceBook}

/-- Where the change passes, the pending stops of a name are those of the other engine. -/
private theorem find_stop (h : s.Altered x f t) (hg : Gone x f s.pendingStops) (hp : f.Passes x y) :
    t.pendingStops.find? (·.id == y) = s.pendingStops.find? (·.id == y) := by
  rw [h.stops]
  rcases eq_or_ne y x with rfl | hne
  · have hall := hg.not_pending hp
    rw [List.filter_eq_self.mpr fun a ha ↦ by simpa using hall a ha]
  · rw [List.find?_filter]
    congr 1
    funext a
    by_cases ha : a.id = y
    · simp [ha, hne]
    · simp [ha]

private theorem erase_stop (h : s.Altered x f t) (hg : Gone x f s.pendingStops)
    (hp : f.Passes x y) : t.pendingStops.eraseP (·.id == y) =
      (s.pendingStops.eraseP (·.id == y)).filter (·.id != x) := by
  rw [h.stops]
  rcases eq_or_ne y x with rfl | hne
  · have hall := hg.not_pending hp
    rw [List.filter_eq_self.mpr fun a ha ↦ by simpa using hall a ha,
      List.filter_eq_self.mpr fun a ha ↦ by simpa using hall a (List.mem_of_mem_eraseP ha)]
  · rw [List.eraseP_filter]
    congr 2
    funext a
    by_cases ha : a.id = y
    · simp [ha, hne]
    · simp [ha]

/-- A lookup that the change passes. -/
theorem findOrder (h : s.Altered x f t) (hp : f.Passes x y) : BookOps.findOrder t.book y =
    (BookOps.findOrder s.book y).map fun o ↦ { o with origQty := f.label x o } := by
  rw [h.book]
  change (s.book.alter x f).findOrder y = (s.book.findOrder y).map _
  rw [ReferenceBook.findOrder_alter]
  cases ho : s.book.findOrder y with
  | none => rfl
  | some o =>
    have hid := (ReferenceBook.mem_of_findOrder ho).2
    exact Change.apply_of_passes (hid ▸ hp)

theorem cancelOrder (h : s.Altered x f t) (y : OrderId) :
    BookOps.cancelOrder t.book y = (BookOps.cancelOrder s.book y).alter x f := by
  rw [h.book]
  exact (ReferenceBook.alter_cancelOrder _ _ _ _).symm

/-- Submitting another order. -/
theorem enter {o : Order} (h : s.Altered x f t) (ho : o.id ≠ x) (r : MatchResult) :
    (Config.enter s o [] r).Altered x f (Config.enter t o [] r) := by
  have hlast : t.immediatelyTriggered o.accepted = s.immediatelyTriggered o.accepted := by
    rw [immediatelyTriggered, immediatelyTriggered, h.last]
  have hstop : Config.Altered x f
      (if s.immediatelyTriggered o.accepted then .enterConverted s o.accepted [] r
        else ⟨{ s with pendingStops := s.pendingStops ++ [o.accepted] }, [], r⟩)
      (if t.immediatelyTriggered o.accepted then .enterConverted t o.accepted [] r
        else ⟨{ t with pendingStops := t.pendingStops ++ [o.accepted] }, [], r⟩) := by
    rw [hlast]
    split
    · have hid : ({ o.accepted.converted with status := .resting } : Order).id ≠ x := by
        change o.accepted.converted.id ≠ x
        rw [converted_id]
        exact ho
      exact ⟨⟨h.book, h.stops⟩, .other hid .nil, rfl⟩
    · have hx : o.accepted.id ≠ x := ho
      exact ⟨h.wait hx, .nil, rfl⟩
  simp only [Config.enter]
  split
  · exact ⟨h, .other ho .nil, rfl⟩
  · exact ⟨h, .other ho .nil, rfl⟩
  · exact ⟨h, .other (show (splitIceberg { o with status := .resting }).id ≠ x from ho) .nil, rfl⟩
  · exact hstop
  · exact hstop

theorem processCancel (h : s.Altered x f t) (hg : Gone x f s.pendingStops) {e : CancelOrderEvent}
    (hp : f.Passes x e.orderId) :
    (s.processCancel e).1.Altered x f (t.processCancel e).1 ∧
      (t.processCancel e).2 = (s.processCancel e).2 := by
  rw [Engine.processCancel, Engine.processCancel, h.find_stop hg hp, h.findOrder hp]
  split
  · exact ⟨⟨h.book, h.erase_stop hg hp⟩, rfl⟩
  · cases ho : BookOps.findOrder s.book e.orderId with
    | none => exact ⟨h, rfl⟩
    | some o =>
      have hrest : Order.isResting { o with origQty := f.label x o } = o.isResting := rfl
      simp only [Option.map_some, hrest]
      split
      · exact ⟨⟨h.cancelOrder _, h.stops⟩, rfl⟩
      · exact ⟨h, rfl⟩

theorem processModify (h : s.Altered x f t) {e : ModifyOrderEvent}
    (hp : f.Passes x e.orderId) :
    (s.processModify e).1.Altered x f (t.processModify e).1 ∧
      (t.processModify e).2 = (s.processModify e).2 := by
  rw [Engine.processModify, Engine.processModify, h.findOrder hp]
  cases ho : BookOps.findOrder s.book e.orderId with
  | none => exact ⟨h, rfl⟩
  | some o =>
    have hid : o.id = e.orderId := (ReferenceBook.mem_of_findOrder ho).2
    have happly := Change.apply_of_passes (f := f) (x := x) (o := modified e o)
      (show f.Passes x o.id from hid ▸ hp)
    have hlabel : f.label x (modified e o) = f.label x o := by cases f <;> rfl
    rw [hlabel] at happly
    have hrest : Order.isResting { o with origQty := f.label x o } = o.isResting := rfl
    have hrequeues : requeues e { o with origQty := f.label x o } = requeues e o := rfl
    simp only [Option.map_some, hrest, hrequeues]
    split
    · split
      · refine ⟨⟨?_, h.stops⟩, rfl⟩
        change _ = ((s.book.cancelOrder e.orderId).insertOrder (modified e o)).alter x f
        rw [ReferenceBook.alter_insertOrder happly, h.cancelOrder]
        rfl
      · split
        · refine ⟨⟨?_, h.stops⟩, rfl⟩
          change BookOps.updateOrderQuantity t.book e.orderId e.newQuantity =
            (BookOps.updateOrderQuantity s.book e.orderId e.newQuantity).alter x f
          rw [h.book, ReferenceBook.alter_updateOrderQuantity hp]
        · exact ⟨h, rfl⟩
    · exact ⟨h, rfl⟩

/-- Both machines start an event alike. -/
theorem start (h : s.Altered x f t) (hg : Gone x f s.pendingStops) {e : OrderEvent}
    (he : e.Ignores x f) : (Config.start s e).Altered x f (.start t e) := by
  cases e with
  | newOrder e =>
    exact enter (s := { s with sequence := s.sequence + 1 })
      (t := { t with sequence := t.sequence + 1 }) ⟨h.book, h.stops⟩
      (he.orders e.order List.mem_cons_self) {}
  | cancelOrder e =>
    have hc := processCancel (s := { s with sequence := s.sequence + 1 })
      (t := { t with sequence := t.sequence + 1 }) ⟨h.book, h.stops⟩ hg
      (he.target e.orderId rfl)
    exact ⟨hc.1, .nil, hc.2⟩
  | modifyOrder e =>
    have hm := processModify (s := { s with sequence := s.sequence + 1 })
      (t := { t with sequence := t.sequence + 1 }) ⟨h.book, h.stops⟩
      (he.target e.orderId rfl)
    exact ⟨hm.1, .nil, hm.2⟩
  | replaceOrder e =>
    have hhas : hasOrder t.book e.oldOrderId = hasOrder s.book e.oldOrderId := by
      rw [hasOrder, hasOrder, h.findOrder (he.target e.oldOrderId rfl), Option.isSome_map]
    simp only [Config.start, hhas]
    split
    · exact enter (s := { s with sequence := s.sequence + 1
                                 book := BookOps.cancelOrder s.book e.oldOrderId })
        (t := { t with sequence := t.sequence + 1
                       book := BookOps.cancelOrder t.book e.oldOrderId })
        ⟨h.cancelOrder _, h.stops⟩ (he.orders e.newOrder List.mem_cons_self) {}
    · exact ⟨⟨h.book, h.stops⟩, .nil, rfl⟩

end Engine.Altered

/-- The match loop that a submitted order starts is its own. -/
private theorem enter_loops {B : Type} [BookOps B] {s : Engine B} {o a : Order} {r : MatchResult}
    (h : .matching a ∈ (Config.enter s o [] r).stack) : a.id = o.id := by
  have hstop (h : .matching a ∈ (if s.immediatelyTriggered o.accepted
      then Config.enterConverted s o.accepted [] r
      else ⟨{ s with pendingStops := s.pendingStops ++ [o.accepted] }, [], r⟩).stack) :
      a.id = o.id := by
    split at h
    · obtain rfl := Frame.matching.inj (List.mem_singleton.mp h)
      exact converted_id o.accepted
    · exact absurd h List.not_mem_nil
  simp only [Config.enter] at h
  split at h
  · obtain rfl := Frame.matching.inj (List.mem_singleton.mp h)
    rfl
  · obtain rfl := Frame.matching.inj (List.mem_singleton.mp h)
    rfl
  · obtain rfl := Frame.matching.inj (List.mem_singleton.mp h)
    rfl
  · exact hstop h
  · exact hstop h

/-- An event that does not submit `x` again leaves `x` intact when it starts. -/
theorem Intact.start {x : OrderId} {f : Change} {s : Engine ReferenceBook} {r : MatchResult}
    (h : Intact x f ⟨s, [], r⟩) {e : OrderEvent} (he : ∀ o ∈ e.orders, o.id ≠ x) :
    Intact x f (.start s e) := by
  have hgone : f = .erase ∨
      ∀ o ∈ (Config.start s e).engine.outstanding (Config.start s e).stack, o.id ≠ x := by
    apply h.gone.imp_right
    intro hne o ho
    rcases outstanding_start ho with ho | ⟨y, st, hy, rfl⟩
    · exact hne o ho
    · change y.entering.id ≠ x
      rw [Order.entering_id]
      exact he y (mem_orders_of_handed hy)
  have hcancel (id : OrderId) : ∀ o ∈ (s.book.cancelOrder id).allOrders, o.id = x →
      o.isResting = true :=
    fun o ho ↦ h.resting o (ReferenceBook.mem_cancelOrder.mp ho).1
  have hnone {a : Order} {P : Prop} (ha : Frame.matching a ∈ ([] : List Frame)) : P :=
    absurd ha List.not_mem_nil
  refine ⟨hgone, ?_, ?_⟩
  · have hstart := Config.starts s e
    generalize Config.start s e = c at hstart
    intro a ha hax
    cases hstart with
    | newOrder => exact absurd ((enter_loops ha).symm.trans hax) (he _ List.mem_cons_self)
    | replaced => exact absurd ((enter_loops ha).symm.trans hax) (he _ List.mem_cons_self)
    | stopCancelled | orderCancelled | cancelRejected | requeued | reduced | unmodified
    | replaceRejected => exact hnone ha
  · have hstart := Config.starts s e
    generalize Config.start s e = c at hstart
    cases hstart with
    | newOrder =>
      rw [enter_book]
      exact h.resting
    | @replaced e =>
      rw [enter_book]
      exact hcancel e.oldOrderId
    | @orderCancelled e => exact hcancel e.orderId
    | @requeued e y hy hr =>
      intro o ho hox
      rcases ReferenceBook.mem_insertOrder.mp ho with rfl | ho
      · exact hr
      · exact hcancel e.orderId o ho hox
    | @reduced e y hy hr =>
      have hy' : BookOps.findOrder s.book e.orderId = some y := hy
      intro o ho hox
      change o ∈ (BookOps.updateOrderQuantity s.book e.orderId e.newQuantity).allOrders at ho
      rw [BookOps.updateOrderQuantity, hy'] at ho
      change o ∈ (s.book.storeOrder e.orderId { y with quantity := e.newQuantity }).allOrders at ho
      rw [ReferenceBook.allOrders_storeOrder] at ho
      obtain ⟨z, hz, rfl⟩ := List.mem_map.mp ho
      rw [BookSide.overwrite]
      split
      · exact hr
      · next hne =>
        rw [BookSide.overwrite, if_neg hne] at hox
        exact h.resting z hz hox
    | stopCancelled | cancelRejected | unmodified | replaceRejected => exact h.resting

section Events

variable {Ok : Engine ReferenceBook → OrderEvent → Prop} {es : List OrderEvent} {e : OrderEvent}
  {s s' t : Engine ReferenceBook} {rs : List MatchResult} {r : MatchResult} {x : OrderId}
  {f : Change} {d : Config ReferenceBook}

/-- An event of a fresh run, followed by the machine without `x` or with another `x`. -/
theorem Run.submit_altered (h : Run Ok es s rs) (hf : Fresh (es ++ [e])) (hs : Submits s e s' r)
    (hi : Intact x f (.start s e)) (ha : (Config.start s e).Altered x f d)
    (hx : f.Hidden ∨ ¬r.Mentions x) : ∃ n t', Halts Config.step n d ⟨t', [], r⟩ ∧
      s'.Altered x f t' ∧ Intact x f ⟨s', [], r⟩ := by
  let R : Config ReferenceBook → Config ReferenceBook → Prop := fun c d ↦
    (∃ c₀ : Config (OrderBook EagerPriceLevel),
      Related true (· ∈ submittedIds (es ++ [e])) c₀ c) ∧
      ((¬f.Hidden ∧ c.result.Mentions x) ∨ Intact x f c ∧ c.Altered x f d)
  have hmove (c d c' : Config ReferenceBook) (hcd : R c d) (hstep : c.step = .ok (some c')) :
      R c' d ∨ ∃ d', d.step = .ok (some d') ∧ R c' d' := by
    obtain ⟨⟨c₀, hc₀⟩, hcd⟩ := hcd
    obtain ⟨c₁, -, hc₁⟩ := Related.lockstep.symm.steps (.single hstep) hc₀
    have hm := Config.moves_of_step hstep
    rcases hcd with ⟨hh, hmen⟩ | ⟨hic, hcd⟩
    · exact .inl ⟨⟨c₁, hc₁⟩, .inl ⟨hh, hm.mentions hmen⟩⟩
    · by_cases hx' : f.Hidden ∨ ¬c'.result.Mentions x
      · have hi' := hic.moves hc₀.orderly hm hx'
        rcases hcd.move hc₀.orderly hic hm hx' with hcd' | ⟨d', hd', hcd'⟩
        · exact .inl ⟨⟨c₁, hc₁⟩, .inr ⟨hi', hcd'⟩⟩
        · exact .inr ⟨d', hd', ⟨c₁, hc₁⟩, .inr ⟨hi', hcd'⟩⟩
      · rw [not_or, not_not] at hx'
        exact .inl ⟨⟨c₁, hc₁⟩, .inl hx'⟩
  obtain ⟨n, hn⟩ := submits_iff.mp hs
  obtain ⟨m, d', hd', -, hR⟩ := hn.1.stutter hmove ⟨h.orderly_start hf, .inr ⟨hi, ha⟩⟩
  rcases hR with ⟨hh, hmen⟩ | ⟨hi', ha'⟩
  · exact absurd hmen (hx.resolve_left hh)
  · obtain ⟨t', K, r'⟩ := d'
    obtain ⟨he, hK, hr⟩ := ha'
    simp only at he hK hr
    subst hr
    cases hK
    exact ⟨m, t', ⟨hd', rfl⟩, he, hi'⟩

/-- The order that a modify asks for keeps its place in both engines or in neither. -/
theorem Engine.Altered.keepsPlace (h : s.Altered x f t) (he : e.Ignores x f)
    (hk : KeepsPlace s e) : KeepsPlace t e := by
  cases e with
  | modifyOrder e =>
    intro o ho
    rw [h.findOrder (he.target e.orderId rfl)] at ho
    obtain ⟨y, hy, rfl⟩ := Option.map_eq_some_iff.mp ho
    exact hk y hy
  | newOrder _ | cancelOrder _ | replaceOrder _ => trivial

theorem Intact.stops (h : Intact x f ⟨s, [], r⟩) : Gone x f s.pendingStops := by
  apply h.gone.imp_right
  intro hne stop hstop
  rw [← converted_id]
  exact hne _ (List.mem_map_of_mem hstop)

/-- A stretch of a fresh run whose events ignore `x`, without `x` or with another `x`: the
results are the same. -/
theorem Run.continues_altered {es' : List OrderEvent} {rs' : List MatchResult}
    (h : Run KeepsPlace es s rs) (hf : Fresh (es ++ es')) (hc : Continues KeepsPlace s es' s' rs')
    (he : ∀ e ∈ es', e.Ignores x f) (hx : f.Hidden ∨ ∀ r ∈ rs', ¬r.Mentions x)
    (ha : s.Altered x f t) (hi : Intact x f ⟨s, [], {}⟩) :
    ∃ t', Continues KeepsPlace t es' t' rs' ∧ s'.Altered x f t' ∧ Intact x f ⟨s', [], {}⟩ := by
  induction hc with
  | nil => exact ⟨t, .nil, ha, hi⟩
  | @snoc es' e s₁ s₂ rs' r hc hok hs ih =>
    rw [← List.append_assoc] at hf
    have hx₁ : f.Hidden ∨ ∀ r ∈ rs', ¬r.Mentions x :=
      hx.imp_right fun hall r hr ↦ hall r (List.mem_append_left _ hr)
    have hx₂ : f.Hidden ∨ ¬r.Mentions x :=
      hx.imp_right fun hall ↦ hall r (List.mem_append_right _ List.mem_cons_self)
    have he₂ := he e (List.mem_append_right _ List.mem_cons_self)
    obtain ⟨t₁, ht₁, ha₁, hi₁⟩ := ih hf.left (fun e he' ↦ he e (List.mem_append_left _ he')) hx₁
    obtain ⟨n, t₂, ht₂, ha₂, hi₂⟩ := (h.append hc).submit_altered hf hs
      (hi₁.start he₂.orders) (ha₁.start hi₁.stops he₂) hx₂
    exact ⟨t₂, ht₁.snoc (ha₁.keepsPlace he₂ hok) (submits_iff.mpr ⟨n, ht₂⟩), ha₂,
      hi₂.gone, hi₂.loops, hi₂.resting⟩

end Events

end LobEngine
