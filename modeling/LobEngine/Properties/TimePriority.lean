import LobEngine.Lib.RotatingQueue
import LobEngine.Properties.Conservation
import LobEngine.Properties.Walk

/-!
# Replenishment resets time priority

Every step of a run acts on the queue of a price as one action of a rotating queue: an order
joins at the back, leaves the book, or is replenished and goes to the back. What holds of
rotating queues over their whole future therefore holds of every level.
-/

namespace LobEngine

open BookOps Engine Stepper RotatingQueue

/-! ### What a step trades -/

section Steps

variable {B : Type} [BookOps B]

/-- The step trades with the resting order `x`. -/
def Config.Fills (c d : Config B) (x : OrderId) : Prop := ∃ t, c.Adds d t ∧ t.passiveId = x

/-- The step takes all that the iceberg `x` shows while it has a reserve, so that
`execute_fill` replenishes it; `src/engine/matching_engine.cpp:147–148`. -/
def Config.Replenishes (c d : Config B) (x : OrderId) : Prop :=
  ∃ t o, c.Adds d t ∧ t.passiveId = x ∧ findOrder c.engine.book x = some o ∧
    t.quantity = o.quantity ∧ o.isIceberg = true ∧ o.reserveQty > 0

/-- From `c` to `d` a queue passes by one action. Who leaves it is in the book no more, who goes
back in it has been replenished. -/
def Passes (c d : Config B) (ids ids' : List OrderId) : Prop :=
  ∃ act, ids' = step ids act ∧ (∀ z, act = .leave z → findOrder d.engine.book z = none) ∧
    ∀ z, act = .requeue z → c.Replenishes d z

variable {c d : Config B} {ids : List OrderId} {z : OrderId}

theorem Passes.stay : Passes c d ids ids := ⟨.stay, rfl, by simp, by simp⟩

theorem Passes.join : Passes c d ids (ids ++ [z]) := ⟨.join z, rfl, by simp, by simp⟩

theorem Passes.leave (h : findOrder d.engine.book z = none) :
    Passes c d ids (ids.filter (· != z)) := by
  refine ⟨.leave z, rfl, fun x hx ↦ ?_, by simp⟩
  obtain rfl := Action.leave.inj hx
  exact h

theorem Passes.requeue (h : c.Replenishes d z) :
    Passes c d ids (ids.filter (· != z) ++ [z]) := by
  refine ⟨.requeue z, rfl, by simp, fun x hx ↦ ?_⟩
  obtain rfl := Action.requeue.inj hx
  exact h

/-- Along a path a queue passes by actions. Who leaves it has left the book in some step of the
path, who goes back in it has been replenished in some step. -/
def PassesAlong (path : List (Config B × Config B)) (ids ids' : List OrderId) : Prop :=
  ∃ acts, ids' = run acts ids ∧
    (∀ z, .leave z ∈ acts → ∃ p ∈ path, findOrder p.2.engine.book z = none) ∧
    ∀ z, .requeue z ∈ acts → ∃ p ∈ path, p.1.Replenishes p.2 z

theorem PassesAlong.nil : PassesAlong ([] : List (Config B × Config B)) ids ids :=
  ⟨[], rfl, by simp, by simp⟩

/-- One step more. -/
theorem PassesAlong.snoc {path : List (Config B × Config B)} {ids' ids'' : List OrderId}
    (h : PassesAlong path ids ids') (hp : Passes c d ids' ids'') :
    PassesAlong (path ++ [(c, d)]) ids ids'' := by
  obtain ⟨acts, rfl, hleave, hrequeue⟩ := h
  obtain ⟨act, rfl, hleft, hback⟩ := hp
  refine ⟨acts ++ [act], (run_concat acts act ids).symm, fun z hz ↦ ?_, fun z hz ↦ ?_⟩
  · rcases List.mem_append.mp hz with hz | hz
    · obtain ⟨p, hp, hgone⟩ := hleave z hz
      exact ⟨p, List.mem_append_left _ hp, hgone⟩
    · exact ⟨_, List.mem_append_right _ List.mem_cons_self, hleft z (List.mem_singleton.mp hz).symm⟩
  · rcases List.mem_append.mp hz with hz | hz
    · obtain ⟨p, hp, hrep⟩ := hrequeue z hz
      exact ⟨p, List.mem_append_left _ hp, hrep⟩
    · exact ⟨_, List.mem_append_right _ List.mem_cons_self, hback z (List.mem_singleton.mp hz).symm⟩

end Steps

/-! ### The queues of the reference book -/

namespace ReferenceBook

/-- The identifiers at a price, first come first. -/
def queueIds (b : ReferenceBook) (side : Side) (p : Price) : List OrderId :=
  (b.atPrice side p).map Order.id

variable {b : ReferenceBook} {o : Order} {back : List Order}

private theorem map_id_filter (os : List Order) (id : OrderId) :
    (os.filter (·.id != id)).map Order.id = (os.map Order.id).filter (· != id) := by
  rw [List.filter_map]
  rfl

/-- A fill keeps the passive order at the front, takes it out or sends it to the back. -/
private theorem queueAfter_ids (hback : ∀ y ∈ back, y.id ≠ o.id) (q : Quantity) :
    (o.queueAfter q back).map Order.id =
      if o.quantity - q = 0 then
        if o.isIceberg = true ∧ o.reserveQty > 0 then
          ((o :: back).map Order.id).filter (· != o.id) ++ [o.id]
        else ((o :: back).map Order.id).filter (· != o.id)
      else (o :: back).map Order.id := by
  have hkeep : ((o :: back).map Order.id).filter (· != o.id) = back.map Order.id := by
    rw [← map_id_filter, List.filter_cons_of_neg (by simp), List.filter_eq_self.mpr]
    intro y hy
    exact bne_iff_ne.mpr (hback y hy)
  rw [Order.queueAfter, hkeep]
  by_cases h0 : o.quantity - q = 0
  · rw [if_pos h0, if_pos h0]
    by_cases hr : o.isIceberg = true ∧ o.reserveQty > 0
    · rw [if_pos hr, if_pos hr, List.map_append]
      rfl
    · rw [if_neg hr, if_neg hr]
  · rw [if_neg h0, if_neg h0]
    rfl

end ReferenceBook

section Reference

open ReferenceBook

/-- An order that comes to rest joins its queue. -/
private theorem passes_settle {c d : Config ReferenceBook} (s : Engine ReferenceBook) (a : Order)
    (side : Side) (p : Price) : Passes c d (s.book.queueIds side p)
      ((Config.settle s a).book.queueIds side p) := by
  rcases Config.settle_eq s a with h | h
  · rw [h]
    exact .stay
  · rw [h]
    change Passes c d _ ((s.book.insertOrder a).queueIds side p)
    rw [queueIds, queueIds, atPrice_insertOrder, List.map_append]
    by_cases ha : a.side = side ∧ a.price = p
    · rw [if_pos ha]
      exact .join
    · rw [if_neg ha, List.map_nil, List.append_nil]
      exact .stay

/-- A step that trades fills the first order of a side. -/
theorem Config.Moves.of_adds {U : OrderId → Prop} {c d : Config ReferenceBook} (ho : Orderly U c)
    (h : Config.Moves c d) {t : Trade} (ht : c.Adds d t) : ∃ a o q rest,
      c.engine.book.orders o.side = o :: rest ∧ t = fillTrade a o q ∧
        settlePassive c.engine.book o.id o q = .ok d.engine.book := by
  have hnone {r : MatchResult} (hr : r.trades = r.trades ++ [t]) : False := by simp at hr
  cases h with
  | filled | uncrossed | unopposed | exhausted | evaluated | triggered | kept =>
    exact (hnone ht).elim
  | @fill s a o K r level key book book' q hq hb htr hp hqq hset =>
    obtain ⟨rfl, rfl, ⟨rest, hrest⟩, -⟩ := ho.distinct.of_pickPassive hp
    rw [Adds, evaluate_result] at ht
    obtain rfl := List.singleton_inj.mp (List.append_cancel_left ht)
    refine ⟨a, o, q, rest, (mem_of_head hrest).2 ▸ hrest, rfl, ?_⟩
    rw [evaluate_book]
    exact hset

/-- The queue of the passive order after a fill. -/
private theorem queueIds_fill {b b' : ReferenceBook} {o : Order} {q : Quantity} {rest : List Order}
    (hd : b.Distinct) (ho : b.orders o.side = o :: rest)
    (hs : settlePassive b o.id o q = .ok b') : b'.queueIds o.side o.price =
      if o.quantity - q = 0 then
        if o.isIceberg = true ∧ o.reserveQty > 0 then
          (b.queueIds o.side o.price).filter (· != o.id) ++ [o.id]
        else (b.queueIds o.side o.price).filter (· != o.id)
      else b.queueIds o.side o.price := by
  have hat := atPrice_head ho
  have hsplit : b.atPrice o.side o.price =
      [] ++ o :: rest.filter (fun x ↦ x.price = o.price) := hat
  rw [queueIds, queueIds, hd.filled_queue hat hs, hat,
    queueAfter_ids (hd.queue_ne hsplit).2]

/-- A step that trades, seen in the queue of a price. -/
private theorem passes_fill {c d : Config ReferenceBook} {a o : Order} {q : Quantity}
    {rest : List Order} (hd : c.engine.book.Distinct)
    (ho : c.engine.book.orders o.side = o :: rest) (hadds : c.Adds d (fillTrade a o q))
    (hs : settlePassive c.engine.book o.id o q = .ok d.engine.book) (side : Side) (p : Price) :
    Passes c d (c.engine.book.queueIds side p) (d.engine.book.queueIds side p) := by
  have hmem := (mem_of_head ho).1
  by_cases hat : o.side = side ∧ o.price = p
  · obtain ⟨rfl, rfl⟩ := hat
    rw [queueIds_fill hd ho hs]
    by_cases h0 : o.quantity - q = 0
    · rw [if_pos h0]
      by_cases hr : o.isIceberg = true ∧ o.reserveQty > 0
      · rw [if_pos hr]
        exact .requeue ⟨fillTrade a o q, o, hadds, rfl, hd.findOrder_of_mem hmem,
          (sub_eq_zero.mp h0).symm, hr.1, hr.2⟩
      · rw [if_neg hr]
        apply Passes.leave
        have hperm := (hd.filled hmem hs).perm
        rw [Order.leftAfter, if_pos h0, if_neg hr] at hperm
        apply findOrder_eq_none_iff.mpr
        intro x hx
        have hx' := List.mem_filter.mp (hperm.mem_iff.mp hx)
        simpa using hx'.2
    · rw [if_neg h0]
      exact .stay
  · rw [queueIds, queueIds, (hd.filled hmem hs).elsewhere hat]
    exact .stay

/-- A move of the machine. -/
theorem Config.Moves.passes {U : OrderId → Prop} {c d : Config ReferenceBook}
    (ho : Orderly U c) (h : Config.Moves c d) (side : Side) (p : Price) :
    Passes c d (c.engine.book.queueIds side p) (d.engine.book.queueIds side p) := by
  rcases h.adds with hsame | ⟨t, hadds⟩
  · cases h with
    | filled | uncrossed | unopposed => exact passes_settle _ _ side p
    | exhausted | evaluated | triggered | kept => exact .stay
    | fill =>
      rw [evaluate_result] at hsame
      exact absurd hsame (by simp [MatchResult.pushTrade])
  · obtain ⟨a, o, q, rest, hrest, rfl, hset⟩ := h.of_adds ho hadds
    exact passes_fill ho.distinct hrest hadds hset side p

/-- A passive order is the first in its queue. -/
private theorem Config.Moves.fills_head {U : OrderId → Prop} {c d : Config ReferenceBook}
    (ho : Orderly U c) (h : Config.Moves c d) {z : OrderId} (hz : c.Fills d z) :
    ∃ o, c.engine.book.findOrder z = some o ∧
      (c.engine.book.queueIds o.side o.price).head? = some z := by
  obtain ⟨t, hadds, rfl⟩ := hz
  obtain ⟨a, o, q, rest, hrest, rfl, -⟩ := h.of_adds ho hadds
  refine ⟨o, ho.distinct.findOrder_of_mem (mem_of_head hrest).1, ?_⟩
  rw [queueIds, atPrice_head hrest]
  rfl

/-- A replenished order goes to the back of its queue. -/
private theorem Config.Moves.replenishes_queue {U : OrderId → Prop} {c d : Config ReferenceBook}
    (ho : Orderly U c) (h : Config.Moves c d) {x : OrderId} {o : Order}
    (hfind : c.engine.book.findOrder x = some o) (hx : c.Replenishes d x) :
    d.engine.book.queueIds o.side o.price =
      RotatingQueue.step (c.engine.book.queueIds o.side o.price) (.requeue x) := by
  obtain ⟨t, o', hadds, rfl, hfind', hq, hi, hres⟩ := hx
  obtain rfl := Option.some.inj (hfind.symm.trans hfind')
  obtain ⟨a, y, q, rest, hrest, rfl, hset⟩ := h.of_adds ho hadds
  have hy := ho.distinct.findOrder_of_mem (mem_of_head hrest).1
  obtain rfl := Option.some.inj (hfind.symm.trans hy)
  have h0 : o.quantity - q = 0 := sub_eq_zero.mpr hq.symm
  rw [queueIds_fill ho.distinct hrest hset, if_pos h0, if_pos ⟨hi, hres⟩]
  rfl

/-- The start of an event that is no modify. -/
private theorem start_passes {t : Engine ReferenceBook} {e : OrderEvent} (hm : NoModify e)
    (r : MatchResult) (side : Side) (p : Price) :
    Passes ⟨t, [], r⟩ (.start t e) (t.book.queueIds side p)
      ((Config.start t e).engine.book.queueIds side p) := by
  have hcancel {c d : Config ReferenceBook} (id : OrderId)
      (hd : d.engine.book = t.book.cancelOrder id) :
      Passes c d (t.book.queueIds side p) (d.engine.book.queueIds side p) := by
    rw [hd, queueIds, queueIds, atPrice_cancelOrder, map_id_filter]
    apply Passes.leave
    rw [hd]
    exact (findOrder_cancelOrder t.book id id).trans (if_pos rfl)
  have hstart := Config.starts t e
  generalize Config.start t e = c at hstart
  cases hstart with
  | newOrder =>
    rw [enter_book]
    exact .stay
  | replaced => exact hcancel _ (enter_book _ _ _ _)
  | orderCancelled => exact hcancel _ rfl
  | stopCancelled | cancelRejected | replaceRejected => exact .stay
  | requeued | reduced | unmodified => exact absurd hm id

end Reference

/-! ### The queues of the engine -/

section Engine

variable {L : Type} [PriceLevelOps L] [LawfulPriceLevel L] {U U' : OrderId → Prop}
  {c d : Config (OrderBook L)} {c₀ d₀ : Config ReferenceBook}

theorem Related.adds_iff (hc : Related true U c c₀) (hd : Related true U' d d₀) (t : Trade) :
    c.Adds d t ↔ c₀.Adds d₀ t := by
  obtain ⟨r, rfl, -⟩ := hc
  obtain ⟨r', rfl, -⟩ := hd
  exact Iff.rfl

theorem Related.fills (hc : Related true U c c₀) (hd : Related true U' d d₀) {x : OrderId}
    (h : c.Fills d x) : c₀.Fills d₀ x := by
  obtain ⟨t, hadds, hid⟩ := h
  exact ⟨t, (hc.adds_iff hd t).mp hadds, hid⟩

theorem Related.findOrder_eq (hc : Related true U c c₀) (id : OrderId) :
    findOrder c.engine.book id = findOrder c₀.engine.book id := by
  obtain ⟨r, rfl, h⟩ := hc
  exact h.represents.find id

private theorem Related.replenishes (hc : Related true U c c₀) (hd : Related true U' d d₀)
    {x : OrderId} (h : c.Replenishes d x) : c₀.Replenishes d₀ x := by
  obtain ⟨t, o, hadds, hid, hfind, hprop⟩ := h
  exact ⟨t, o, (hc.adds_iff hd t).mp hadds, hid, (hc.findOrder_eq x).symm.trans hfind, hprop⟩

/-- An order of the book has a known identifier. -/
theorem Related.known (hc : Related true U c c₀) {x : OrderId} {o : Order}
    (ho : c₀.engine.book.findOrder x = some o) : U x := by
  obtain ⟨hmem, rfl⟩ := ReferenceBook.mem_of_findOrder ho
  exact hc.orderly.known o hmem

theorem Related.orderIds_eq (hc : Related true U c c₀) (side : Side) (p : Price) :
    c.engine.book.orderIds side p = c₀.engine.book.queueIds side p := by
  obtain ⟨r, rfl, h⟩ := hc
  exact h.represents.orderIds_eq side p

theorem Related.passes (hc : Related true U c c₀) (hd : Related true U' d d₀)
    {ids ids' : List OrderId} (h : Passes c₀ d₀ ids ids') : Passes c d ids ids' := by
  obtain ⟨act, hstep, hleave, hrequeue⟩ := h
  refine ⟨act, hstep, fun z hz ↦ ?_, fun z hz ↦ ?_⟩
  · rw [hd.findOrder_eq]
    exact hleave z hz
  · obtain ⟨t, o, hadds, hid, hfind, hprop⟩ := hrequeue z hz
    exact ⟨t, o, (hc.adds_iff hd t).mpr hadds, hid, (hc.findOrder_eq z).trans hfind, hprop⟩

/-- Where no loop is active, related configurations hold related engines. -/
theorem Related.refines {es : List OrderEvent} (hc : Related true (· ∈ submittedIds es) c c₀)
    (hs : c.stack = []) : Refines es c.engine c₀.engine := by
  obtain ⟨r, rfl, h⟩ := hc
  rw [hs] at h
  exact ⟨rfl, h⟩

/-- Every live order with the identifier is on the side, at the price. -/
def PlacedAt (c : Config ReferenceBook) (x : OrderId) (side : Side) (p : Price) : Prop :=
  ∀ y ∈ c.live, y.id = x → y.side = side ∧ y.price = p

theorem PlacedAt.move {U : OrderId → Prop} {c d : Config ReferenceBook} {x : OrderId}
    {side : Side} {p : Price} (h : PlacedAt c x side p) (ho : Orderly U c)
    (hm : Config.Moves c d) : PlacedAt d x side p := by
  intro y hy hid
  obtain ⟨z, hz, hyz⟩ := hm.live ho hy
  rw [hyz.side_eq, hyz.price_eq]
  exact h z hz (hyz.id_eq.symm.trans hid)

theorem PlacedAt.start {t : Engine ReferenceBook} {r : MatchResult} {e : OrderEvent} {x : OrderId}
    {side : Side} {p : Price} (h : PlacedAt ⟨t, [], r⟩ x side p) (hm : NoModify e)
    (hnew : ∀ o ∈ e.orders, o.id ≠ x) : PlacedAt (.start t e) x side p := by
  intro y hy hid
  rcases live_start (r := r) hm hy with hy | ⟨o, st, ho, rfl⟩
  · exact h y hy hid
  · exact absurd ((Order.entering_id o).symm.trans hid) (hnew o (mem_orders_of_handed ho))

/-- The reference machine takes the same step. -/
theorem Related.move {c c' : Config (OrderBook L)} (hc : Related true U c c₀)
    (hstep : c.step = .ok (some c')) :
    ∃ d, Config.Moves c₀ d ∧ Related true U c' d := by
  obtain ⟨d, hsteps, hd⟩ := Related.lockstep.steps (.single hstep) hc
  cases hsteps with
  | head hone hnil =>
    cases hnil
    exact ⟨d, Config.moves_of_step hone, hd⟩

/-- A walk acts on every queue as on a rotating queue, and keeps orders at their places. -/
theorem Walk.related {es es' : List OrderEvent}
    {path : List (Config (OrderBook L) × Config (OrderBook L))}
    (hw : Walk NoModify c es' path d) (hc : Related true (· ∈ submittedIds es) c c₀)
    (hf : Fresh (es ++ es')) :
    ∃ d₀, Related true (· ∈ submittedIds (es ++ es')) d d₀ ∧
      (∀ side p, PassesAlong path (c.engine.book.orderIds side p)
        (d.engine.book.orderIds side p)) ∧
      ∀ x ∈ submittedIds es, ∀ side p, PlacedAt c₀ x side p → PlacedAt d₀ x side p := by
  induction hw with
  | nil => exact ⟨c₀, by rwa [List.append_nil], fun _ _ ↦ .nil, fun _ _ _ _ h ↦ h⟩
  | @move es' path d d' _ hstep ih =>
    obtain ⟨d₀, hd, hpass, hplace⟩ := ih hf
    obtain ⟨d₁, hmove, hd'⟩ := hd.move hstep
    refine ⟨d₁, hd', fun side p ↦ (hpass side p).snoc ?_, fun x hx side p h ↦ ?_⟩
    · rw [hd.orderIds_eq, hd'.orderIds_eq]
      exact hd.passes hd' (hmove.passes hd.orderly side p)
    · exact (hplace x hx side p h).move hd.orderly hmove
  | @event es' path d e _ hstack hm ih =>
    rw [← List.append_assoc] at hf
    obtain ⟨d₀, hd, hpass, hplace⟩ := ih hf.left
    have href := hd.refines hstack
    have hlands : Lands d.engine e := .of_keepsPlace (hm.keepsPlace _)
    have hd' := Related.start (href.extend e) (href.admits hf hlands)
    rw [← href.agree, List.append_assoc] at hd'
    have hd₀ : d₀ = ⟨d₀.engine, [], d₀.result⟩ := by
      obtain ⟨r, rfl, -⟩ := hd
      simp only [Config.withBook, hstack]
    refine ⟨_, hd', fun side p ↦ (hpass side p).snoc ?_, fun x hx side p h ↦ ?_⟩
    · rw [hd.orderIds_eq, hd'.orderIds_eq]
      apply hd.passes hd'
      rw [hd₀]
      exact start_passes hm _ side p
    · have hplaced := hplace x hx side p h
      rw [hd₀] at hplaced
      apply hplaced.start hm
      rintro y hy rfl
      apply hf.not_mem (List.mem_map_of_mem hy)
      rw [submittedIds_append]
      exact List.mem_append_left _ hx

theorem Related.init : Related true (· ∈ submittedIds []) (.init : Config (OrderBook L)) .init :=
  ⟨_, rfl, .init true _⟩

end Engine

section Replenished

variable {es es' : List OrderEvent}
  {path path' : List (Config (OrderBook PriceLevel) × Config (OrderBook PriceLevel))}
  {c d c' d' : Config (OrderBook PriceLevel)}

/-- The order with an identifier is the only live one, so it tells the place. -/
private theorem Orderly.placedAt {U : OrderId → Prop} {c : Config ReferenceBook} (h : Orderly U c)
    {x : OrderId} {o : Order} (ho : c.engine.book.findOrder x = some o) :
    PlacedAt c x o.side o.price := by
  obtain ⟨hmem, rfl⟩ := ReferenceBook.mem_of_findOrder ho
  intro y hy hid
  obtain rfl : y = o :=
    List.inj_on_of_nodup_map h.live_nodup hy (List.mem_append_left _ hmem) hid
  exact ⟨rfl, rfl⟩

/-- Along a run of a fresh stream without modifies let a step from `c` to `d` replenish the
iceberg `x` of the level of `o`, and let a later step from `c'` to `d'` trade. If it trades with
`x`, every other order that was live in the level in `c` has left the book or been replenished in
between. If it trades with an order that has joined the level since `d`, then `x` has left the book
or been replenished again. -/
theorem replenished_waits (h : Walk NoModify .init es path c) (hstep : c.step = .ok (some d))
    (hw : Walk NoModify d es' path' c') (hstep' : c'.step = .ok (some d'))
    (hf : Fresh (es ++ es')) {x : OrderId} {o : Order}
    (ho : c.engine.book.findOrder x = some o) (hx : c.Replenishes d x) :
    (c'.Fills d' x → ∀ y ∈ c.engine.book.orderIds o.side o.price, y ≠ x →
      (∃ p ∈ path', p.2.engine.book.findOrder y = none) ∨ ∃ p ∈ path', p.1.Replenishes p.2 y) ∧
    ∀ z o', c'.Fills d' z → c'.engine.book.findOrder z = some o' →
      o'.side = o.side → o'.price = o.price → z ∉ d.engine.book.orderIds o.side o.price →
      (∃ p ∈ path', p.2.engine.book.findOrder x = none) ∨ ∃ p ∈ path', p.1.Replenishes p.2 x := by
  obtain ⟨c₀, hc, -, -⟩ := h.related .init hf.left
  obtain ⟨d₀, hmove, hd⟩ := hc.move hstep
  obtain ⟨c₁, hc', hpass, hplace⟩ := hw.related hd hf
  obtain ⟨d₁, hmove', hd'⟩ := hc'.move hstep'
  -- the place of `x`, in the reference engine and then in `c'`
  have ho₀ : c₀.engine.book.findOrder x = some o := (hc.findOrder_eq x).symm.trans ho
  have hx₀ : c₀.Replenishes d₀ x := hc.replenishes hd hx
  have hplaced : PlacedAt c₁ x o.side o.price :=
    hplace x (hc.known ho₀) _ _ ((hc.orderly.placedAt ho₀).move hc.orderly hmove)
  have hback : d.engine.book.orderIds o.side o.price =
      RotatingQueue.step (c.engine.book.orderIds o.side o.price) (.requeue x) := by
    rw [hc.orderIds_eq, hd.orderIds_eq]
    exact hmove.replenishes_queue hc.orderly ho₀ hx₀
  obtain ⟨acts, hacts, hleave, hrequeue⟩ := hpass o.side o.price
  have hwaits {z : OrderId} (hz : .leave z ∈ acts ∨ .requeue z ∈ acts) :
      (∃ p ∈ path', p.2.engine.book.findOrder z = none) ∨
        ∃ p ∈ path', p.1.Replenishes p.2 z := hz.imp (hleave z) (hrequeue z)
  have hhead {z : OrderId} {o' : Order} (hz : c'.Fills d' z)
      (ho' : c₁.engine.book.findOrder z = some o') (hside : o'.side = o.side)
      (hprice : o'.price = o.price) : (RotatingQueue.run acts
        (d.engine.book.orderIds o.side o.price)).head? = some z := by
    obtain ⟨y, hy, hfirst⟩ := hmove'.fills_head hc'.orderly (hc'.fills hd' hz)
    obtain rfl := Option.some.inj (ho'.symm.trans hy)
    rw [← hacts, hc'.orderIds_eq, ← hside, ← hprice]
    exact hfirst
  constructor
  · intro hz y hy hne
    obtain ⟨o', ho', -⟩ := hmove'.fills_head hc'.orderly (hc'.fills hd' hz)
    obtain ⟨hmem, hid⟩ := ReferenceBook.mem_of_findOrder ho'
    have hat := hplaced o' (List.mem_append_left _ hmem) hid
    apply hwaits
    apply requeued_waits hy hne
    rw [← hback]
    exact hhead hz ho' hat.1 hat.2
  · intro z o' hz ho' hside hprice hnew
    apply hwaits
    refine newcomer_waits ?_ hnew (hhead hz ((hc'.findOrder_eq z).symm.trans ho') hside hprice)
    rw [hback]
    exact List.mem_append_right _ List.mem_cons_self

/-- Two icebergs at 100, until a bid comes for the three shares that the first one shows. -/
private def rotates : List (Option OrderEvent) :=
  [some (.newOrder ⟨{ id := 1, side := .sell, type := .iceberg, price := 100, quantity := 9
                      peakQty := 3 }⟩), none,
    some (.newOrder ⟨{ id := 2, side := .sell, type := .iceberg, price := 100, quantity := 4
                       peakQty := 2 }⟩), none,
    some (.newOrder ⟨{ id := 3, price := 100, quantity := 3 }⟩)]

/-- A limit order joins them, and a larger bid takes what the second one shows. -/
private def rotatesAgain : List (Option OrderEvent) :=
  [none, some (.newOrder ⟨{ id := 4, side := .sell, price := 100, quantity := 1 }⟩), none,
    some (.newOrder ⟨{ id := 5, price := 100, quantity := 5 }⟩), none]

private def bids (aggressorId passiveId : OrderId) (quantity : Quantity) : Trade :=
  { aggressorId, passiveId, price := 100, quantity, aggressorSide := .buy }

theorem replenished_waits_rotates : ∃ (es' : List OrderEvent)
    (path' : List (Config (OrderBook PriceLevel) × Config (OrderBook PriceLevel)))
    (d c' d' : Config (OrderBook PriceLevel)), Walk NoModify d es' path' c' ∧ c'.Fills d' 1 ∧
      ((∃ p ∈ path', p.2.engine.book.findOrder 2 = none) ∨
        ∃ p ∈ path', p.1.Replenishes p.2 2) := by
  obtain ⟨c, hc, d, hd, c', hc', d', hd', ⟨o, ho, hat, hq⟩, hadds, hadds'⟩ :
      ∃ c ∈ (Config.init : Config (OrderBook PriceLevel)).follow rotates,
        ∃ d ∈ c.follow [none], ∃ c' ∈ d.follow rotatesAgain, ∃ d' ∈ c'.follow [none],
          (∃ o ∈ c.engine.book.findOrder 1, 2 ∈ c.engine.book.orderIds o.side o.price ∧
            3 = o.quantity ∧ o.isIceberg = true ∧ o.reserveQty > 0) ∧
          d.result.trades = c.result.trades ++ [bids 3 1 3] ∧
          d'.result.trades = c'.result.trades ++ [bids 5 1 3] := by
    decide +kernel
  have hstart : Walk NoModify (Config.init : Config (OrderBook PriceLevel)) [] [] .init := .nil
  have hturned : Walk NoModify d [] [] d := .nil
  obtain ⟨path, hw⟩ := hstart.follow (by decide) hc
  obtain ⟨path', hw'⟩ := hturned.follow (by decide) hc'
  have hfills : c'.Fills d' 1 := ⟨_, hadds', rfl⟩
  have hwaits := replenished_waits hw (Config.step_of_follow hd) hw' (Config.step_of_follow hd')
    (by decide) ho ⟨_, o, hadds, rfl, ho, hq⟩
  exact ⟨_, _, d, c', d', hw', hfills, hwaits.1 hfills 2 hat (by decide)⟩

end Replenished

end LobEngine
