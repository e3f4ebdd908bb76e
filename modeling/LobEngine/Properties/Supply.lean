import LobEngine.Properties.Sweep

/-!
# Supply and demand of match loops

While an event is processed the match loops of the orders in motion share what rests on the
opposite side, and what other orders in motion may leave there. `reach` is the sum of both: a fill
takes its quantity out of it, and no move adds to it. `demand` is what the orders in motion on one
side may still take. A fill takes the same quantity out of the demand and out of the book.
-/

namespace LobEngine

open BookOps Engine

/-- What an order can leave in the book when its match loop ends; a market order leaves nothing. -/
def Order.latent (o : Order) : Nat := if o.type = .market then 0 else o.worth

/-- What can be met on a side at the prices that pass a test, where the orders `os` rest and the
orders `ms` are in motion. -/
def reachOf (os ms : List Order) (side : Side) (m : Price → Bool) : Nat :=
  offered Order.worth side m os + offered Order.latent side m ms

/-- What an order in motion may take, where `R` is the reach: a market order takes what it gets,
another order no more than can be met at the prices it accepts. -/
def Order.wants (R : Side → (Price → Bool) → Nat) (a : Order) : Nat :=
  if a.type = .market then a.quantity.toNat
  else min a.quantity.toNat (R a.side.opposite (Config.trades a))

/-- What the orders `ms` of a side may take. -/
def demandOf (R : Side → (Price → Bool) → Nat) (ms : List Order) (side : Side) : Nat :=
  ms.sumOver (·.side == side) (Order.wants R)

private theorem worth_markFilled (o : Order) : (markFilled o).worth = o.worth := by
  unfold markFilled
  split
  · rfl
  · rfl

/-- An order in a match loop has less to leave once it has traded. -/
private theorem latent_debited (a : Order) {q : Quantity} (hq : q ≤ a.quantity) :
    ({ a with quantity := a.quantity - q } : Order).latent ≤ a.latent := by
  have hsub := UInt64.toNat_sub_of_le _ _ hq
  have hice : ({ a with quantity := a.quantity - q } : Order).isIceberg = a.isIceberg := rfl
  simp only [Order.latent, Order.worth, hice, hsub]
  split
  · exact Nat.le_refl _
  · omega

section Offered

variable {side : Side} {m : Price → Bool}

/-- A fill leaves the offers alone that the passive order does not belong to. -/
private theorem offered_filled_of_not {b b' : ReferenceBook} {o : Order} {q : Quantity}
    (hf : b.Filled o q b') (hd : b.Distinct) (ho : o ∈ b.allOrders)
    (hm : ¬(o.side = side ∧ m o.price = true)) :
    offered Order.worth side m b'.allOrders = offered Order.worth side m b.allOrders := by
  have hleft : offered Order.worth side m (o.leftAfter q).toList = 0 := by
    apply List.sumOver_eq_zero
    intro x hx
    have hdesc := leftAfter_descends hx
    rw [hdesc.side_eq, hdesc.price_eq, Bool.and_eq_false_iff, beq_eq_false_iff_ne]
    by_cases hside : o.side = side
    · exact .inr (by simpa using fun hp ↦ hm ⟨hside, hp⟩)
    · exact .inl hside
  rw [offered_perm hf.perm, offered_perm (hd.perm_of_mem ho), offered_append, offered_cons, hleft,
    if_neg hm]

/-- An order that comes to rest adds to the offers. -/
private theorem offered_settle_le (s : Engine ReferenceBook) (a : Order) :
    offered Order.worth side m s.book.allOrders ≤
      offered Order.worth side m (Config.settle s a).book.allOrders := by
  rcases Config.settle_eq s a with h | h
  · rw [h]
  · rw [h]
    change _ ≤ offered Order.worth side m (s.book.insertOrder a).allOrders
    rw [offered_perm (ReferenceBook.allOrders_insertOrder _ _), offered_cons]
    exact Nat.le_add_left _ _

end Offered

section Demand

variable {R R' : Side → (Price → Bool) → Nat}

/-- Where less can be met, less may be taken. -/
private theorem Order.wants_le (hR : ∀ side m, R' side m ≤ R side m) (a : Order) :
    a.wants R' ≤ a.wants R := by
  have hle := hR a.side.opposite (Config.trades a)
  rw [Order.wants, Order.wants]
  split
  · exact Nat.le_refl _
  · omega

theorem demandOf_cons (a : Order) (ms : List Order) (side : Side) : demandOf R (a :: ms) side =
    (if a.side = side then a.wants R else 0) + demandOf R ms side := by
  rw [demandOf, List.sumOver_cons]
  simp only [beq_iff_eq]
  rfl

private theorem demandOf_perm {ms ms' : List Order} (h : List.Perm ms ms') (side : Side) :
    demandOf R ms side = demandOf R ms' side := h.sumOver_eq

private theorem demandOf_le (hR : ∀ side m, R' side m ≤ R side m) (ms : List Order) (side : Side) :
    demandOf R' ms side ≤ demandOf R ms side := List.sumOver_le_sumOver (Order.wants_le hR) ms

end Demand

namespace Config

/-! ### The orders in motion -/

/-- The orders in match loops and the stops whose identifiers are `woken`, as they will match. -/
def motion (woken : OrderId → Bool) (c : Config ReferenceBook) : List Order :=
  (c.engine.outstanding c.stack).filter fun o ↦ woken o.id

/-- What can be met on a side at the prices that pass a test. -/
def reach (woken : OrderId → Bool) (c : Config ReferenceBook) (side : Side) (m : Price → Bool) :
    Nat :=
  reachOf c.engine.book.allOrders (c.motion woken) side m

/-- What the orders in motion on a side may take. -/
def demand (woken : OrderId → Bool) (c : Config ReferenceBook) (side : Side) : Nat :=
  demandOf (c.reach woken) (c.motion woken) side

/-- Only orders whose identifiers are `woken` are matched. -/
def Awake (woken : OrderId → Bool) (c : Config ReferenceBook) : Prop :=
  ∀ a, .matching a ∈ c.stack → woken a.id = true

variable {U : OrderId → Prop} {woken : OrderId → Bool} {side : Side} {m : Price → Bool}
  {c d : Config ReferenceBook} {s : Engine ReferenceBook} {a : Order} {K : List Frame}
  {r r' : MatchResult}

theorem motion_matching (ha : woken a.id = true) :
    motion woken ⟨s, .matching a :: K, r⟩ = a :: motion woken ⟨s, K, r⟩ :=
  List.filter_cons_of_pos ha

/-- A settled order is no longer in motion. -/
private theorem motion_settle (a : Order) :
    motion woken ⟨settle s a, K, r⟩ = motion woken ⟨s, K, r'⟩ := by
  rw [motion, motion, outstanding_settle]

private theorem motion_evaluate (c : Config ReferenceBook) :
    List.Perm ((evaluate c).motion woken) (c.motion woken) := (outstanding_evaluate c).filter _

/-- A fill replaces the order of the match loop. -/
private theorem motion_fill {book' : ReferenceBook} {q : Quantity} {g : GhostEvent}
    (ha : woken a.id = true) : List.Perm
      ((evaluate ⟨{ s with book := book' }.log g,
        .matching { a with quantity := a.quantity - q } :: K, r'⟩).motion woken)
      ({ a with quantity := a.quantity - q } :: motion woken ⟨s, K, r⟩) := by
  refine (motion_evaluate _).trans ?_
  rw [motion_matching (a := { a with quantity := a.quantity - q }) ha]
  exact .refl _

/-- A stop that is converted or kept stays in motion. -/
private theorem motion_triggers (stop : Order) {p : Price} {working : List Order} :
    motion woken ⟨s, .triggers p (stop :: working) :: K, r⟩ =
      (if woken stop.id then [stop.converted] else []) ++
        motion woken ⟨s, .triggers p working :: K, r⟩ := by
  rw [motion, motion, outstanding_triggers, List.filter_cons, converted_id]
  split
  · rfl
  · rfl

/-- A converted stop is in motion if its identifier is. -/
private theorem motion_converted (stop : Order) {p : Price} {working : List Order}
    (hw : woken stop.id = true) :
    motion woken (enterConverted s stop (.triggers p working :: K) r) =
      { stop.converted with status := .resting } ::
        motion woken ⟨s, .triggers p working :: K, r⟩ :=
  motion_matching (a := { stop.converted with status := .resting })
    (by simpa only [converted_id] using hw)

private theorem motion_kept (stop : Order) {p : Price} {working : List Order} : List.Perm
    (motion woken ⟨{ s with pendingStops := s.pendingStops ++ [stop] },
      .triggers p working :: K, r⟩)
    (motion woken ⟨s, .triggers p (stop :: working) :: K, r⟩) :=
  (outstanding_kept s stop _).filter _

/-! ### What a move does to the reach -/

/-- A settled order moves what it may leave to the book. -/
private theorem reach_settle {a' : Order} (ha : woken a.id = true) (hd : a'.Descends a)
    (hw : a'.worth = a.worth) : reach woken ⟨settle s a', K, r⟩ side m ≤
      reach woken ⟨s, .matching a :: K, r⟩ side m := by
  have hkeep : reach woken ⟨s, K, r⟩ side m ≤ reach woken ⟨s, .matching a :: K, r⟩ side m := by
    rw [reach, reach, reachOf, reachOf, motion_matching ha, offered_cons]
    exact Nat.add_le_add_left (Nat.le_add_left _ _) _
  have hinsert (ht : a.type ≠ .market) : reach woken ⟨s.insert a', K, r⟩ side m ≤
      reach woken ⟨s, .matching a :: K, r⟩ side m := by
    have hlatent : a.latent = a.worth := if_neg ht
    have hbook : offered Order.worth side m (s.insert a').book.allOrders =
        offered Order.worth side m (a' :: s.book.allOrders) :=
      offered_perm (ReferenceBook.allOrders_insertOrder _ _)
    have hmotion : motion woken ⟨s.insert a', K, r⟩ = motion woken ⟨s, K, r⟩ := rfl
    rw [reach, reach, reachOf, reachOf, motion_matching ha, hmotion, hbook, offered_cons,
      offered_cons, hw, hlatent, hd.side_eq, hd.price_eq]
    change _ ≤ offered Order.worth side m s.book.allOrders + _
    omega
  unfold settle
  split
  · next ht =>
    split
    · exact hinsert (by rw [← hd.type_eq, ht]; decide)
    · exact hkeep
  · next ht =>
    split
    · exact hinsert (by rw [← hd.type_eq, ht]; decide)
    · exact hkeep
  · exact hkeep

/-- A converted stop keeps what it may leave. -/
private theorem reach_converted (stop : Order) {p : Price} {working : List Order}
    (hw : woken stop.id = true) :
    reach woken (enterConverted s stop (.triggers p working :: K) r) side m =
      reach woken ⟨s, .triggers p (stop :: working) :: K, r⟩ side m := by
  rw [reach, reach, reachOf, reachOf, motion_converted stop hw, motion_triggers, if_pos hw,
    List.singleton_append, offered_cons, offered_cons]
  rfl

/-- A fill takes its quantity out of the reach of every test that its price passes. -/
private theorem reach_fill {passive : Order} {book' : ReferenceBook} {q : Quantity} (g : GhostEvent)
    (r' : MatchResult) (side : Side) (m : Price → Bool) (ha : woken a.id = true)
    (hd : s.book.Distinct) (hmem : passive ∈ s.book.allOrders)
    (hf : s.book.Filled passive q book') (hqa : q ≤ a.quantity) (hqp : q ≤ passive.quantity) :
    reach woken (evaluate ⟨{ s with book := book' }.log g,
        .matching { a with quantity := a.quantity - q } :: K, r'⟩) side m +
      (if passive.side = side ∧ m passive.price = true then q.toNat else 0) ≤
        reach woken ⟨s, .matching a :: K, r⟩ side m := by
  have hmotion : offered Order.latent side m
      (motion woken (evaluate ⟨{ s with book := book' }.log g,
        .matching { a with quantity := a.quantity - q } :: K, r'⟩)) ≤
      offered Order.latent side m (motion woken ⟨s, .matching a :: K, r⟩) := by
    have hlatent := latent_debited a hqa
    rw [offered_perm (motion_fill (r := r) ha), motion_matching ha, offered_cons, offered_cons]
    apply Nat.add_le_add_right
    split
    · exact hlatent
    · exact Nat.le_refl 0
  rw [reach, reach, reachOf, reachOf, evaluate_book]
  change offered Order.worth side m book'.allOrders + _ + _ ≤ _
  by_cases hm : passive.side = side ∧ m passive.price = true
  · have hfilled := offered_filled hf hd hmem hm hqp
    rw [if_pos hm]
    change _ ≤ offered Order.worth side m s.book.allOrders + _
    omega
  · rw [if_neg hm, offered_filled_of_not hf hd hmem hm]
    exact Nat.add_le_add_left hmotion _

/-- An order that shows more than it can meet still does after a fill. -/
theorem reach_fill_lt {passive : Order} {rest : List Order} {book' : ReferenceBook} {q : Quantity}
    {g : GhostEvent} (ha : woken a.id = true) (hd : s.book.Distinct)
    (hrest : s.book.orders a.side.opposite = passive :: rest)
    (hs : settlePassive s.book passive.id passive q = .ok book')
    (hq : q = min a.quantity passive.quantity) (hm : m passive.price = true)
    (hlt : reach woken ⟨s, .matching a :: K, r⟩ a.side.opposite m < a.quantity.toNat) :
    reach woken (evaluate ⟨{ s with book := book' }.log g,
        .matching { a with quantity := a.quantity - q } :: K, r'⟩) a.side.opposite m <
      (a.quantity - q).toNat := by
  obtain ⟨hmem, hside⟩ := ReferenceBook.mem_of_head hrest
  have hqa : q ≤ a.quantity := hq ▸ Std.min_le_left
  have hfill := reach_fill (K := K) (r := r) g r' a.side.opposite m ha hd hmem
    (hd.filled hmem hs) hqa (hq ▸ Std.min_le_right)
  rw [if_pos ⟨hside, hm⟩] at hfill
  rw [UInt64.toNat_sub_of_le _ _ hqa]
  exact Nat.lt_sub_of_add_lt (hfill.trans_lt hlt)

/-- Nothing adds to what can be met. -/
theorem Moves.reach_le (h : Moves c d) (hd : c.engine.book.Distinct) (hw : Awake woken c)
    (hwakes : ∀ p stop working K, c.stack = .triggers p (stop :: working) :: K →
      stop.triggeredAt p = true → woken stop.id = true) :
    reach woken d side m ≤ reach woken c side m := by
  cases h with
  | @filled s a K r hq =>
    exact reach_settle (hw a List.mem_cons_self) (markFilled_descends a) (worth_markFilled a)
  | @uncrossed s a | @unopposed s a =>
    exact reach_settle (hw a List.mem_cons_self) (.refl a) rfl
  | @exhausted s a K r =>
    have hmotion : motion woken ⟨s.log (.exhausted (exhaustion a)), K,
        r.pushRejection (exhaustion a)⟩ = motion woken ⟨s, K, r⟩ := rfl
    rw [reach, reach, reachOf, reachOf, motion_matching (hw a List.mem_cons_self), hmotion,
      offered_cons]
    exact Nat.add_le_add_left (Nat.le_add_left _ _) _
  | @fill s a passive K r p key book book' q _ _ _ hp hq hs =>
    obtain ⟨rfl, rfl, ⟨rest, hrest⟩, -⟩ := hd.of_pickPassive hp
    have hmem := (ReferenceBook.mem_of_head hrest).1
    have hfill := reach_fill (K := K) (r := r) (.fill (fillTrade a passive q))
      (r.pushTrade (fillTrade a passive q)) side m
      (hw a List.mem_cons_self) hd hmem (hd.filled hmem hs) (hq ▸ Std.min_le_left)
      (hq ▸ Std.min_le_right)
    exact (Nat.le_add_right _ _).trans hfill
  | evaluated => exact Nat.le_refl _
  | @triggered s p stop working K r ht =>
    exact (reach_converted stop (hwakes p stop working K rfl ht)).le
  | @kept s p stop working K r =>
    rw [reach, reach, reachOf, reachOf, offered_perm (motion_kept (r := r) stop)]

/-! ### What a move does to the demand -/

/-- An order has less to take once it has traded. -/
private theorem wants_fill {R R' : Side → (Price → Bool) → Nat} {q : Quantity} (hq : q ≤ a.quantity)
    (hR : R' a.side.opposite (trades a) + q.toNat ≤ R a.side.opposite (trades a)) :
    ({ a with quantity := a.quantity - q } : Order).wants R' + q.toNat ≤ a.wants R := by
  have hsub := UInt64.toNat_sub_of_le _ _ hq
  have htrades : trades { a with quantity := a.quantity - q } = trades a := rfl
  rw [UInt64.le_iff_toNat_le] at hq
  simp only [Order.wants, htrades, hsub]
  split
  · omega
  · omega

/-- The demand of the side of the order that trades falls by what it trades. -/
private theorem demand_fill {R R' : Side → (Price → Bool) → Nat} {q : Quantity}
    (hq : q ≤ a.quantity)
    (hfill : R' a.side.opposite (trades a) + q.toNat ≤ R a.side.opposite (trades a))
    (hR : ∀ side m, R' side m ≤ R side m) (ms : List Order) (side : Side) :
    demandOf R' ({ a with quantity := a.quantity - q } :: ms) side +
      (if a.side = side then q.toNat else 0) ≤ demandOf R (a :: ms) side := by
  have hwants := wants_fill hq hfill
  have hrest := demandOf_le hR ms side
  rw [demandOf_cons, demandOf_cons]
  by_cases hs : a.side = side
  · simp only [if_pos hs]
    omega
  · simp only [if_neg hs]
    omega

/-- No move lets the demand of a side outgrow the offers of the other. -/
theorem Moves.balance (h : Moves c d) (hd : c.engine.book.Distinct) (hw : Awake woken c)
    (hwakes : ∀ p stop working K, c.stack = .triggers p (stop :: working) :: K →
      stop.triggeredAt p = true → woken stop.id = true) (side : Side) (m : Price → Bool) :
    offered Order.worth side.opposite m c.engine.book.allOrders + d.demand woken side ≤
      offered Order.worth side.opposite m d.engine.book.allOrders + c.demand woken side := by
  have hreach (side' : Side) (m' : Price → Bool) :
      d.reach woken side' m' ≤ c.reach woken side' m' := h.reach_le hd hw hwakes
  have hle := demandOf_le hreach (d.motion woken) side
  -- an order that leaves its match loop takes its demand with it
  have hleave {a : Order} (hm : c.motion woken = a :: d.motion woken) :
      d.demand woken side ≤ c.demand woken side := by
    refine hle.trans ?_
    rw [demand, hm, demandOf_cons]
    exact Nat.le_add_left _ _
  cases h with
  | @filled s a K r hq =>
    have hmotion : motion woken ⟨settle s (markFilled a), K, r⟩ = motion woken ⟨s, K, r⟩ :=
      motion_settle _
    have hdemand := hleave (by rw [hmotion, motion_matching (hw a List.mem_cons_self)])
    exact Nat.add_le_add (offered_settle_le s _) hdemand
  | @uncrossed s a K r | @unopposed s a K r =>
    have hmotion : motion woken ⟨settle s a, K, r⟩ = motion woken ⟨s, K, r⟩ := motion_settle a
    have hdemand := hleave (by rw [hmotion, motion_matching (hw a List.mem_cons_self)])
    exact Nat.add_le_add (offered_settle_le s _) hdemand
  | @exhausted s a K r =>
    have hdemand := hleave (motion_matching (hw a List.mem_cons_self))
    exact Nat.add_le_add_left hdemand _
  | @fill s a passive K r p key book book' q hqa hb ht hp hq hs =>
    obtain ⟨rfl, rfl, ⟨rest, hrest⟩, hbest⟩ := hd.of_pickPassive hp
    obtain rfl := Option.some.inj (hb.symm.trans hbest)
    obtain ⟨hmem, hside⟩ := ReferenceBook.mem_of_head hrest
    have hf := hd.filled hmem hs
    have ha := hw a List.mem_cons_self
    have hqa' : q ≤ a.quantity := hq ▸ Std.min_le_left
    have hqp : q ≤ passive.quantity := hq ▸ Std.min_le_right
    have hfill := reach_fill (K := K) (r := r) (.fill (fillTrade a passive q))
      (r.pushTrade (fillTrade a passive q)) a.side.opposite (trades a) ha hd hmem hf hqa' hqp
    rw [if_pos ⟨hside, ht⟩] at hfill
    have hdemand := demand_fill hqa' hfill hreach (motion woken ⟨s, K, r⟩) side
    rw [demand, demand, demandOf_perm (motion_fill (r := r) ha), motion_matching ha, evaluate_book]
    change offered Order.worth side.opposite m s.book.allOrders + _ ≤
      offered Order.worth side.opposite m book'.allOrders + _
    by_cases hm : passive.side = side.opposite ∧ m passive.price = true
    · have hfilled := offered_filled hf hd hmem hm hqp
      have hown : a.side = side := by rw [← a.side.opposite_opposite, ← hside, hm.1,
        Side.opposite_opposite]
      rw [if_pos hown] at hdemand
      rw [← hfilled, Nat.add_assoc, Nat.add_comm q.toNat]
      exact Nat.add_le_add_left hdemand _
    · rw [offered_filled_of_not hf hd hmem hm]
      exact Nat.add_le_add_left ((Nat.le_add_right _ _).trans hdemand) _
  | evaluated => exact Nat.le_refl _
  | @triggered s p stop working K r ht =>
    have hwoken := hwakes p stop working K rfl ht
    refine Nat.add_le_add_left (hle.trans ?_) _
    rw [demand, motion_converted stop hwoken, motion_triggers, if_pos hwoken,
      List.singleton_append, demandOf_cons, demandOf_cons]
    exact Nat.le_refl _
  | @kept s p stop working K r =>
    refine Nat.add_le_add_left (hle.trans ?_) _
    rw [demandOf_perm (motion_kept (r := r) stop)]
    exact Nat.le_refl _

end Config

end LobEngine
