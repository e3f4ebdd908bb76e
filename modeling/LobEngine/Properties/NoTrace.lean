import LobEngine.Properties.Altered

/-!
# Orders that leave no trace

An order that is submitted, never mentioned and cancelled again leaves no trace in the results of
the other events. The run with the order is followed by the run without it.
-/

namespace LobEngine

open BookOps Engine Stepper

variable {x : OrderId} {s s' t : Engine ReferenceBook} {o : Order} {r : MatchResult}

/-! ### Submitting the order -/

/-- Submitting the order itself, seen from the machine without it. -/
private theorem Engine.Altered.enter_own (h : s.Altered x .erase t) (ho : o.id = x)
    (r : MatchResult) : (Config.enter s o [] r).Altered x .erase ⟨t, [], r⟩ := by
  have hstop : Config.Altered x .erase
      (if s.immediatelyTriggered o.accepted then .enterConverted s o.accepted [] r
        else ⟨{ s with pendingStops := s.pendingStops ++ [o.accepted] }, [], r⟩) ⟨t, [], r⟩ := by
    split
    · have hid : ({ o.accepted.converted with status := .resting } : Order).id = x := by
        change o.accepted.converted.id = x
        rw [converted_id]
        exact ho
      exact ⟨⟨h.book, h.stops⟩, .own hid .nil, rfl⟩
    · have hx : o.accepted.id = x := ho
      exact ⟨h.wait_own hx, .nil, rfl⟩
  simp only [Config.enter]
  split
  · exact ⟨h, .own ho .nil, rfl⟩
  · exact ⟨h, .own ho .nil, rfl⟩
  · exact ⟨h, .own (show (splitIceberg { o with status := .resting }).id = x from ho) .nil, rfl⟩
  · exact hstop
  · exact hstop

/-- The match loop of a submitted order starts with a status that can be cancelled, and with a
quantity unless the order is no iceberg or an iceberg without any. -/
private theorem enter_restsAlive {a : Order}
    (hq : o.type = .iceberg → o.peakQty = 0 → o.quantity = 0)
    (h : .matching a ∈ (Config.enter s o [] r).stack) : a.RestsAlive := by
  have hstop (h : .matching a ∈ (if s.immediatelyTriggered o.accepted
      then Config.enterConverted s o.accepted [] r
      else ⟨{ s with pendingStops := s.pendingStops ++ [o.accepted] }, [], r⟩).stack) :
      a.RestsAlive := by
    split at h
    · obtain rfl := Frame.matching.inj (List.mem_singleton.mp h)
      exact ⟨rfl, fun _ ht ↦ absurd ht (converted_ne_iceberg o.accepted)⟩
    · exact absurd h List.not_mem_nil
  have hplain (ht : o.type ≠ .iceberg) : ({ o with status := .resting } : Order).RestsAlive :=
    ⟨rfl, fun _ hi ↦ absurd hi ht⟩
  simp only [Config.enter] at h
  split at h
  · next ht =>
    obtain rfl := Frame.matching.inj (List.mem_singleton.mp h)
    exact hplain (ht ▸ by decide)
  · next ht =>
    obtain rfl := Frame.matching.inj (List.mem_singleton.mp h)
    exact hplain (ht ▸ by decide)
  · next ht =>
    obtain rfl := Frame.matching.inj (List.mem_singleton.mp h)
    refine ⟨rfl, fun hpeak _ ↦ ?_⟩
    have h0 : o.peakQty = 0 := hpeak
    change o.quantity - o.peakQty = 0
    rw [h0, hq ht h0]
    rfl
  · exact hstop h
  · exact hstop h

/-! ### Cancelling the order -/

/-- Erasing an order from the book is cancelling it there. -/
private theorem ReferenceBook.alter_erase (b : ReferenceBook) (x : OrderId) :
    b.alter x .erase = b.cancelOrder x := by
  apply ext_atPrice
  · intro side p
    rw [atPrice_alter, atPrice_cancelOrder, ← List.filterMap_eq_filter]
    apply List.filterMap_congr
    intro o _
    by_cases ho : o.id = x <;> simp [Change.apply, Option.guard, ho]
  · rfl

/-- Cancelling an order that can be cancelled takes it out of the engine. -/
private theorem processCancel_erases {U : OrderId → Prop} (ho : Orderly U ⟨s, [], r⟩)
    (hr : ∀ o ∈ s.book.allOrders, o.id = x → o.isResting = true) {e : CancelOrderEvent}
    (he : e.orderId = x) : (s.processCancel e).1.book = s.book.alter x .erase ∧
      (s.processCancel e).1.pendingStops = s.pendingStops.filter (·.id != x) := by
  have hids : (s.pendingStops.map Order.id).Nodup := by
    have hnodup := ho.nodup
    rwa [ids_outstanding] at hnodup
  rw [Engine.processCancel, he]
  cases hp : s.pendingStops.find? (·.id == x) with
  | some stop =>
    have hstop : stop ∈ s.pendingStops := List.mem_of_find?_eq_some hp
    have hid : stop.id = x := by simpa using List.find?_some hp
    have hgone : ∀ o ∈ s.book.allOrders, o.id ≠ x := by
      intro o hob
      have hapart := ho.apart stop.converted (List.mem_map_of_mem hstop) o hob
      rwa [converted_id, hid] at hapart
    exact ⟨(ReferenceBook.alter_of_absent hgone).symm, eraseP_eq_filter hids x⟩
  | none =>
    have hstops : s.pendingStops.filter (·.id != x) = s.pendingStops := by
      rw [List.filter_eq_self]
      intro stop hstop
      simpa using List.find?_eq_none.mp hp stop hstop
    rw [hstops]
    cases hf : BookOps.findOrder s.book x with
    | none =>
      have hgone : ∀ o ∈ s.book.allOrders, o.id ≠ x := ReferenceBook.findOrder_eq_none_iff.mp hf
      exact ⟨(ReferenceBook.alter_of_absent hgone).symm, rfl⟩
    | some o =>
      obtain ⟨hmem, hid⟩ := ReferenceBook.mem_of_findOrder hf
      simp only
      rw [if_pos (hr o hmem hid)]
      exact ⟨(ReferenceBook.alter_erase _ _).symm, rfl⟩

/-! ### The three stretches of a run -/

section Reference

variable {es es' : List OrderEvent} {e : OrderEvent} {rs rs' : List MatchResult}

/-- An engine without `x` is what it is after any change of `x`. -/
theorem Engine.Altered.of_absent (f : Change) (hb : t.book = s.book)
    (hp : t.pendingStops = s.pendingStops) (hx : (∀ o ∈ s.book.allOrders, o.id ≠ x) ∧
      ∀ stop ∈ s.pendingStops, stop.id ≠ x) : s.Altered x f t where
  book := by rw [hb, ReferenceBook.alter_of_absent hx.1]
  stops := by
    rw [hp, eq_comm, List.filter_eq_self]
    intro stop hstop
    simpa using hx.2 stop hstop

theorem Intact.of_absent (f : Change) (hx : (∀ o ∈ s.book.allOrders, o.id ≠ x) ∧
    ∀ stop ∈ s.pendingStops, stop.id ≠ x) : Intact x f ⟨s, [], r⟩ where
  gone := by
    right
    intro o ho
    obtain ⟨stop, hstop, rfl⟩ := List.mem_map.mp ho
    rw [converted_id]
    exact hx.2 stop hstop
  loops a ha := absurd ha List.not_mem_nil
  resting o ho hid := absurd hid (hx.1 o ho)

/-- Submitting the order, without trading and without a rejection. -/
private theorem Run.submit_quiet (h : Run KeepsPlace es s rs) (hf : Fresh (es ++ [.newOrder ⟨o⟩]))
    (hs : Submits s (.newOrder ⟨o⟩) s' r) (ht : r.trades = []) (hr : r.rejections = [])
    (hq : o.type = .iceberg → o.peakQty = 0 → o.quantity = 0) :
    s'.Altered o.id .erase s ∧ Intact o.id .erase ⟨s', [], {}⟩ := by
  have hx : o.id ∉ submittedIds es := hf.not_mem List.mem_cons_self
  have habsent := h.absent hf.left hx
  have hquiet : ¬r.Mentions o.id := by
    have hrep : r.reports = [] := by
      rw [hs.reports, Config.start, enter_result]
    rw [MatchResult.Mentions, ht, hr, hrep]
    simp
  have hstart : (Config.start s (.newOrder ⟨o⟩)).Altered o.id .erase ⟨s, [], {}⟩ :=
    Engine.Altered.enter_own (s := { s with sequence := s.sequence + 1 }) (t := s)
      (.of_absent .erase rfl rfl habsent) rfl {}
  have hintact : Intact o.id .erase (Config.start s (.newOrder ⟨o⟩)) := by
    refine ⟨.inl rfl, fun a ha _ ↦ enter_restsAlive hq ha, ?_⟩
    rw [Config.start, enter_book]
    exact fun y hy hid ↦ absurd hid (habsent.1 y hy)
  obtain ⟨n, t', hhalts, ha, hi⟩ := h.submit_altered hf hs hintact hstart (.inr hquiet)
  have hend := hhalts.unique (n := 0) ⟨.refl _, Config.step_halt.mpr rfl⟩
  simp only [Config.mk.injEq, true_and] at hend
  exact ⟨hend.1 ▸ ha, hi.gone, hi.loops, hi.resting⟩

/-- After the cancel the engine with the order and the engine without it agree. -/
private theorem Run.cancel_erases (h : Run KeepsPlace es s rs) (hf : Fresh es)
    (ha : s.Altered x .erase t) (hi : Intact x .erase ⟨s, [], {}⟩) {e : CancelOrderEvent}
    (he : e.orderId = x) (hs : Submits s (.cancelOrder e) s' r) (f : Change) :
    s'.Altered x f t ∧ Intact x f ⟨s', [], {}⟩ := by
  have hend := hs.of_idle rfl
  simp only [Config.start, Config.mk.injEq, true_and] at hend
  have hord := h.orderly hf {}
  obtain ⟨hbook, hstops⟩ := processCancel_erases (s := { s with sequence := s.sequence + 1 })
    (r := {}) ⟨hord.distinct, hord.known, hord.nodup, hord.apart, hord.outstanding⟩ hi.resting he
  rw [hend.1] at hbook hstops
  have habsent : (∀ o ∈ s'.book.allOrders, o.id ≠ x) ∧ ∀ stop ∈ s'.pendingStops, stop.id ≠ x := by
    constructor
    · intro o ho
      rw [hbook, ReferenceBook.alter_erase] at ho
      exact (ReferenceBook.mem_cancelOrder.mp ho).2
    · intro stop hstop
      rw [hstops, List.mem_filter, bne_iff_ne] at hstop
      exact hstop.2
  exact ⟨.of_absent f (ha.book.trans hbook.symm) (ha.stops.trans hstops.symm) habsent,
    .of_absent f habsent⟩

/-- An event of a fresh stream that does not name the order ignores it. -/
private theorem OrderEvent.Ignores.of_names {f : Change} (h : ¬e.Names x) : e.Ignores x f where
  target y hy := by
    left
    rintro rfl
    exact h (.inl hy)
  orders o ho hid := h (.inr ⟨o, ho, hid⟩)

end Reference

/-! ### Cancelled orders -/

section Cancelled

variable {es₁ es₂ es₃ : List OrderEvent} {rs₁ rs₂ rs₃ : List MatchResult}
  {s : Engine (OrderBook PriceLevel)} {x : Order} {r q : MatchResult} {c : CancelOrderEvent}

/-- Take the order `x` out of a fresh stream `es₁, New x, es₂, Cancel x, es₃`, where submitting
`x` produced no trade and no rejection, no event of `es₂` and `es₃` names `x` and no result of
`es₂` mentions it. If `x` is not an iceberg with a quantity and no peak, the other events return
the results they returned. -/
theorem cancelled_leaves_no_trace
    (h : Run KeepsPlace (es₁ ++ [.newOrder ⟨x⟩] ++ es₂ ++ [.cancelOrder c] ++ es₃) s
      (rs₁ ++ [r] ++ rs₂ ++ [q] ++ rs₃))
    (hf : Fresh (es₁ ++ [.newOrder ⟨x⟩] ++ es₂ ++ [.cancelOrder c] ++ es₃))
    (hl₁ : rs₁.length = es₁.length) (hl₂ : rs₂.length = es₂.length) (hc : c.orderId = x.id)
    (htrades : r.trades = []) (hrejections : r.rejections = [])
    (hnames : ∀ e ∈ es₂ ++ es₃, ¬e.Names x.id) (hmentions : ∀ r ∈ rs₂, ¬r.Mentions x.id)
    (hpeak : x.type = .iceberg → x.peakQty = 0 → x.quantity = 0) :
    ∃ s' : Engine (OrderBook PriceLevel),
      Run KeepsPlace (es₁ ++ es₂ ++ es₃) s' (rs₁ ++ rs₂ ++ rs₃) := by
  have hf₄ := hf.left
  have hf₃ := hf₄.left
  have hf₂ := hf₃.left
  have hnames₂ : ∀ e ∈ es₂, ¬e.Names x.id := fun e he ↦ hnames e (List.mem_append_left _ he)
  have hnames₃ : ∀ e ∈ es₃, ¬e.Names x.id := fun e he ↦ hnames e (List.mem_append_right _ he)
  -- the five parts of the run, on the reference engine
  obtain ⟨t, ht, -⟩ := h.keepsPlace hf
  obtain ⟨t₄, ht₄, hcont₃⟩ := ht.split_at (by simp [hl₁, hl₂])
  obtain ⟨t₃, ht₃, -, hcancel⟩ := ht₄.last
  obtain ⟨t₂, ht₂, hcont₂⟩ := ht₃.split_at (by simp [hl₁])
  obtain ⟨t₁, ht₁, -, hnew⟩ := ht₂.last
  -- the run without the order follows
  obtain ⟨ha₂, hi₂⟩ := ht₁.submit_quiet hf₂ hnew htrades hrejections hpeak
  obtain ⟨u₁, hu₁, ha₃, hi₃⟩ := ht₂.continues_altered hf₃ hcont₂
    (fun e he ↦ .of_names (hnames₂ e he)) (.inr hmentions) ha₂ hi₂
  obtain ⟨ha₄, hi₄⟩ := ht₃.cancel_erases hf₃ ha₃ hi₃ hc hcancel (.resize id 0)
  obtain ⟨u₂, hu₂, -, -⟩ := ht₄.continues_altered (f := .resize id 0) hf hcont₃
    (fun e he ↦ .of_names (hnames₃ e he)) (.inl rfl) ha₄ hi₄
  have hfresh : Fresh (es₁ ++ es₂ ++ es₃) := by
    rw [Fresh] at hf ⊢
    apply List.Nodup.sublist _ hf
    simp only [submittedIds_append]
    apply List.Sublist.append _ (List.Sublist.refl _)
    apply List.Sublist.trans _ (List.sublist_append_left _ _)
    exact (List.sublist_append_left _ _).append (List.Sublist.refl _)
  obtain ⟨s', hs', -⟩ := ((ht₁.append hu₁).append hu₂).of_reference hfresh (L := PriceLevel)
  exact ⟨s', hs'⟩

/-- Order 1 waits at 100. -/
private def before : List OrderEvent :=
  [.newOrder ⟨{ id := 1, side := .sell, price := 100, quantity := 5 }⟩]

/-- A stop-limit that the trade of order 4 triggers and that comes to rest. -/
private def stopLimit : Order :=
  { id := 3, type := .stopLimit, price := 99, stopPrice := 100, quantity := 4 }

private def between : List OrderEvent := [.newOrder ⟨{ id := 4, price := 100, quantity := 2 }⟩]

/-- Order 5 would have met the stop-limit. -/
private def after : List OrderEvent :=
  [.newOrder ⟨{ id := 5, side := .sell, price := 99, quantity := 3 }⟩]

/-- The result of an event that only adds to the book or to the pending stops. -/
private def silent : MatchResult := {}

/-- The trade that triggers the stop-limit. -/
private def trigger : MatchResult :=
  { trades := [{ aggressorId := 4, passiveId := 1, price := 100, quantity := 2
                 aggressorSide := .buy }] }

theorem cancelled_leaves_no_trace_stopLimit : ∃ s s' : Engine (OrderBook PriceLevel),
    Run KeepsPlace (before ++ [.newOrder ⟨stopLimit⟩] ++ between ++
      [.cancelOrder { orderId := 3 }] ++ after) s
        ([silent] ++ [silent] ++ [trigger] ++ [cancelled 3 4 0] ++ [silent]) ∧
    Run KeepsPlace (before ++ between ++ after) s' ([silent] ++ [trigger] ++ [silent]) := by
  obtain ⟨s, rs, h, rfl⟩ := Run.exists_of_play (B := OrderBook PriceLevel) KeepsPlace 50
    (before ++ [.newOrder ⟨stopLimit⟩] ++ between ++ [.cancelOrder { orderId := 3 }] ++ after)
    (fun _ rs ↦ rs = [silent] ++ [silent] ++ [trigger] ++ [cancelled 3 4 0] ++ [silent])
    (by decide +kernel)
  obtain ⟨s', hs'⟩ := cancelled_leaves_no_trace h (by decide) rfl rfl rfl rfl rfl (by decide)
    (by decide) (by decide)
  exact ⟨s, s', h, hs'⟩

/-- An iceberg with a quantity and no peak. -/
private def peakless : Order :=
  { id := 1, side := .sell, type := .iceberg, price := 100, quantity := 5 }

private def buyer : List OrderEvent := [.newOrder ⟨{ id := 2, price := 100, quantity := 3 }⟩]

/-- A trade of quantity 0 with the iceberg. -/
private def nothing : MatchResult :=
  { trades := [{ aggressorId := 2, passiveId := 1, price := 100, aggressorSide := .buy }] }

/-- It rests with quantity 0, its cancel is refused, and the next buy order trades with it. -/
theorem cancelled_leaves_trace : ∃ s s' : Engine (OrderBook PriceLevel),
    Run KeepsPlace ([] ++ [.newOrder ⟨peakless⟩] ++ [] ++ [.cancelOrder { orderId := 1 }] ++ buyer)
      s ([] ++ [silent] ++ [] ++ [rejected 1 .orderNotCancellable 0] ++ [nothing]) ∧
    Fresh ([] ++ [.newOrder ⟨peakless⟩] ++ [] ++ [.cancelOrder { orderId := 1 }] ++ buyer) ∧
    (∀ e ∈ [] ++ buyer, ¬e.Names 1) ∧
    Run KeepsPlace ([] ++ [] ++ buyer) s' ([] ++ [] ++ [silent]) ∧ nothing ≠ silent := by
  obtain ⟨s, rs, h, rfl⟩ := Run.exists_of_play (B := OrderBook PriceLevel) KeepsPlace 50
    ([] ++ [.newOrder ⟨peakless⟩] ++ [] ++ [.cancelOrder { orderId := 1 }] ++ buyer)
    (fun _ rs ↦ rs = [] ++ [silent] ++ [] ++ [rejected 1 .orderNotCancellable 0] ++ [nothing])
    (by decide +kernel)
  obtain ⟨s', rs', h', rfl⟩ := Run.exists_of_play (B := OrderBook PriceLevel) KeepsPlace 50
    ([] ++ [] ++ buyer) (fun _ rs ↦ rs = [] ++ [] ++ [silent]) (by decide +kernel)
  exact ⟨s, s', h, by decide, by decide, h', by decide⟩

end Cancelled

/-! ### Reduced orders -/

/-- Trades are only added. -/
theorem Config.Moves.trades_append {B : Type} [BookOps B] {c d : Config B}
    (h : Config.Moves c d) : c.result.trades <+: d.result.trades := by
  cases h with
  | fill =>
    rw [evaluate_result]
    exact List.prefix_append _ _
  | filled | uncrossed | exhausted | unopposed | evaluated | triggered | kept =>
    exact List.prefix_rfl

section Limit

/-- A limit order meets no level at which it trades. -/
def Unmatched (b : ReferenceBook) (o : Order) : Prop :=
  ∀ p, bestPrice b o.side.opposite = some p → o.crosses p = false

/-- A limit order that meets no level at which it trades comes to rest. -/
private theorem submits_unmatched (ht : o.type = .limit) (hq : o.quantity > 0)
    (hu : Unmatched s.book o) : Submits s (.newOrder ⟨o⟩)
      ({ s with sequence := s.sequence + 1 }.insert o.accepted) {} := by
  have hsettle : Config.settle { s with sequence := s.sequence + 1 } o.accepted =
      { s with sequence := s.sequence + 1 }.insert o.accepted := by
    have ht' : o.accepted.type = .limit := ht
    rw [Config.settle, ht']
    exact if_pos hq
  have hmoves : Config.Moves (Config.start s (.newOrder ⟨o⟩))
      ⟨{ s with sequence := s.sequence + 1 }.insert o.accepted, [], {}⟩ := by
    rw [start_direct (.inl ht), ← hsettle]
    have hmarket : o.accepted.type ≠ .market := by
      change o.type ≠ .market
      rw [ht]
      decide
    cases hb : bestPrice s.book o.side.opposite with
    | none => exact .unopposed hq hb hmarket
    | some p =>
      have htrades : Config.trades o.accepted p = false := by
        rw [Config.trades, Bool.or_eq_false_iff, decide_eq_false_iff_not]
        exact ⟨hmarket, hu p hb⟩
      exact .uncrossed hq hb htrades
  exact submits_iff.mpr ⟨1, .single hmoves.step, Config.step_halt.mpr rfl⟩

/-- A limit order that does not trade meets no level at which it would. -/
private theorem Submits.unmatched (hs : Submits s (.newOrder ⟨o⟩) s' r) (ht : o.type = .limit)
    (hq : o.quantity > 0) (hr : r.trades = []) : Unmatched s.book o := by
  intro p hb
  by_contra hcross
  rw [Bool.not_eq_false] at hcross
  obtain ⟨n, hsteps, -⟩ := submits_iff.mp hs
  rw [start_direct (.inl ht)] at hsteps
  -- the first move is a fill, and its trade stays
  cases hsteps with
  | @head n _ c _ hstep hrest =>
    have htrades : Config.trades o.accepted p = true := by
      rw [Config.trades, Bool.or_eq_true]
      exact .inr hcross
    have hfill := Config.fill_of_step hstep hq hb htrades
    have hfilled : c.result.trades ≠ [] := by
      obtain ⟨_, _, _, _, _, -, -, -, rfl⟩ := Config.fill_ok hfill
      rw [evaluate_result]
      simp [MatchResult.pushTrade]
    have hkept := hrest.preserves (P := fun d ↦ c.result.trades <+: d.result.trades)
      (fun _ _ hd hstep ↦ hd.trans (Config.moves_of_step hstep).trades_append) List.prefix_rfl
    rw [hr, List.prefix_nil] at hkept
    exact hfilled hkept

end Limit

/-- Setting a quantity and then hiding the original one is resizing the order. -/
theorem ReferenceBook.Distinct.alter_updateOrderQuantity {b : ReferenceBook} (h : b.Distinct)
    (ho : b.findOrder x = some o) (q n : Quantity) :
    (BookOps.updateOrderQuantity b x q).alter x (.resize id n) =
      b.alter x (.resize (fun _ ↦ q) n) := by
  have ho' : BookOps.findOrder b x = some o := ho
  rw [BookOps.updateOrderQuantity, ho']
  change (b.storeOrder x { o with quantity := q }).alter x (.resize id n) = _
  apply ext_atPrice
  · intro side p
    rw [atPrice_alter, atPrice_storeOrder, atPrice_alter, List.filterMap_map]
    apply List.filterMap_congr
    intro z hz
    rw [Function.comp_apply, BookSide.overwrite]
    by_cases hzx : z.id = x
    · have hzo : z = o := by
        have hfind := h.findOrder_of_mem (mem_atPrice.mp hz).1
        rw [hzx, ho] at hfind
        exact (Option.some.inj hfind).symm
      have hox : o.id = x := hzo ▸ hzx
      rw [if_pos hzx, hzo]
      simp only [Change.apply, id_eq, hox, ↓reduceIte]
    · rw [if_neg hzx, Change.apply_of_ne hzx, Change.apply_of_ne hzx]
  · rfl

/-- An order of a book that resizing it to `q` leaves alone has the quantity `q`. -/
private theorem quantity_of_resized {b : ReferenceBook} {q n : Quantity}
    (h : b = b.alter x (.resize (fun _ ↦ q) n)) (ho : b.findOrder x = some o) :
    o.quantity = q := by
  have hfind := ReferenceBook.findOrder_alter b x (.resize (fun _ ↦ q) n) x
  rw [← h, ho, Option.bind_some, Change.apply,
    if_pos (ReferenceBook.mem_of_findOrder ho).2] at hfind
  have hq := congrArg Order.quantity (Option.some.inj hfind)
  exact hq

section Reduced

variable {es es₁ es₂ es₃ : List OrderEvent} {rs rs₁ rs₂ rs₃ : List MatchResult}
  {φ : Quantity → Quantity} {q n : Quantity} {m : ModifyOrderEvent}

/-- A limit order that rests without trading, and the same order with another quantity. -/
private theorem Run.submit_resized (h : Run KeepsPlace es s rs) (hf : Fresh (es ++ [.newOrder ⟨o⟩]))
    (hs : Submits s (.newOrder ⟨o⟩) s' r) (ht : o.type = .limit) (hq : o.quantity > 0)
    (hr : r.trades = []) (hq' : q > 0) :
    r = {} ∧ Intact o.id (.resize φ n) ⟨s', [], {}⟩ ∧
      ∃ t', Submits s (.newOrder ⟨{ o with quantity := q, origQty := n }⟩) t' {} ∧
        s'.Altered o.id (.resize (fun _ ↦ q) n) t' := by
  have habsent := h.absent hf.left (hf.not_mem List.mem_cons_self)
  have hu := hs.unmatched ht hq hr
  obtain ⟨rfl, rfl⟩ := hs.unique (submits_unmatched ht hq hu)
  have hgone : Intact o.id (.resize φ n) ⟨s, [], {}⟩ := .of_absent _ habsent
  have halter : s.book.alter o.id (.resize (fun _ ↦ q) n) = s.book :=
    ReferenceBook.alter_of_absent habsent.1
  refine ⟨rfl, ⟨hgone.gone, fun a ha ↦ absurd ha List.not_mem_nil, ?_⟩, _,
    submits_unmatched (o := { o with quantity := q, origQty := n }) ht hq' hu, ?_, ?_⟩
  · intro y hy hid
    rcases ReferenceBook.mem_insertOrder.mp hy with rfl | hy
    · rfl
    · exact absurd hid (habsent.1 y hy)
  · have happ : (Change.resize (fun _ ↦ q) n).apply o.id o.accepted =
        some { o with quantity := q, origQty := n }.accepted := by
      rw [Change.apply, if_pos (show o.accepted.id = o.id from rfl)]
      rfl
    have hinsert := ReferenceBook.alter_insertOrder (b := s.book) happ
    rw [halter] at hinsert
    exact hinsert.symm
  · exact (Engine.Altered.of_absent (s := s) (t := s) (.resize (fun _ ↦ q) n) rfl rfl habsent).stops

/-- The modify that reduces the order to the quantity it has on the other side. -/
private theorem Run.reduce_resized (h : Run KeepsPlace es s rs) (hf : Fresh es)
    (ha : s.Altered x (.resize (fun _ ↦ q) n) t) {q₀ n₀ : Quantity}
    (hself : s.book = s.book.alter x (.resize (fun _ ↦ q₀) n₀))
    (hi : Intact x (.resize id n) ⟨s, [], {}⟩) (hm : m.orderId = x) (hq : m.newQuantity = q)
    (hpos : q > 0) (hlt : q < q₀) (hk : KeepsPlace s (.modifyOrder m))
    (hs : Submits s (.modifyOrder m) s' r) :
    s'.Altered x (.resize id n) t ∧ Intact x (.resize id n) ⟨s', [], {}⟩ := by
  have hend := hs.of_idle rfl
  have hintact := hi.start (e := .modifyOrder m) (fun o ho ↦ absurd ho List.not_mem_nil)
  rw [hend] at hintact
  refine ⟨?_, hintact.gone, hintact.loops, hintact.resting⟩
  simp only [Config.start, Config.mk.injEq, true_and] at hend
  rw [← hend.1, Engine.processModify, hm]
  cases ho : s.book.findOrder x with
  | none =>
    have hgone := ReferenceBook.findOrder_eq_none_iff.mp ho
    have hnone : BookOps.findOrder s.book x = none := ho
    rw [hnone]
    constructor
    · rw [ha.book, ReferenceBook.alter_of_absent hgone]
      exact (ReferenceBook.alter_of_absent hgone).symm
    · exact ha.stops
  | some o =>
    obtain ⟨hmem, hid⟩ := ReferenceBook.mem_of_findOrder ho
    have hquantity : o.quantity = q₀ := quantity_of_resized hself ho
    have hrequeue : requeues m o = false := hk o (by rw [hm]; exact ho)
    have hless : (m.newQuantity != 0 && decide (m.newQuantity < o.quantity)) = true := by
      rw [hq, hquantity, Bool.and_eq_true, bne_iff_ne, decide_eq_true_eq]
      refine ⟨?_, hlt⟩
      rintro rfl
      exact absurd hpos (by decide)
    have hsome : BookOps.findOrder s.book x = some o := ho
    simp only [hsome, hi.resting o hmem hid, hrequeue, hless, ↓reduceIte, Bool.false_eq_true]
    refine ⟨?_, ha.stops⟩
    change t.book = (BookOps.updateOrderQuantity s.book x m.newQuantity).alter x (.resize id n)
    have hd : s.book.Distinct := (h.orderly hf {}).distinct
    rw [hd.alter_updateOrderQuantity ho, hq, ha.book]

/-- What a fresh stream submits later has another identifier than what it submitted before. -/
private theorem Fresh.orders_ne {es es' : List OrderEvent} (hf : Fresh (es ++ es'))
    (hx : x ∈ submittedIds es) {e : OrderEvent} (he : e ∈ es') : ∀ o ∈ e.orders, o.id ≠ x := by
  intro o ho hid
  rw [Fresh, submittedIds_append] at hf
  have hmem : o.id ∈ submittedIds es' :=
    List.mem_map_of_mem (List.mem_flatMap.mpr ⟨e, he, ho⟩)
  exact (List.nodup_append.mp hf).2.2 x hx o.id hmem hid.symm

/-- In a fresh stream `es₁, New x, es₂, Modify x, es₃`, where the limit order `x` rests without
trading, the modify reduces its quantity, no event of `es₂` names `x` and no result of `es₂`
mentions it, submit `x` with the reduced quantity instead and leave the modify out: every other
event returns the result it returned. -/
theorem reduced_as_submitted_smaller {s : Engine (OrderBook PriceLevel)} {x : Order}
    {r p : MatchResult}
    (h : Run KeepsPlace (es₁ ++ [.newOrder ⟨x⟩] ++ es₂ ++ [.modifyOrder m] ++ es₃) s
      (rs₁ ++ [r] ++ rs₂ ++ [p] ++ rs₃))
    (hf : Fresh (es₁ ++ [.newOrder ⟨x⟩] ++ es₂ ++ [.modifyOrder m] ++ es₃))
    (hl₁ : rs₁.length = es₁.length) (hl₂ : rs₂.length = es₂.length) (hm : m.orderId = x.id)
    (hlimit : x.type = .limit) (htrades : r.trades = []) (hpos : m.newQuantity > 0)
    (hless : m.newQuantity < x.quantity) (hnames : ∀ e ∈ es₂, ¬e.Names x.id)
    (hmentions : ∀ r ∈ rs₂, ¬r.Mentions x.id) (n : Quantity) :
    ∃ s' : Engine (OrderBook PriceLevel),
      Run KeepsPlace (es₁ ++ [.newOrder ⟨{ x with quantity := m.newQuantity, origQty := n }⟩] ++
        es₂ ++ es₃) s' (rs₁ ++ [r] ++ rs₂ ++ rs₃) := by
  have hf₄ := hf.left
  have hf₃ := hf₄.left
  have hf₂ := hf₃.left
  have hq : x.quantity > 0 := UInt64.lt_trans hpos hless
  have hx : x.id ∈ submittedIds (es₁ ++ [.newOrder ⟨x⟩] ++ es₂ ++ [.modifyOrder m]) := by
    simp only [submittedIds_append, submittedIds_singleton, OrderEvent.orders, List.map_cons,
      List.map_nil, List.mem_append, List.mem_singleton, or_true, true_or]
  -- the five parts of the run, on the reference engine
  obtain ⟨t, ht, -⟩ := h.keepsPlace hf
  obtain ⟨t₄, ht₄, hcont₃⟩ := ht.split_at (by simp [hl₁, hl₂])
  obtain ⟨t₃, ht₃, hk, hmodify⟩ := ht₄.last
  obtain ⟨t₂, ht₂, hcont₂⟩ := ht₃.split_at (by simp [hl₁])
  obtain ⟨t₁, ht₁, -, hnew⟩ := ht₂.last
  -- the smaller order is submitted
  obtain ⟨rfl, hi₂, u₂, hnew', ha₂⟩ := ht₁.submit_resized (φ := fun _ ↦ m.newQuantity) (n := n)
    hf₂ hnew hlimit hq htrades hpos
  obtain ⟨u₃, hu₃, ha₃, hi₃⟩ := ht₂.continues_altered hf₃ hcont₂
    (fun e he ↦ .of_names (hnames e he)) (.inr hmentions) ha₂ hi₂
  -- until the modify `x` keeps its quantity, because setting it changes nothing
  obtain ⟨-, hi₂', v₂, hnew'', hb₂⟩ := ht₁.submit_resized (φ := fun _ ↦ x.quantity)
    (n := x.origQty) hf₂ hnew hlimit hq htrades hq
  obtain ⟨rfl, -⟩ := hnew''.unique hnew
  obtain ⟨v₃, hv₃, hb₃, -⟩ := ht₂.continues_altered hf₃ hcont₂
    (fun e he ↦ .of_names (hnames e he)) (.inr hmentions) hb₂ hi₂'
  obtain ⟨rfl, -⟩ := (ht₂.append hv₃).unique ht₃
  -- the modify brings the two engines together, up to the original quantity
  obtain ⟨ha₄, hi₄⟩ := ht₃.reduce_resized hf₃ ha₃ hb₃.book
    ⟨.inr (hi₃.gone.resolve_left (by simp)), hi₃.loops, hi₃.resting⟩ hm rfl hpos hless hk hmodify
  obtain ⟨u₄, hu₄, -, -⟩ := ht₄.continues_altered (f := .resize id n) hf hcont₃
    (fun e he ↦ ⟨fun _ _ ↦ .inr rfl, hf.orders_ne hx he⟩) (.inl rfl) ha₄ hi₄
  have hfresh : Fresh (es₁ ++ [.newOrder ⟨{ x with quantity := m.newQuantity, origQty := n }⟩] ++
      es₂ ++ es₃) := by
    rw [Fresh] at hf ⊢
    simp only [submittedIds_append, submittedIds_singleton, OrderEvent.orders, List.map_cons,
      List.map_nil, List.append_nil] at hf ⊢
    exact hf
  have hrun := (ht₁.snoc (e := .newOrder _) trivial hnew').append hu₃
  obtain ⟨s', hs', -⟩ := (hrun.append hu₄).of_reference hfresh (L := PriceLevel)
  exact ⟨s', hs'⟩

/-- A sell of 9 at 100, behind order 1. -/
private def large : Order := { id := 3, side := .sell, price := 100, quantity := 9, origQty := 9 }

/-- Order 4 takes a part of order 1. -/
private def passing : List OrderEvent := [.newOrder ⟨{ id := 4, price := 100, quantity := 2 }⟩]

/-- Order 5 takes the rest of order 1 and a part of order 3, which is then cancelled. -/
private def later : List OrderEvent :=
  [.newOrder ⟨{ id := 5, price := 100, quantity := 7 }⟩, .cancelOrder { orderId := 3 }]

/-- The trades of order 5. -/
private def swept : MatchResult :=
  { trades := [{ aggressorId := 5, passiveId := 1, price := 100, quantity := 3
                 aggressorSide := .buy },
      { aggressorId := 5, passiveId := 3, price := 100, quantity := 4, aggressorSide := .buy }] }

theorem reduced_as_submitted_smaller_filled : ∃ s s' : Engine (OrderBook PriceLevel),
    Run KeepsPlace (before ++ [.newOrder ⟨large⟩] ++ passing ++
      [.modifyOrder { orderId := 3, newQuantity := 6 }] ++ later) s
        ([silent] ++ [silent] ++ [trigger] ++ [silent] ++ [swept, cancelled 3 2 0]) ∧
    Run KeepsPlace (before ++ [.newOrder ⟨{ large with quantity := 6, origQty := 6 }⟩] ++
      passing ++ later) s' ([silent] ++ [silent] ++ [trigger] ++ [swept, cancelled 3 2 0]) := by
  obtain ⟨s, rs, h, rfl⟩ := Run.exists_of_play (B := OrderBook PriceLevel) KeepsPlace 50
    (before ++ [.newOrder ⟨large⟩] ++ passing ++
      [.modifyOrder { orderId := 3, newQuantity := 6 }] ++ later)
    (fun _ rs ↦ rs = [silent] ++ [silent] ++ [trigger] ++ [silent] ++
      [swept, cancelled 3 2 0]) (by decide +kernel)
  obtain ⟨s', hs'⟩ := reduced_as_submitted_smaller h (by decide) rfl rfl rfl rfl rfl (by decide)
    (by decide) (by decide) (by decide) 6
  exact ⟨s, s', h, hs'⟩

end Reduced

end LobEngine
