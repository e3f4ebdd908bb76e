import LobEngine.Book.BookMorphism
import LobEngine.Engine.Run

/-!
# Matching commutes with recasts

Along a book morphism the machine over one book simulates the machine over the other, and every
event is answered by the recast of its answer. The sequence number and the ghost log have no
part in it: no step reads them.
-/

namespace LobEngine

open BookOps Engine Stepper

variable {φ : Recast} {B B' : Type} [BookOps B] [BookOps B']

/-- A frame with its orders and its price recast. -/
def Frame.recast (φ : Recast) : Frame → Frame
  | .matching aggressor => .matching (aggressor.recast φ)
  | .triggers lastPrice working => .triggers (φ.price lastPrice) (working.map (Order.recast φ))

/-- `t` is `s` over the image of its book, apart from the sequence number and the ghost log. -/
structure Engine.Image (f : BookMorphism φ B B') (s : Engine B) (t : Engine B') : Prop where
  book : t.book = f.book s.book
  stops : t.pendingStops = s.pendingStops.map (Order.recast φ)

/-- `d` is the image of `c`. -/
structure Config.Image (f : BookMorphism φ B B') (c : Config B) (d : Config B') : Prop where
  engine : c.engine.Image f d.engine
  stack : d.stack = c.stack.map (Frame.recast φ)
  result : d.result = c.result.recast φ

/-! ### The parts of a step -/

section Parts

variable (f : BookMorphism φ B B')

private theorem fillTrade_recast (a passive : Order) (q : Quantity) :
    fillTrade (a.recast φ) (passive.recast φ) q = (fillTrade a passive q).recast φ := by
  have hside : (if (a.recast φ).isBuy then AggressorSide.buy else AggressorSide.sell) =
      (if a.isBuy then AggressorSide.buy else AggressorSide.sell).recast φ := by
    unfold Order.isBuy
    rw [Order.side_recast]
    cases a.side with
    | buy =>
      cases h : φ.side .buy <;> simp [AggressorSide.recast, Side.aggressor, h]
    | sell =>
      cases h : φ.side .sell <;> simp [AggressorSide.recast, Side.aggressor, h]
  simp only [fillTrade, Trade.recast, hside, Order.id_recast, Order.price_recast, φ.time_zero]

private theorem markFilled_recast (a : Order) :
    markFilled (a.recast φ) = (markFilled a).recast φ := by
  unfold markFilled
  rw [Order.quantity_recast]
  split <;> rfl

private theorem exhaustion_recast (a : Order) :
    exhaustion (a.recast φ) = (exhaustion a).recast φ := by
  simp only [exhaustion, Rejection.recast, Order.id_recast, φ.time_zero]

private theorem trades_recast (a : Order) (p : Price) :
    Config.trades (a.recast φ) (φ.price p) = Config.trades a p := by
  unfold Config.trades
  rw [Order.crosses_recast, Order.type_recast]

private theorem pickPassive_recast (b : B) (side : Side) :
    pickPassive (f.book b) (φ.side side) = (pickPassive b side).map fun picked ↦
      (picked.1, picked.2.1.recast φ, f.book picked.2.2) := by
  unfold pickPassive
  rw [f.frontOrder]
  cases frontOrder b side with
  | none => rfl
  | some front =>
    simp only [Option.map_some]
    rw [f.findOrder]
    cases findOrder front.2 front.1 <;> rfl

private theorem replenishIceberg_recast (b : B) (key : OrderId) (passive : Order) (q : Quantity) :
    replenishIceberg (f.book b) key (passive.recast φ) q =
      (replenishIceberg b key passive q).map f.book := by
  let passive' := passive.recast φ
  have hhas : hasLevel (f.book b) passive'.side passive'.price =
      hasLevel b passive.side passive.price := f.hasLevel b passive.side passive.price
  have hrot : rotateLevel (f.book b) passive'.side passive'.price passive'.id q
      (min passive'.peakQty passive'.reserveQty) =
      (rotateLevel b passive.side passive.price passive.id q
        (min passive.peakQty passive.reserveQty)).map f.book := f.rotateLevel b _ _ _ _ _
  unfold replenishIceberg
  by_cases h : hasLevel b passive.side passive.price = true
  · rw [if_pos (hhas.trans h), if_pos h]
    cases hr : rotateLevel b passive.side passive.price passive.id q
      (min passive.peakQty passive.reserveQty) with
    | none =>
      rw [hr] at hrot
      simp only [passive'] at hrot
      simp only [hrot, hr, Option.map_none, Except.map]
    | some b₁ =>
      rw [hr] at hrot
      simp only [passive'] at hrot
      simp only [hrot, hr, Option.map_some, Except.map]
      rw [← f.updateOrderQuantity, ← f.storeOrder]
      rfl
  · rw [if_neg fun h' ↦ h (hhas.symm.trans h'), if_neg h]
    rfl

private theorem settlePassive_recast (b : B) (key : OrderId) (passive : Order) (q : Quantity) :
    settlePassive (f.book b) key (passive.recast φ) q =
      (settlePassive b key passive q).map f.book := by
  let passive' := { passive with quantity := passive.quantity - q }
  let b₁ := setLastTradePrice (storeOrder b key passive') passive.price
  have hb : setLastTradePrice (storeOrder (f.book b) key (passive'.recast φ))
      (φ.price passive.price) = f.book b₁ := by
    rw [f.storeOrder, f.setLastTradePrice]
  change (if passive'.quantity = 0 ∧ passive'.isIceberg = true ∧ passive'.reserveQty > 0 then
      replenishIceberg (setLastTradePrice (storeOrder (f.book b) key (passive'.recast φ))
        (φ.price passive.price)) key (passive'.recast φ) q
    else if passive'.quantity = 0 then
      .ok (cancelOrder (storeOrder (setLastTradePrice (storeOrder (f.book b) key
        (passive'.recast φ)) (φ.price passive.price)) key
        (Order.recast φ { passive' with status := .filled })) passive'.id)
    else
      .ok (updateOrderQuantity (reduceLevelVolume (setLastTradePrice (storeOrder (f.book b) key
        (passive'.recast φ)) (φ.price passive.price)) (φ.side passive'.side)
        (φ.price passive'.price) q) passive'.id passive'.quantity)) =
    (if passive'.quantity = 0 ∧ passive'.isIceberg = true ∧ passive'.reserveQty > 0 then
      replenishIceberg b₁ key passive' q
    else if passive'.quantity = 0 then
      .ok (cancelOrder (storeOrder b₁ key { passive' with status := .filled }) passive'.id)
    else
      .ok (updateOrderQuantity (reduceLevelVolume b₁ passive'.side passive'.price q) passive'.id
        passive'.quantity)).map f.book
  rw [hb]
  split
  · exact replenishIceberg_recast f b₁ key passive' q
  · split
    · rw [f.storeOrder, f.cancelOrder]
      rfl
    · rw [f.reduceLevelVolume, f.updateOrderQuantity]
      rfl

end Parts

/-! ### Images of engines -/

namespace Engine.Image

variable {f : BookMorphism φ B B'} {s : Engine B} {t : Engine B'}

theorem lastTradePrice (h : s.Image f t) :
    lastTradePrice t.book = φ.price (BookOps.lastTradePrice s.book) := by
  rw [h.book, f.lastTradePrice]

theorem log (h : s.Image f t) (g g' : GhostEvent) : (s.log g).Image f (t.log g') :=
  ⟨h.book, h.stops⟩

theorem insert (h : s.Image f t) (a : Order) : (s.insert a).Image f (t.insert (a.recast φ)) where
  book := by
    change insertOrder t.book (a.recast φ) = _
    rw [h.book, f.insertOrder]
    rfl
  stops := h.stops

private theorem setBook (h : s.Image f t) (b : B) :
    Engine.Image f { s with book := b } { t with book := f.book b } := ⟨rfl, h.stops⟩

/-- A stop joins the pending ones. -/
theorem wait (h : s.Image f t) (stop : Order) :
    Engine.Image f { s with pendingStops := s.pendingStops ++ [stop] }
      { t with pendingStops := t.pendingStops ++ [stop.recast φ] } where
  book := h.book
  stops := by
    rw [h.stops, List.map_append]
    rfl

theorem immediatelyTriggered (h : s.Image f t) (o : Order) :
    t.immediatelyTriggered (o.recast φ) = s.immediatelyTriggered o := by
  unfold Engine.immediatelyTriggered
  rw [h.lastTradePrice, Order.triggeredAt_recast]
  congr 1
  rw [Bool.eq_iff_iff, bne_iff_ne, bne_iff_ne, ne_eq, φ.price_eq_zero]

theorem settle (h : s.Image f t) (a : Order) :
    (Config.settle s a).Image f (Config.settle t (a.recast φ)) := by
  unfold Config.settle
  rw [Order.type_recast]
  split
  · rw [Order.quantity_recast]
    split
    · exact h.insert a
    · exact h
  · rw [Order.quantity_recast, Order.reserveQty_recast]
    split
    · exact h.insert a
    · exact h
  · exact h

end Engine.Image

/-! ### Images of configurations -/

namespace Config.Image

variable {f : BookMorphism φ B B'} {s : Engine B} {t : Engine B'} {K : List Frame}
  {r : MatchResult}

theorem evaluate (h : s.Image f t) : Config.Image f (.evaluate ⟨s, K, r⟩)
    (.evaluate ⟨t, K.map (Frame.recast φ), r.recast φ⟩) := by
  unfold Config.evaluate
  simp only [h.stops, h.lastTradePrice, List.map_eq_nil_iff, φ.price_eq_zero]
  split
  · exact ⟨h, rfl, rfl⟩
  · split
    · exact ⟨h, rfl, rfl⟩
    · exact ⟨⟨h.book, rfl⟩, rfl, rfl⟩

theorem enterConverted (h : s.Image f t) (stop : Order) :
    Config.Image f (.enterConverted s stop K r)
      (.enterConverted t (stop.recast φ) (K.map (Frame.recast φ)) (r.recast φ)) where
  engine := h.log _ _
  stack := by
    unfold Config.enterConverted
    rw [Order.converted_recast]
    rfl
  result := rfl

theorem enter (h : s.Image f t) (o : Order) : Config.Image f (.enter s o K r)
    (.enter t (o.recast φ) (K.map (Frame.recast φ)) (r.recast φ)) := by
  have hstop : Config.Image f
      (if s.immediatelyTriggered { o with status := .resting }
        then .enterConverted s { o with status := .resting } K r
        else ⟨{ s with pendingStops := s.pendingStops ++ [{ o with status := .resting }] }, K, r⟩)
      (if t.immediatelyTriggered (Order.recast φ { o with status := .resting })
        then .enterConverted t (Order.recast φ { o with status := .resting })
          (K.map (Frame.recast φ)) (r.recast φ)
        else ⟨{ t with
          pendingStops := t.pendingStops ++ [Order.recast φ { o with status := .resting }] },
          K.map (Frame.recast φ), r.recast φ⟩) := by
    rw [h.immediatelyTriggered]
    split
    · exact enterConverted h _
    · exact ⟨h.wait _, rfl, rfl⟩
  unfold Config.enter
  cases ht : o.type with
  | limit | market | iceberg =>
    simp only [Order.type_recast, ht]
    exact ⟨h, by simp [Frame.recast, Order.recast, splitIceberg], rfl⟩
  | stop | stopLimit =>
    simp only [Order.type_recast, ht]
    simpa only [Order.recast, ht] using hstop

/-- A fill of the image is the image of the fill. -/
theorem fill (h : s.Image f t) {a : Order} {c : Config B} (hc : Config.fill s a K r = .ok c) :
    ∃ d, Config.fill t (a.recast φ) (K.map (Frame.recast φ)) (r.recast φ) = .ok d ∧
      Config.Image f c d := by
  obtain ⟨key, passive, book, q, book', hq, hp, hs, rfl⟩ := fill_ok hc
  have hp' : pickPassive t.book (a.recast φ).side.opposite =
      .ok (key, passive.recast φ, f.book book) := by
    rw [h.book, Order.side_recast, ← φ.side_opposite, pickPassive_recast, hp]
    rfl
  have hs' : settlePassive (f.book book) key (passive.recast φ) q = .ok (f.book book') := by
    rw [settlePassive_recast, hs]
    rfl
  have hq' : q = min (a.recast φ).quantity (passive.recast φ).quantity := hq
  refine ⟨_, fill_of hq' hp' hs', ?_⟩
  have himage := evaluate (K := .matching { a with quantity := a.quantity - q } :: K)
    (r := r.pushTrade (fillTrade a passive q))
    ((h.setBook book').log (.fill (fillTrade a passive q))
      (.fill (fillTrade (a.recast φ) (passive.recast φ) q)))
  rw [MatchResult.recast_pushTrade, ← fillTrade_recast] at himage
  exact himage

/-- Running out of opposite levels. -/
theorem exhaust (h : s.Image f t) (a : Order) : Config.Image f (.exhaust s a K r)
    (.exhaust t (a.recast φ) (K.map (Frame.recast φ)) (r.recast φ)) := by
  unfold Config.exhaust
  rw [Order.type_recast]
  split
  · refine ⟨h.log _ _, rfl, ?_⟩
    rw [exhaustion_recast, ← MatchResult.recast_pushRejection]
  · rw [markFilled_recast]
    exact ⟨h.settle _, rfl, rfl⟩

/-- The machine over the image does what the machine does. -/
theorem simulates (f : BookMorphism φ B B') :
    Simulates Config.step Config.step (Config.Image f) where
  move := by
    rintro ⟨s, K, r⟩ ⟨t, K', r'⟩ c ⟨h, hK, hr⟩ hstep
    simp only at h hK hr
    subst hK hr
    cases K with
    | nil => exact absurd (Except.ok.inj hstep) (by simp)
    | cons frame K =>
      cases frame with
      | triggers p working =>
        cases working with
        | nil =>
          obtain rfl := Option.some.inj (Except.ok.inj hstep)
          exact ⟨_, rfl, h, rfl, rfl⟩
        | cons stop working =>
          simp only [List.map_cons, Frame.recast, Config.step, Order.triggeredAt_recast]
          simp only [Config.step] at hstep
          split at hstep
          · next ht =>
            obtain rfl := Option.some.inj (Except.ok.inj hstep)
            rw [if_pos ht]
            exact ⟨_, rfl, enterConverted h stop⟩
          · next ht =>
            obtain rfl := Option.some.inj (Except.ok.inj hstep)
            rw [if_neg ht]
            exact ⟨_, rfl, h.wait stop, rfl, rfl⟩
      | matching a =>
        have hbest : bestPrice t.book (a.recast φ).side.opposite =
            (bestPrice s.book a.side.opposite).map φ.price := by
          rw [h.book, Order.side_recast, ← φ.side_opposite, f.bestPrice]
        simp only [List.map_cons, Frame.recast, Config.step, Order.quantity_recast, hbest]
        simp only [Config.step] at hstep
        split at hstep
        · next hq =>
          rw [if_pos hq]
          cases hb : bestPrice s.book a.side.opposite with
          | none =>
            rw [hb] at hstep
            obtain rfl := Option.some.inj (Except.ok.inj hstep)
            exact ⟨_, rfl, exhaust h a⟩
          | some p =>
            rw [hb] at hstep
            simp only [Option.map_some, trades_recast]
            simp only at hstep
            split at hstep
            · next ht =>
              rw [if_pos ht]
              cases hf : Config.fill s a K r with
              | error e => rw [hf] at hstep; exact absurd hstep (by simp [Except.map])
              | ok c' =>
                rw [hf] at hstep
                obtain rfl := Option.some.inj (Except.ok.inj hstep)
                obtain ⟨d, hd, himage⟩ := fill h hf
                rw [hd]
                exact ⟨d, rfl, himage⟩
            · next ht =>
              obtain rfl := Option.some.inj (Except.ok.inj hstep)
              rw [if_neg ht, markFilled_recast]
              exact ⟨_, rfl, h.settle _, rfl, rfl⟩
        · next hq =>
          obtain rfl := Option.some.inj (Except.ok.inj hstep)
          rw [if_neg hq, markFilled_recast]
          exact ⟨_, rfl, h.settle _, rfl, rfl⟩
  halt := by
    rintro c d ⟨-, hK, -⟩ hstep
    rw [step_halt] at hstep ⊢
    rw [hK, hstep]
    rfl

/-- A fill of the image faults where the fill does. -/
private theorem fill_error (h : s.Image f t) {a : Order} {e : Fault}
    (he : Config.fill s a K r = .error e) :
    ∃ e', Config.fill t (a.recast φ) (K.map (Frame.recast φ)) (r.recast φ) = .error e' := by
  have hpick := pickPassive_recast f s.book a.side.opposite
  rw [φ.side_opposite, ← Order.side_recast, ← h.book] at hpick
  cases hp : pickPassive s.book a.side.opposite with
  | error e' =>
    rw [hp] at hpick
    refine ⟨e', ?_⟩
    rw [Config.fill, hpick]
    rfl
  | ok picked =>
    obtain ⟨key, passive, book⟩ := picked
    rw [hp] at hpick
    have hsettle := settlePassive_recast f book key passive (min a.quantity passive.quantity)
    cases hs : settlePassive book key passive (min a.quantity passive.quantity) with
    | error e' =>
      rw [hs] at hsettle
      have hmin : min (a.recast φ).quantity (passive.recast φ).quantity =
          min a.quantity passive.quantity := rfl
      refine ⟨e', ?_⟩
      simp only [Config.fill, hpick, Except.map, bind, Except.bind, debitFill, hmin, hsettle]
    | ok book' =>
      rw [fill_of rfl hp hs] at he
      exact absurd he (by simp)

/-- The machine over the image faults where the machine does. -/
private theorem faults (f : BookMorphism φ B B') {c : Config B} {d : Config B'}
    (h : Config.Image f c d) {e : Fault} (he : c.step = .error e) : ∃ e', d.step = .error e' := by
  rcases c with ⟨s, K, r⟩
  rcases d with ⟨t, K', r'⟩
  obtain ⟨h, hK, hr⟩ := h
  simp only at h hK hr
  subst hK hr
  cases K with
  | nil => exact absurd he (by simp [Config.step])
  | cons frame K =>
    cases frame with
    | triggers p working =>
      cases working with
      | nil => exact absurd he (by simp [Config.step])
      | cons stop working =>
        simp only [Config.step] at he
        split at he <;> exact absurd he (by simp)
    | matching a =>
      have hbest : bestPrice t.book (a.recast φ).side.opposite =
          (bestPrice s.book a.side.opposite).map φ.price := by
        rw [h.book, Order.side_recast, ← φ.side_opposite, f.bestPrice]
      simp only [List.map_cons, Frame.recast, Config.step, Order.quantity_recast, hbest]
      simp only [Config.step] at he
      split at he
      · next hq =>
        rw [if_pos hq]
        cases hb : bestPrice s.book a.side.opposite with
        | none =>
          rw [hb] at he
          exact absurd he (by simp)
        | some p =>
          rw [hb] at he
          simp only [Option.map_some, trades_recast]
          simp only at he
          split at he
          · next ht =>
            rw [if_pos ht]
            cases hf : Config.fill s a K r with
            | error e' =>
              obtain ⟨e'', he''⟩ := fill_error h hf
              rw [he'']
              exact ⟨e'', rfl⟩
            | ok c' =>
              rw [hf] at he
              exact absurd he (by simp [Except.map])
          · exact absurd he (by simp)
      · exact absurd he (by simp)

end Config.Image

/-! ### Events -/

section Events

variable {f : BookMorphism φ B B'} {s s' : Engine B} {t : Engine B'} {e : OrderEvent}
  {r : MatchResult}

private theorem processCancel_recast (h : s.Image f t) (e : CancelOrderEvent) :
    (s.processCancel e).1.Image f (t.processCancel { e with timestamp := φ.time e.timestamp }).1 ∧
      (t.processCancel { e with timestamp := φ.time e.timestamp }).2 =
        (s.processCancel e).2.recast φ := by
  have hcomp : (fun o : Order ↦ o.id == e.orderId) ∘ Order.recast φ =
      fun o : Order ↦ o.id == e.orderId := rfl
  have hpending : t.pendingStops.find? (·.id == e.orderId) =
      (s.pendingStops.find? (·.id == e.orderId)).map (Order.recast φ) := by
    rw [h.stops, List.find?_map, hcomp]
  unfold Engine.processCancel
  simp only [hpending, h.book, f.findOrder]
  cases s.pendingStops.find? (·.id == e.orderId) with
  | some stop =>
    simp only [Option.map_some]
    refine ⟨⟨rfl, ?_⟩, ?_⟩
    · simp only [h.stops, List.eraseP_map, hcomp]
    · simp [cancelled, MatchResult.recast, ExecutionReport.recast]
  | none =>
    simp only [Option.map_none]
    cases BookOps.findOrder s.book e.orderId with
    | none => exact ⟨h, rfl⟩
    | some o =>
      simp only [Option.map_some, Order.isResting_recast]
      by_cases hr : o.isResting = true
      · simp only [hr, ↓reduceIte]
        refine ⟨⟨f.cancelOrder _ _, h.stops⟩, ?_⟩
        simp [cancelled, MatchResult.recast, ExecutionReport.recast]
      · simp only [hr, Bool.false_eq_true, ↓reduceIte]
        exact ⟨h, rfl⟩

private theorem processModify_recast (h : s.Image f t) (e : ModifyOrderEvent) :
    (s.processModify e).1.Image f (t.processModify { e with
        newPrice := φ.price e.newPrice, timestamp := φ.time e.timestamp }).1 ∧
      (t.processModify { e with
        newPrice := φ.price e.newPrice, timestamp := φ.time e.timestamp }).2 =
        (s.processModify e).2.recast φ := by
  have hrej (reason : RejectReason) :
      rejected e.orderId reason 0 = (rejected e.orderId reason 0).recast φ := by
    simp only [rejected, MatchResult.recast, List.map_cons, List.map_nil, Rejection.recast,
      φ.time_zero]
  have hnone : (φ.price e.newPrice != 0) = (e.newPrice != 0) := by
    rw [Bool.eq_iff_iff, bne_iff_ne, bne_iff_ne, ne_eq, φ.price_eq_zero]
  have hrequeues (o : Order) : requeues { e with
      newPrice := φ.price e.newPrice, timestamp := φ.time e.timestamp } (o.recast φ) =
        requeues e o := by
    have hne : (φ.price e.newPrice != φ.price o.price) = (e.newPrice != o.price) := by
      rw [Bool.eq_iff_iff, bne_iff_ne, bne_iff_ne, ne_eq, φ.price_inj]
    simp only [requeues, Order.price_recast, Order.quantity_recast, hnone, hne]
    rfl
  have hmodified (o : Order) : modified { e with
      newPrice := φ.price e.newPrice, timestamp := φ.time e.timestamp } (o.recast φ) =
        (modified e o).recast φ := by
    simp only [modified, hnone, Order.recast]
    split <;> rfl
  unfold Engine.processModify
  simp only [h.book, f.findOrder]
  cases BookOps.findOrder s.book e.orderId with
  | none => exact ⟨h, hrej _⟩
  | some o =>
    have hquantity : decide (e.newQuantity < (o.recast φ).quantity) =
      decide (e.newQuantity < o.quantity) := rfl
    simp only [Option.map_some, Order.isResting_recast, hrequeues, hquantity, Order.side_recast,
      Order.price_recast]
    by_cases hr : o.isResting = true
    · simp only [hr, ↓reduceIte]
      by_cases hq : requeues e o = true
      · simp only [hq, ↓reduceIte]
        refine ⟨⟨?_, h.stops⟩, rfl⟩
        simp only
        rw [hmodified, f.cancelOrder, f.insertOrder]
      · simp only [hq, Bool.false_eq_true, ↓reduceIte]
        by_cases hless : (e.newQuantity != 0 && decide (e.newQuantity < o.quantity)) = true
        · simp only [hless, ↓reduceIte]
          refine ⟨⟨?_, h.stops⟩, rfl⟩
          simp only
          rw [f.updateOrderQuantity, f.reduceLevelVolume, Order.quantity_recast]
        · simp only [hless, Bool.false_eq_true, ↓reduceIte]
          exact ⟨h, rfl⟩
    · simp only [hr, Bool.false_eq_true, ↓reduceIte]
      exact ⟨h, hrej _⟩

/-- An event starts over the image as it starts. -/
private theorem start_recast (h : s.Image f t) (e : OrderEvent) :
    Config.Image f (.start s e) (.start t (e.recast φ)) := by
  have hcount : Engine.Image f { s with sequence := s.sequence + 1 }
      { t with sequence := t.sequence + 1 } := ⟨h.book, h.stops⟩
  cases e with
  | newOrder e => exact Config.Image.enter hcount e.order
  | cancelOrder e =>
    obtain ⟨himage, hres⟩ := processCancel_recast hcount e
    exact ⟨himage, rfl, hres⟩
  | modifyOrder e =>
    obtain ⟨himage, hres⟩ := processModify_recast hcount e
    exact ⟨himage, rfl, hres⟩
  | replaceOrder e =>
    have hhas : hasOrder t.book e.oldOrderId = hasOrder s.book e.oldOrderId := by
      rw [h.book, f.hasOrder]
    simp only [Config.start, OrderEvent.recast, hhas]
    split
    · have hcancel : Engine.Image f
          { s with sequence := s.sequence + 1, book := cancelOrder s.book e.oldOrderId }
          { t with sequence := t.sequence + 1, book := cancelOrder t.book e.oldOrderId } := by
        refine ⟨?_, h.stops⟩
        simp only
        rw [h.book, f.cancelOrder]
      exact Config.Image.enter hcancel e.newOrder
    · refine ⟨hcount, rfl, ?_⟩
      simp only [rejected, MatchResult.recast, List.map_cons, List.map_nil, Rejection.recast,
        φ.time_zero]

/-- An event over the image has the image of its outcome. -/
theorem Submits.recast (h : s.Image f t) (hs : Submits s e s' r) :
    ∃ t', Submits t (e.recast φ) t' (r.recast φ) ∧ s'.Image f t' := by
  obtain ⟨n, hn⟩ := submits_iff.mp hs
  obtain ⟨⟨t', K, r'⟩, hhalts, himage, hstack, hres⟩ :=
    (Config.Image.simulates f).halts hn (start_recast h e)
  simp only [List.map_nil] at hstack hres
  subst hstack hres
  exact ⟨t', submits_iff.mpr ⟨n, hhalts⟩, himage⟩

/-- An event is accepted where its image is. -/
theorem Submits.of_recast {t' : Engine B'} {r' : MatchResult} (h : s.Image f t)
    (hs : Submits t (e.recast φ) t' r') :
    ∃ s' r, Submits s e s' r ∧ r' = r.recast φ ∧ s'.Image f t' := by
  have hsymm := (Config.Image.simulates f).symm fun _ _ _ himage ↦ himage.faults
  obtain ⟨n, hn⟩ := submits_iff.mp hs
  obtain ⟨⟨s', K, r⟩, hhalts, himage, hstack, hres⟩ := hsymm.halts hn (start_recast h e)
  obtain rfl := List.map_eq_nil_iff.mp hstack.symm
  exact ⟨s', r, submits_iff.mpr ⟨n, hhalts⟩, hres, himage⟩

end Events

/-- The sequence number counts the events. -/
theorem Submits.sequence {s s' : Engine B} {e : OrderEvent} {r : MatchResult}
    (h : Submits s e s' r) : s'.sequence = s.sequence + 1 := by
  have hsettle (s : Engine B) (a : Order) : (Config.settle s a).sequence = s.sequence := by
    rcases Config.settle_eq s a with h | h <;> rw [h]
    rfl
  have hevaluate (c : Config B) : (Config.evaluate c).engine.sequence = c.engine.sequence := by
    unfold Config.evaluate
    split
    · rfl
    · split <;> rfl
  refine h.preserves (P := fun c ↦ c.engine.sequence = s.sequence + 1) (fun c d hc hstep ↦ ?_) ?_
  · cases Config.moves_of_step hstep with
    | filled | uncrossed | unopposed => exact (hsettle _ _).trans hc
    | fill => exact (hevaluate _).trans hc
    | exhausted | evaluated | triggered | kept => exact hc
  · have henter (s' : Engine B) (o : Order) :
        (Config.enter s' o [] {}).engine.sequence = s'.sequence := by
      simp only [Config.enter]
      split
      · rfl
      · rfl
      · rfl
      · split <;> rfl
      · split <;> rfl
    have hstart := Config.starts s e
    generalize Config.start s e = c at hstart
    cases hstart with
    | newOrder | replaced => exact henter _ _
    | stopCancelled | orderCancelled | cancelRejected | requeued | reduced | unmodified
    | replaceRejected => rfl

end LobEngine
