import LobEngine.Engine.Machine

/-!
# The recursive engine runs the machine

Every call of the mutual recursion is a path of the machine: a call that returns leads to
the configuration of its result, a call that faults leads to a step that faults, and a
call that runs out of fuel leads along a path that grows with the fuel. So where the
machine halts the recursion returns, given enough fuel, and with the same result.
-/

namespace LobEngine

open BookOps Engine Stepper

variable {B : Type} [BookOps B]

/-- The machine started in `c` follows a call that was given `fuel`: at least `m` steps to
`fin a` when the call returns `a`, about `fuel / 8` steps when it runs out of fuel. Returned
values satisfy `Q`. -/
def Follows {α : Type} (fuel k m : Nat) (c : Config B) (Q : α → Prop) (fin : α → Config B) :
    Except Fault α → Prop
  | .ok a => Q a ∧ ∃ n, m ≤ n ∧ Steps Config.step n c (fin a)
  | .error .outOfFuel => ∃ n c', Steps Config.step n c c' ∧ fuel ≤ 8 * n + k
  | .error f => ∃ n c', Steps Config.step n c c' ∧ Config.step c' = .error f

namespace Follows

variable {α β : Type} {fuel fuel' k k' m m' : Nat} {c c' : Config B} {Q : α → Prop}
  {fin : α → Config B}

/-- A call without fuel follows the empty path. -/
theorem zero : Follows 0 k m c Q fin (.error .outOfFuel) := ⟨0, c, .refl c, Nat.zero_le _⟩

/-- Run `n` steps before the call. -/
private theorem prepend {n : Nat} {out : Except Fault α} (hs : Steps Config.step n c c')
    (h : Follows fuel k m c' Q fin out) (hk : fuel' + k ≤ fuel + k' + 8 * n) (hm : m' ≤ m + n) :
    Follows fuel' k' m' c Q fin out := by
  cases out with
  | ok a =>
    obtain ⟨hQ, i, hi, hs'⟩ := h
    exact ⟨hQ, n + i, by omega, hs.trans hs'⟩
  | error f =>
    cases f with
    | outOfFuel =>
      obtain ⟨i, d, hs', hf⟩ := h
      exact ⟨n + i, d, hs.trans hs', by omega⟩
    | emptyLevel =>
      obtain ⟨i, d, hs', hf⟩ := h
      exact ⟨n + i, d, hs.trans hs', hf⟩
    | missingOrder =>
      obtain ⟨i, d, hs', hf⟩ := h
      exact ⟨n + i, d, hs.trans hs', hf⟩

/-- One move before the call. -/
theorem after {out : Except Fault α} (hs : Config.step c = .ok (some c'))
    (h : Follows fuel k m c' Q fin out) (hk : k ≤ 7) : Follows (fuel + 1) 0 1 c Q fin out :=
  h.prepend (.single hs) (by omega) (by omega)

/-- A weaker account of the same path. -/
private theorem weaken {out : Except Fault α} (h : Follows fuel k m c Q fin out)
    (hk : fuel' + k ≤ fuel + k') (hm : m' ≤ m) : Follows fuel' k' m' c Q fin out :=
  h.prepend (.refl c) (by omega) (by omega)

/-- Follow a call and then its continuation. -/
theorem bind {fuel₂ k₂ m₂ : Nat} {out : Except Fault α} {f : α → Except Fault β}
    {Q' : β → Prop} {fin' : β → Config B} (h : Follows fuel k m c Q fin out)
    (hf : ∀ a, Q a → Follows fuel₂ k₂ m₂ (fin a) Q' fin' (f a)) (hk : fuel' + k ≤ fuel + k')
    (hk₂ : fuel' + k₂ ≤ fuel₂ + k' + 8 * m) (hm : m' ≤ m + m₂) :
    Follows fuel' k' m' c Q' fin' (out >>= f) := by
  cases out with
  | ok a =>
    obtain ⟨hQ, i, hi, hs⟩ := h
    exact (hf a hQ).prepend hs (by omega) (by omega)
  | error e =>
    cases e with
    | outOfFuel =>
      obtain ⟨i, d, hs, hfuel⟩ := h
      exact ⟨i, d, hs, by omega⟩
    | emptyLevel => exact h
    | missingOrder => exact h

/-- Follow a call whose continuation only rearranges what it returned. -/
theorem map {out : Except Fault α} {out' : Except Fault β} {Q' : β → Prop} {fin' : β → Config B}
    (f : α → β) (h : Follows fuel k m c Q fin out) (he : (out >>= fun a ↦ .ok (f a)) = out')
    (hQ : ∀ a, Q a → Q' (f a)) (hfin : ∀ a, Q a → fin a = fin' (f a))
    (hk : fuel' + k ≤ fuel + k') (hm : m' ≤ m) : Follows fuel' k' m' c Q' fin' out' := by
  subst he
  cases out with
  | ok a =>
    obtain ⟨hQa, i, hi, hs⟩ := h
    exact ⟨hQ a hQa, i, by omega, hfin a hQa ▸ hs⟩
  | error e =>
    cases e with
    | outOfFuel =>
      obtain ⟨i, d, hs, hfuel⟩ := h
      exact ⟨i, d, hs, by omega⟩
    | emptyLevel => exact h
    | missingOrder => exact h

/-- Return at once. -/
theorem pure {a : α} (hQ : Q a) (h : c = fin a) : Follows fuel k 0 c Q fin (.ok a) :=
  ⟨hQ, 0, Nat.le_refl 0, h ▸ .refl c⟩

/-- Return after one step. -/
theorem single {a : α} (hQ : Q a) (h : Config.step c = .ok (some (fin a))) :
    Follows fuel k 1 c Q fin (.ok a) := ⟨hQ, 1, Nat.le_refl 1, .single h⟩

/-- Fault where the machine faults. -/
private theorem fault {f : Fault} (hf : f ≠ .outOfFuel) (h : Config.step c = .error f) :
    Follows fuel k m c Q fin (.error f) := by
  cases f with
  | outOfFuel => exact absurd rfl hf
  | emptyLevel => exact ⟨0, c, .refl c, h⟩
  | missingOrder => exact ⟨0, c, .refl c, h⟩

end Follows

/-- What each function of the recursion does to the machine, under a stack `K` of outer
loops and after a result `r` those have produced. -/
structure Adequate (B : Type) [BookOps B] (fuel : Nat) : Prop where
  direct : ∀ (s : Engine B) o K r, o.type ≠ .stop → o.type ≠ .stopLimit →
    Follows fuel 2 0 (.enter s o K r) (fun _ ↦ True) (fun a ↦ ⟨a.1, K, r ++ a.2⟩)
      (processNewOrder fuel s o)
  newOrder : ∀ (s : Engine B) o K r,
    Follows fuel 4 0 (.enter s o K r) (fun _ ↦ True) (fun a ↦ ⟨a.1, K, r ++ a.2⟩)
      (processNewOrder fuel s o)
  limit : ∀ (s : Engine B) aggressor K r result, aggressor.type ≠ .market →
    Follows fuel 1 1 ⟨s, .matching aggressor :: K, r ++ result⟩
      (fun a ↦ a.2.1.type = aggressor.type) (fun a ↦ ⟨Config.settle a.1 a.2.1, K, r ++ a.2.2⟩)
      (matchLimit fuel s aggressor result)
  market : ∀ (s : Engine B) aggressor K r result, aggressor.type = .market →
    Follows fuel 1 1 ⟨s, .matching aggressor :: K, r ++ result⟩ (fun _ ↦ True)
      (fun a ↦ ⟨a.1, K, r ++ a.2.2⟩) (matchMarket fuel s aggressor result)
  fill : ∀ (c : Config B) (s : Engine B) aggressor key passive fillQty K r result,
    c.step = (do
      let (s, aggressor, trade) ← debitFill s aggressor key passive fillQty
      return some (.evaluate ⟨s, .matching aggressor :: K, (r ++ result).pushTrade trade⟩)) →
    Follows fuel 0 1 c (fun a ↦ a.2.1.type = aggressor.type)
      (fun a ↦ ⟨a.1, .matching a.2.1 :: K, r ++ a.2.2⟩)
      (executeFill fuel s aggressor key passive fillQty result)
  evaluate : ∀ (s : Engine B) K r result,
    Follows fuel 1 0 (.evaluate ⟨s, K, r ++ result⟩) (fun _ ↦ True) (fun a ↦ ⟨a.1, K, r ++ a.2⟩)
      (evaluateStopTriggers fuel s result)
  loop : ∀ (s : Engine B) p working K r result,
    Follows fuel 0 1 ⟨s, .triggers p working :: K, r ++ result⟩ (fun _ ↦ True)
      (fun a ↦ ⟨a.1, K, r ++ a.2⟩) (triggerLoop fuel s p working result)
  triggered : ∀ (s : Engine B) stop K r result,
    Follows fuel 3 0 (.enterConverted s stop K (r ++ result)) (fun _ ↦ True)
      (fun a ↦ ⟨a.1, K, r ++ a.2⟩) (processTriggeredStop fuel s stop result)

/-- Submitting a converted stop starts its match loop. -/
private theorem enter_converted (s : Engine B) (stop : Order) (K : List Frame) (r : MatchResult) :
    .enter (s.log (.triggered stop)) stop.converted K r = Config.enterConverted s stop K r := by
  rcases converted_type stop with h | h <;> simp [Config.enter, Config.enterConverted, h]

private theorem settlePassive_error {b : B} {key : OrderId} {passive : Order} {q : Quantity}
    {f : Fault} (h : settlePassive b key passive q = .error f) : f = .emptyLevel := by
  simp only [settlePassive, replenishIceberg] at h
  split at h
  · split at h
    · split at h
      · exact (Except.error.inj h).symm
      · exact absurd h (by simp)
    · exact absurd h (by simp)
  · split at h <;> exact absurd h (by simp)

private theorem debitFill_error {s : Engine B} {aggressor : Order} {key : OrderId} {passive : Order}
    {q : Quantity} {f : Fault} (h : debitFill s aggressor key passive q = .error f) :
    f = .emptyLevel := by
  rw [debitFill] at h
  cases hs : settlePassive s.book key passive q with
  | error g =>
    rw [hs] at h
    exact Except.error.inj h ▸ settlePassive_error hs
  | ok book =>
    rw [hs] at h
    exact absurd h (by simp [Bind.bind, Except.bind, pure, Except.pure])

private theorem pickPassive_error {b : B} {side : Side} {f : Fault}
    (h : pickPassive b side = .error f) : f ≠ .outOfFuel := by
  simp only [pickPassive] at h
  split at h
  · rw [← Except.error.inj h]; decide
  · split at h
    · rw [← Except.error.inj h]; decide
    · exact absurd h (by simp)

/-- A fill debits the aggressor and leaves its other fields alone. -/
private theorem debitFill_ok {s s' : Engine B} {aggressor aggressor' : Order} {key : OrderId}
    {passive : Order} {q : Quantity} {trade : Trade}
    (h : debitFill s aggressor key passive q = .ok (s', aggressor', trade)) :
    ∃ book, settlePassive s.book key passive q = .ok book ∧
      s' = { s with book := book }.log (.fill trade) ∧
      aggressor' = { aggressor with quantity := aggressor.quantity - q } ∧
      trade = fillTrade aggressor passive q := by
  rw [debitFill] at h
  cases hs : settlePassive s.book key passive q with
  | error g => rw [hs] at h; exact absurd h (by simp [Bind.bind, Except.bind])
  | ok book =>
    rw [hs] at h
    have he := Except.ok.inj h
    simp only [Prod.mk.injEq] at he
    obtain ⟨hs', ha', ht'⟩ := he
    subst ht'
    exact ⟨book, rfl, hs'.symm, ha'.symm, rfl⟩

private theorem adequate_zero : Adequate B 0 where
  direct _ _ _ _ _ _ := by rw [processNewOrder]; exact .zero
  newOrder _ _ _ _ := by rw [processNewOrder]; exact .zero
  limit _ _ _ _ _ _ := by rw [matchLimit]; exact .zero
  market _ _ _ _ _ _ := by rw [matchMarket]; exact .zero
  fill _ _ _ _ _ _ _ _ _ _ := by rw [executeFill]; exact .zero
  evaluate _ _ _ _ := by rw [evaluateStopTriggers]; exact .zero
  loop _ _ _ _ _ _ := by unfold triggerLoop; exact .zero
  triggered _ _ _ _ _ := by rw [processTriggeredStop]; exact .zero

section Succ

variable {fuel : Nat} (ih : Adequate B fuel)

include ih

private theorem adequate_triggered (s : Engine B) (stop : Order) (K : List Frame)
    (r result : MatchResult) :
    Follows (fuel + 1) 3 0 (.enterConverted s stop K (r ++ result)) (fun _ ↦ True)
      (fun a ↦ ⟨a.1, K, r ++ a.2⟩) (processTriggeredStop (fuel + 1) s stop result) := by
  have hne : stop.converted.type ≠ .stop ∧ stop.converted.type ≠ .stopLimit := by
    rcases converted_type stop with h | h <;> simp [h]
  have hd := ih.direct (s.log (.triggered stop)) stop.converted K (r ++ result) hne.1 hne.2
  rw [enter_converted] at hd
  rw [processTriggeredStop]
  exact hd.map (fun a ↦ (a.1, result ++ a.2)) rfl (fun _ _ ↦ trivial)
    (fun a _ ↦ by rw [MatchResult.append_assoc]) (by omega) (by omega)

private theorem adequate_loop (s : Engine B) (p : Price) (working : List Order)
    (K : List Frame) (r result : MatchResult) :
    Follows (fuel + 1) 0 1 ⟨s, .triggers p working :: K, r ++ result⟩ (fun _ ↦ True)
      (fun a ↦ ⟨a.1, K, r ++ a.2⟩) (triggerLoop (fuel + 1) s p working result) := by
  unfold triggerLoop
  cases working with
  | nil => exact .single trivial rfl
  | cons stop working =>
    by_cases ht : stop.triggeredAt p
    · simp only [ht, ↓reduceIte]
      have hstep : Config.step (⟨s, .triggers p (stop :: working) :: K, r ++ result⟩ : Config B) =
          .ok (some (.enterConverted s stop (.triggers p working :: K) (r ++ result))) := by
        simp only [Config.step, ht, ↓reduceIte]
      have hcall := (ih.triggered s stop (.triggers p working :: K) r result).after hstep
        (by omega)
      exact hcall.bind (fun a _ ↦ ih.loop a.1 p working K r a.2) (by omega) (by omega) (by omega)
    · simp only [ht]
      have hstep : Config.step (⟨s, .triggers p (stop :: working) :: K, r ++ result⟩ : Config B) =
          .ok (some ⟨{ s with pendingStops := s.pendingStops ++ [stop] },
            .triggers p working :: K, r ++ result⟩) := by
        simp only [Config.step, ht]
        rfl
      exact (ih.loop _ p working K r result).prepend (.single hstep) (by omega) (by omega)

private theorem adequate_evaluate (s : Engine B) (K : List Frame) (r result : MatchResult) :
    Follows (fuel + 1) 1 0 (.evaluate ⟨s, K, r ++ result⟩) (fun _ ↦ True)
      (fun a ↦ ⟨a.1, K, r ++ a.2⟩) (evaluateStopTriggers (fuel + 1) s result) := by
  rw [evaluateStopTriggers]
  by_cases hp : s.pendingStops = []
  · rw [if_pos hp]
    exact .pure trivial (by rw [Config.evaluate, if_pos hp])
  · rw [if_neg hp]
    by_cases h0 : lastTradePrice s.book = 0
    · rw [if_pos h0]
      exact .pure trivial (by rw [Config.evaluate, if_neg hp, if_pos h0])
    · rw [if_neg h0, Config.evaluate, if_neg hp, if_neg h0]
      exact (ih.loop _ _ _ K r result).weaken (by omega) (by omega)

private theorem adequate_fill (c : Config B) (s : Engine B) (aggressor : Order) (key : OrderId)
    (passive : Order) (fillQty : Quantity) (K : List Frame) (r result : MatchResult)
    (hc : c.step = (do
      let (s, aggressor, trade) ← debitFill s aggressor key passive fillQty
      return some (.evaluate ⟨s, .matching aggressor :: K, (r ++ result).pushTrade trade⟩))) :
    Follows (fuel + 1) 0 1 c (fun a ↦ a.2.1.type = aggressor.type)
      (fun a ↦ ⟨a.1, .matching a.2.1 :: K, r ++ a.2.2⟩)
      (executeFill (fuel + 1) s aggressor key passive fillQty result) := by
  rw [executeFill]
  cases hd : debitFill s aggressor key passive fillQty with
  | error f =>
    rw [hd] at hc
    exact .fault (by rw [debitFill_error hd]; decide) hc
  | ok a =>
    obtain ⟨s', aggressor', trade⟩ := a
    rw [hd] at hc
    have heval := ih.evaluate s' (.matching aggressor' :: K) r (result.pushTrade trade)
    rw [MatchResult.append_pushTrade] at heval
    have hfrom := heval.after hc (by omega)
    obtain ⟨_, _, _, hagg, _⟩ := debitFill_ok hd
    exact hfrom.map (fun a ↦ (a.1, aggressor', a.2)) rfl (fun _ _ ↦ by rw [hagg])
      (fun _ _ ↦ rfl) (by omega) (by omega)

/-- One iteration of a match loop, followed by the rest of the loop. -/
private theorem adequate_iteration {α : Type} {c : Config B} (s : Engine B) (aggressor : Order)
    (K : List Frame) (r result : MatchResult) {Q : α → Prop} {fin : α → Config B}
    {next : Engine B → Order → MatchResult → Except Fault α}
    (hc : c.step = (Config.fill s aggressor K (r ++ result)).map some)
    (hnext : ∀ s' aggressor' result', aggressor'.type = aggressor.type →
      Follows fuel 1 1 ⟨s', .matching aggressor' :: K, r ++ result'⟩ Q fin
        (next s' aggressor' result')) :
    Follows (fuel + 1) 1 1 c Q fin (do
      let (passiveId, passive, book) ← pickPassive s.book aggressor.side.opposite
      let fillQty := min aggressor.quantity passive.quantity
      let (s, aggressor, result) ←
        executeFill fuel { s with book := book } aggressor passiveId passive fillQty result
      next s aggressor result) := by
  rw [Config.fill] at hc
  cases hp : pickPassive s.book aggressor.side.opposite with
  | error f =>
    rw [hp] at hc
    exact .fault (pickPassive_error hp) hc
  | ok a =>
    obtain ⟨passiveId, passive, book⟩ := a
    rw [hp] at hc
    have hfill := ih.fill c { s with book := book } aggressor passiveId passive
      (min aggressor.quantity passive.quantity) K r result (by
        rw [hc]
        simp only [Bind.bind, Except.bind]
        split <;> rfl)
    exact hfill.bind (fun a ha ↦ hnext a.1 a.2.1 a.2.2 ha) (by omega) (by omega) (by omega)

private theorem adequate_limit (s : Engine B) (aggressor : Order) (K : List Frame)
    (r result : MatchResult) (ht : aggressor.type ≠ .market) :
    Follows (fuel + 1) 1 1 ⟨s, .matching aggressor :: K, r ++ result⟩
      (fun a ↦ a.2.1.type = aggressor.type) (fun a ↦ ⟨Config.settle a.1 a.2.1, K, r ++ a.2.2⟩)
      (matchLimit (fuel + 1) s aggressor result) := by
  rw [matchLimit]
  by_cases hq : aggressor.quantity > 0
  · rw [if_pos hq]
    cases hb : bestPrice s.book aggressor.side.opposite with
    | none =>
      refine .single (markFilled_type _) ?_
      simp only [Config.step, hq, ↓reduceIte, hb, Config.exhaust, ht]
    | some levelPrice =>
      by_cases hx : aggressor.crosses levelPrice
      · simp only [hx, ↓reduceIte]
        have hstep : Config.step (⟨s, .matching aggressor :: K, r ++ result⟩ : Config B) =
            (Config.fill s aggressor K (r ++ result)).map some := by
          simp only [Config.step, hq, ↓reduceIte, hb, Config.trades, hx, Bool.or_true]
        exact adequate_iteration ih s aggressor K r result hstep
          (fun s' aggressor' result' he ↦ he ▸ ih.limit s' aggressor' K r result' (he ▸ ht))
      · simp only [hx]
        refine .single (markFilled_type _) ?_
        simp [Config.step, hq, hb, Config.trades, ht, hx]
  · rw [if_neg hq]
    refine .single (markFilled_type _) ?_
    simp only [Config.step, hq, ↓reduceIte]

private theorem adequate_market (s : Engine B) (aggressor : Order) (K : List Frame)
    (r result : MatchResult) (ht : aggressor.type = .market) :
    Follows (fuel + 1) 1 1 ⟨s, .matching aggressor :: K, r ++ result⟩ (fun _ ↦ True)
      (fun a ↦ ⟨a.1, K, r ++ a.2.2⟩) (matchMarket (fuel + 1) s aggressor result) := by
  have hsettle (s : Engine B) (o : Order) (ho : o.type = .market) : Config.settle s o = s := by
    rw [Config.settle, ho]
  rw [matchMarket]
  by_cases hq : aggressor.quantity > 0
  · rw [if_pos hq]
    cases hb : bestPrice s.book aggressor.side.opposite with
    | none =>
      refine .single trivial ?_
      simp only [Config.step, hq, ↓reduceIte, hb, Config.exhaust, ht,
        MatchResult.append_pushRejection]
    | some levelPrice =>
      have hstep : Config.step (⟨s, .matching aggressor :: K, r ++ result⟩ : Config B) =
          (Config.fill s aggressor K (r ++ result)).map some := by
        simp only [Config.step, hq, ↓reduceIte, hb, Config.trades, ht, decide_true, Bool.true_or]
      exact adequate_iteration ih s aggressor K r result hstep
        (fun s' aggressor' result' he ↦ ih.market s' aggressor' K r result' (he ▸ ht))
  · rw [if_neg hq]
    refine .single trivial ?_
    simp only [Config.step, hq, ↓reduceIte, hsettle s _ ((markFilled_type _).trans ht)]

private theorem adequate_direct (s : Engine B) (o : Order) (K : List Frame) (r : MatchResult)
    (h₁ : o.type ≠ .stop) (h₂ : o.type ≠ .stopLimit) :
    Follows (fuel + 1) 2 0 (.enter s o K r) (fun _ ↦ True) (fun a ↦ ⟨a.1, K, r ++ a.2⟩)
      (processNewOrder (fuel + 1) s o) := by
  rw [processNewOrder]
  cases ht : o.type with
  | limit =>
    have hl := ih.limit s { o with status := .resting } K r {} (by simp [ht])
    simp only [MatchResult.append_empty, ht] at hl
    simp only [Config.enter, ht]
    refine hl.map (fun a ↦ (if a.2.1.quantity > 0 then a.1.insert a.2.1 else a.1, a.2.2)) rfl
      (fun _ _ ↦ trivial) (fun a ha ↦ ?_) (by omega) (by omega)
    simp only [Config.settle, ha]
  | market =>
    have hm := ih.market s { o with status := .resting } K r {} ht
    simp only [MatchResult.append_empty, ht] at hm
    simp only [Config.enter, ht]
    exact hm.map (fun a ↦ (a.1, a.2.2)) rfl (fun _ _ ↦ trivial) (fun _ _ ↦ rfl) (by omega)
      (by omega)
  | stop => exact absurd ht h₁
  | stopLimit => exact absurd ht h₂
  | iceberg =>
    have hl := ih.limit s (splitIceberg { o with status := .resting }) K r {}
      (by simp [splitIceberg, ht])
    simp only [MatchResult.append_empty, splitIceberg, ht] at hl
    simp only [Config.enter, splitIceberg, ht]
    refine hl.map
      (fun a ↦ (if a.2.1.quantity > 0 ∨ a.2.1.reserveQty > 0 then a.1.insert a.2.1 else a.1,
        a.2.2))
      rfl (fun _ _ ↦ trivial) (fun a ha ↦ ?_) (by omega) (by omega)
    simp only [Config.settle, ha]

private theorem adequate_stop (s : Engine B) (o : Order) (K : List Frame) (r : MatchResult)
    (h : o.type = .stop ∨ o.type = .stopLimit) :
    Follows (fuel + 1) 4 0 (.enter s o K r) (fun _ ↦ True) (fun a ↦ ⟨a.1, K, r ++ a.2⟩)
      (processNewOrder (fuel + 1) s o) := by
  rw [processNewOrder]
  have ht := ih.triggered s { o with status := .resting } K r {}
  by_cases hi : s.immediatelyTriggered { o with status := .resting } = true
  · rcases h with h | h
    · simp only [MatchResult.append_empty, h] at ht hi
      simp only [Config.enter, h, hi, ↓reduceIte]
      exact ht.weaken (by omega) (by omega)
    · simp only [MatchResult.append_empty, h] at ht hi
      simp only [Config.enter, h, hi, ↓reduceIte]
      exact ht.weaken (by omega) (by omega)
  · rcases h with h | h
    · simp only [h] at hi
      simp only [Config.enter, h, hi]
      exact .pure trivial (by simp)
    · simp only [h] at hi
      simp only [Config.enter, h, hi]
      exact .pure trivial (by simp)

private theorem adequate_succ : Adequate B (fuel + 1) where
  direct := adequate_direct ih
  newOrder s o K r := by
    by_cases h : o.type = .stop ∨ o.type = .stopLimit
    · exact adequate_stop ih s o K r h
    · rw [not_or] at h
      exact (adequate_direct ih s o K r h.1 h.2).weaken (by omega) (by omega)
  limit := adequate_limit ih
  market := adequate_market ih
  fill := adequate_fill ih
  evaluate := adequate_evaluate ih
  loop := adequate_loop ih
  triggered := adequate_triggered ih

end Succ

/-- Every function of the recursion follows the machine, whatever its fuel. -/
theorem adequate (fuel : Nat) : Adequate B fuel := by
  induction fuel with
  | zero => exact adequate_zero
  | succ fuel ih => exact adequate_succ ih

end LobEngine
