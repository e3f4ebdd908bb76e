import LobEngine.Engine.MatchingEngine
import LobEngine.Lib.Stepper

/-!
# The engine as a machine

The recursion of `MatchingEngine` with its call stack made explicit: a frame is an active
match loop, with its local aggressor, or an active trigger loop, with the rest of its
swapped-out list and the price it captured. One step is one iteration of the loop on top.
All frames write to one result, in execution order. `Adequacy` proves that the recursive
engine runs this machine; invariants are stated over the whole stack and proved step by
step.
-/

namespace LobEngine

open BookOps Engine Stepper

/-- An active loop of the engine. -/
inductive Frame where
  | matching (aggressor : Order)
  | triggers (lastPrice : Price) (working : List Order)

/-- The engine in the middle of an event: its members, the active loops, innermost first,
and the result so far. -/
structure Config (B : Type) where
  engine : Engine B
  stack : List Frame
  result : MatchResult

/-! ### What a fill can do -/

namespace Engine

variable {B : Type} [BookOps B] {b b' : B} {key : OrderId} {o : Order} {q : Quantity}

/-- The book once the filled quantity has been taken off the passive order;
`src/engine/matching_engine.cpp:131–133`. -/
abbrev debitPassive (b : B) (key : OrderId) (o : Order) (q : Quantity) : B :=
  setLastTradePrice (storeOrder b key { o with quantity := o.quantity - q }) o.price

/-- What a fill does with the passive order, one constructor for each branch of
`settlePassive`. -/
inductive Settles (b : B) (key : OrderId) (o : Order) (q : Quantity) : B → Prop
  | replenished {b' : B} : o.quantity - q = 0 → o.isIceberg = true ∧ o.reserveQty > 0 →
      replenishIceberg (debitPassive b key o q) key { o with quantity := o.quantity - q } q =
        .ok b' → Settles b key o q b'
  | filled : o.quantity - q = 0 → ¬(o.isIceberg = true ∧ o.reserveQty > 0) →
      Settles b key o q (cancelOrder (storeOrder (debitPassive b key o q) key
        { o with quantity := o.quantity - q, status := .filled }) o.id)
  | reduced : o.quantity - q ≠ 0 →
      Settles b key o q (updateOrderQuantity
        (reduceLevelVolume (debitPassive b key o q) o.side o.price q) o.id (o.quantity - q))

theorem settles (h : settlePassive b key o q = .ok b') : Settles b key o q b' := by
  simp only [settlePassive] at h
  split at h
  · next hr => exact .replenished hr.1 hr.2 h
  · next hr =>
    split at h
    · next h0 =>
      obtain rfl := Except.ok.inj h
      exact .filled h0 fun hre ↦ hr ⟨h0, hre⟩
    · next h0 =>
      obtain rfl := Except.ok.inj h
      exact .reduced h0

end Engine

namespace Config

variable {B : Type} [BookOps B]

/-- What `process_new_order` does after its match loop;
`src/engine/matching_engine.cpp:34–36,57–59`. -/
def settle (s : Engine B) (aggressor : Order) : Engine B :=
  match aggressor.type with
  | .limit => if aggressor.quantity > 0 then s.insert aggressor else s
  | .iceberg =>
    if aggressor.quantity > 0 ∨ aggressor.reserveQty > 0 then s.insert aggressor else s
  | _ => s

/-- Start the match loop of a converted stop. -/
def enterConverted (s : Engine B) (stop : Order) (K : List Frame) (r : MatchResult) :
    Config B :=
  ⟨s.log (.triggered stop), .matching { stop.converted with status := .resting } :: K, r⟩

/-- Start `process_new_order`. A stop that waits leaves no frame. -/
def enter (s : Engine B) (o : Order) (K : List Frame) (r : MatchResult) : Config B :=
  let order := { o with status := .resting }
  match order.type with
  | .limit | .market => ⟨s, .matching order :: K, r⟩
  | .iceberg => ⟨s, .matching (splitIceberg order) :: K, r⟩
  | .stop | .stopLimit =>
    if s.immediatelyTriggered order then enterConverted s order K r
    else ⟨{ s with pendingStops := s.pendingStops ++ [order] }, K, r⟩

/-- Start `evaluate_stop_triggers`. -/
def evaluate (c : Config B) : Config B :=
  if c.engine.pendingStops = [] then c
  else if lastTradePrice c.engine.book = 0 then c
  else
    { c with
      engine := { c.engine with pendingStops := [] }
      stack := .triggers (lastTradePrice c.engine.book) c.engine.pendingStops :: c.stack }

/-- Leave a match loop that runs out of opposite levels. -/
def exhaust (s : Engine B) (aggressor : Order) (K : List Frame) (r : MatchResult) : Config B :=
  if aggressor.type = .market then
    ⟨s.log (.exhausted (exhaustion aggressor)), K, r.pushRejection (exhaustion aggressor)⟩
  else ⟨settle s (markFilled aggressor), K, r⟩

/-- Fill once, then start the evaluation of stops. -/
def fill (s : Engine B) (aggressor : Order) (K : List Frame) (r : MatchResult) :
    Except Fault (Config B) := do
  let (passiveId, passive, book) ← pickPassive s.book aggressor.side.opposite
  let (s, aggressor, trade) ← debitFill { s with book := book } aggressor passiveId passive
    (min aggressor.quantity passive.quantity)
  return evaluate ⟨s, .matching aggressor :: K, r.pushTrade trade⟩

/-- Whether the match loop of an order trades at a level. -/
def trades (aggressor : Order) (levelPrice : Price) : Bool :=
  aggressor.type = .market || aggressor.crosses levelPrice

/-- One iteration of the innermost loop. -/
def step : Machine Fault (Config B)
  | ⟨_, [], _⟩ => .ok none
  | ⟨s, .matching aggressor :: K, r⟩ =>
    if aggressor.quantity > 0 then
      match bestPrice s.book aggressor.side.opposite with
      | none => .ok (some (exhaust s aggressor K r))
      | some levelPrice =>
        if trades aggressor levelPrice then (fill s aggressor K r).map some
        else .ok (some ⟨settle s (markFilled aggressor), K, r⟩)
    else .ok (some ⟨settle s (markFilled aggressor), K, r⟩)
  | ⟨s, .triggers _ [] :: K, r⟩ => .ok (some ⟨s, K, r⟩)
  | ⟨s, .triggers p (stop :: working) :: K, r⟩ =>
    if stop.triggeredAt p then .ok (some (enterConverted s stop (.triggers p working :: K) r))
    else
      .ok (some ⟨{ s with pendingStops := s.pendingStops ++ [stop] }, .triggers p working :: K, r⟩)

/-- The machine at the start of an event, after the part of `submit` that does not match. -/
def start (s : Engine B) (event : OrderEvent) : Config B :=
  let s := { s with sequence := s.sequence + 1 }
  match event with
  | .newOrder e => enter s e.order [] {}
  | .cancelOrder e => ⟨(s.processCancel e).1, [], (s.processCancel e).2⟩
  | .modifyOrder e => ⟨(s.processModify e).1, [], (s.processModify e).2⟩
  | .replaceOrder e =>
    if hasOrder s.book e.oldOrderId then
      enter { s with book := cancelOrder s.book e.oldOrderId } e.newOrder [] {}
    else ⟨s, [], rejected e.oldOrderId .orderNotFound 0⟩

/-! ### What a step can do -/

/-- A match loop leaves its order in the book or nowhere. -/
theorem settle_eq (s : Engine B) (a : Order) : settle s a = s ∨ settle s a = s.insert a := by
  unfold settle
  split
  · split
    · exact .inr rfl
    · exact .inl rfl
  · split
    · exact .inr rfl
    · exact .inl rfl
  · exact .inl rfl

/-- An order that has traded its quantity is gone, unless it is an iceberg with a reserve. -/
theorem settle_markFilled {s : Engine B} {a : Order} (h0 : a.quantity = 0)
    (hr : a.type = .iceberg → a.reserveQty = 0) : settle s (markFilled a) = s := by
  have hq : ¬a.quantity > 0 := by
    rw [h0]
    decide
  simp only [settle, markFilled_type, markFilled_quantity, markFilled_reserveQty]
  split
  · exact if_neg hq
  · next ht =>
    have hreserve : ¬a.reserveQty > 0 := by
      rw [hr ht]
      decide
    exact if_neg (not_or.mpr ⟨hq, hreserve⟩)
  · rfl

/-- Starting an evaluation starts no match loop. -/
theorem matching_evaluate {c : Config B} {a : Order} (h : .matching a ∈ (evaluate c).stack) :
    .matching a ∈ c.stack := by
  unfold evaluate at h
  split at h
  · exact h
  · split at h
    · exact h
    · exact (List.mem_cons.mp h).resolve_left (by simp)

theorem fill_of {s : Engine B} {a passive : Order} {K : List Frame} {r : MatchResult}
    {key : OrderId} {book book' : B} {q : Quantity} (hq : q = min a.quantity passive.quantity)
    (hp : pickPassive s.book a.side.opposite = .ok (key, passive, book))
    (hs : settlePassive book key passive q = .ok book') :
    fill s a K r = .ok (evaluate
      ⟨{ s with book := book' }.log (.fill (fillTrade a passive q)),
        .matching { a with quantity := a.quantity - q } :: K,
        r.pushTrade (fillTrade a passive q)⟩) := by
  subst hq
  simp only [fill, debitFill, hp, hs, bind, Except.bind, pure, Except.pure]

theorem fill_ok {s : Engine B} {a : Order} {K : List Frame} {r : MatchResult} {c : Config B}
    (h : fill s a K r = .ok c) : ∃ key passive book q book',
      q = min a.quantity passive.quantity ∧
      pickPassive s.book a.side.opposite = .ok (key, passive, book) ∧
      settlePassive book key passive q = .ok book' ∧
      c = evaluate ⟨{ s with book := book' }.log (.fill (fillTrade a passive q)),
        .matching { a with quantity := a.quantity - q } :: K,
        r.pushTrade (fillTrade a passive q)⟩ := by
  cases hp : pickPassive s.book a.side.opposite with
  | error f => rw [fill, hp] at h; exact absurd h (by simp [bind, Except.bind])
  | ok picked =>
    obtain ⟨key, passive, book⟩ := picked
    cases hs : settlePassive book key passive (min a.quantity passive.quantity) with
    | error f =>
      simp only [fill, debitFill, hp, hs, bind, Except.bind] at h
      exact absurd h (by simp)
    | ok book' =>
      rw [fill_of rfl hp hs] at h
      exact ⟨key, passive, book, _, book', rfl, rfl, hs, (Except.ok.inj h).symm⟩

/-- The moves of the machine, one constructor for each branch of `step`. -/
inductive Moves : Config B → Config B → Prop
  | filled {s : Engine B} {a : Order} {K : List Frame} {r : MatchResult} :
      a.quantity = 0 → Moves ⟨s, .matching a :: K, r⟩ ⟨settle s (markFilled a), K, r⟩
  | uncrossed {s : Engine B} {a : Order} {K : List Frame} {r : MatchResult} {p : Price} :
      a.quantity > 0 → bestPrice s.book a.side.opposite = some p → trades a p = false →
      Moves ⟨s, .matching a :: K, r⟩ ⟨settle s a, K, r⟩
  | exhausted {s : Engine B} {a : Order} {K : List Frame} {r : MatchResult} :
      a.quantity > 0 → bestPrice s.book a.side.opposite = none → a.type = .market →
      Moves ⟨s, .matching a :: K, r⟩
        ⟨s.log (.exhausted (exhaustion a)), K, r.pushRejection (exhaustion a)⟩
  | unopposed {s : Engine B} {a : Order} {K : List Frame} {r : MatchResult} :
      a.quantity > 0 → bestPrice s.book a.side.opposite = none → a.type ≠ .market →
      Moves ⟨s, .matching a :: K, r⟩ ⟨settle s a, K, r⟩
  | fill {s : Engine B} {a passive : Order} {K : List Frame} {r : MatchResult} {p : Price}
      {key : OrderId} {book book' : B} {q : Quantity} :
      a.quantity > 0 → bestPrice s.book a.side.opposite = some p → trades a p = true →
      pickPassive s.book a.side.opposite = .ok (key, passive, book) →
      q = min a.quantity passive.quantity → settlePassive book key passive q = .ok book' →
      Moves ⟨s, .matching a :: K, r⟩ (evaluate
        ⟨{ s with book := book' }.log (.fill (fillTrade a passive q)),
          .matching { a with quantity := a.quantity - q } :: K,
          r.pushTrade (fillTrade a passive q)⟩)
  | evaluated {s : Engine B} {p : Price} {K : List Frame} {r : MatchResult} :
      Moves ⟨s, .triggers p [] :: K, r⟩ ⟨s, K, r⟩
  | triggered {s : Engine B} {p : Price} {stop : Order} {working : List Order}
      {K : List Frame} {r : MatchResult} : stop.triggeredAt p = true →
      Moves ⟨s, .triggers p (stop :: working) :: K, r⟩
        (enterConverted s stop (.triggers p working :: K) r)
  | kept {s : Engine B} {p : Price} {stop : Order} {working : List Order} {K : List Frame}
      {r : MatchResult} : stop.triggeredAt p = false →
      Moves ⟨s, .triggers p (stop :: working) :: K, r⟩
        ⟨{ s with pendingStops := s.pendingStops ++ [stop] }, .triggers p working :: K, r⟩

private theorem markFilled_of_pos {a : Order} (h : a.quantity > 0) : markFilled a = a := by
  rw [markFilled, if_neg (by intro h0; rw [h0] at h; exact absurd h (by decide))]

/-- A step is one of the moves. -/
theorem moves_of_step {c d : Config B} (h : c.step = .ok (some d)) : Moves c d := by
  rcases c with ⟨s, K, r⟩
  cases K with
  | nil => exact absurd (Except.ok.inj h) (by simp)
  | cons f K =>
    cases f with
    | matching a =>
      simp only [step] at h
      split at h
      · next hq =>
        split at h
        · next hb =>
          obtain rfl := Option.some.inj (Except.ok.inj h)
          rw [exhaust]
          split
          · next ht => exact .exhausted hq hb ht
          · next ht => rw [markFilled_of_pos hq]; exact .unopposed hq hb ht
        · next p hb =>
          split at h
          · next ht =>
            cases hf : fill s a K r with
            | error f => rw [hf] at h; exact absurd h (by simp [Except.map])
            | ok c =>
              rw [hf] at h
              obtain rfl := Option.some.inj (Except.ok.inj h)
              obtain ⟨key, passive, book, q, book', hqq, hp, hs, rfl⟩ := fill_ok hf
              exact .fill hq hb ht hp hqq hs
          · next ht =>
            obtain rfl := Option.some.inj (Except.ok.inj h)
            rw [markFilled_of_pos hq]
            exact .uncrossed hq hb (by simpa using ht)
      · next hq =>
        obtain rfl := Option.some.inj (Except.ok.inj h)
        exact .filled (by simpa using hq)
    | triggers p working =>
      cases working with
      | nil =>
        obtain rfl := Option.some.inj (Except.ok.inj h)
        exact .evaluated
      | cons stop working =>
        simp only [step] at h
        split at h
        · next ht =>
          obtain rfl := Option.some.inj (Except.ok.inj h)
          exact .triggered ht
        · next ht =>
          obtain rfl := Option.some.inj (Except.ok.inj h)
          exact .kept (by simpa using ht)

/-- Every move is a step. -/
theorem Moves.step {c d : Config B} (h : Moves c d) : c.step = .ok (some d) := by
  cases h with
  | @filled s a K r ha =>
    have hq : ¬a.quantity > 0 := by rw [ha]; decide
    simp only [Config.step, if_neg hq]
  | @uncrossed s a K r p ha hb ht =>
    simp only [Config.step, if_pos ha, hb, ht, markFilled_of_pos ha, Bool.false_eq_true, ↓reduceIte]
  | @exhausted s a K r ha hb ht => simp only [Config.step, if_pos ha, hb, exhaust, if_pos ht]
  | @unopposed s a K r ha hb ht =>
    simp only [Config.step, if_pos ha, hb, exhaust, if_neg ht, markFilled_of_pos ha]
  | fill ha hb ht hp hq hs =>
    simp only [Config.step, if_pos ha, hb, ht, ↓reduceIte, fill_of hq hp hs, Except.map]
  | evaluated => rfl
  | triggered ht => simp only [Config.step, ht, ↓reduceIte]
  | kept ht => simp only [Config.step, ht, Bool.false_eq_true, ↓reduceIte]

/-- An order that meets a level at which it trades fills once. -/
theorem fill_of_step {s : Engine B} {a : Order} {K : List Frame} {r : MatchResult} {p : Price}
    {c : Config B} (h : step ⟨s, .matching a :: K, r⟩ = .ok (some c)) (hq : a.quantity > 0)
    (hb : bestPrice s.book a.side.opposite = some p) (ht : trades a p = true) :
    fill s a K r = .ok c := by
  simp only [step, if_pos hq, hb, if_pos ht] at h
  cases hf : fill s a K r with
  | error f =>
    rw [hf] at h
    exact absurd h (by simp [Except.map])
  | ok d =>
    rw [hf] at h
    exact congrArg _ (Option.some.inj (Except.ok.inj h))

/-- How an event starts, one constructor for each path of `submit` before any matching. -/
inductive Starts (s : Engine B) : OrderEvent → Config B → Prop
  | newOrder {e : NewOrderEvent} :
      Starts s (.newOrder e) (enter { s with sequence := s.sequence + 1 } e.order [] {})
  | stopCancelled {e : CancelOrderEvent} {stop : Order} :
      s.pendingStops.find? (·.id == e.orderId) = some stop →
      Starts s (.cancelOrder e) ⟨{ s with
        sequence := s.sequence + 1
        pendingStops := s.pendingStops.eraseP (·.id == e.orderId) }, [],
        cancelled e.orderId stop.quantity e.timestamp⟩
  | orderCancelled {e : CancelOrderEvent} {order : Order} :
      s.pendingStops.find? (·.id == e.orderId) = none →
      findOrder s.book e.orderId = some order → order.isResting = true →
      Starts s (.cancelOrder e) ⟨{ s with
        sequence := s.sequence + 1
        book := cancelOrder s.book e.orderId }, [],
        cancelled e.orderId order.quantity e.timestamp⟩
  | cancelRejected {e : CancelOrderEvent} {reason : RejectReason} :
      s.pendingStops.find? (·.id == e.orderId) = none →
      (∀ order, findOrder s.book e.orderId = some order → order.isResting = false) →
      Starts s (.cancelOrder e) ⟨{ s with sequence := s.sequence + 1 }, [],
        rejected e.orderId reason e.timestamp⟩
  | requeued {e : ModifyOrderEvent} {order : Order} :
      findOrder s.book e.orderId = some order → order.isResting = true →
      requeues e order = true →
      Starts s (.modifyOrder e) ⟨{ s with
        sequence := s.sequence + 1
        book := insertOrder (cancelOrder s.book e.orderId) (modified e order) }, [], {}⟩
  | reduced {e : ModifyOrderEvent} {order : Order} :
      findOrder s.book e.orderId = some order → order.isResting = true →
      requeues e order = false → e.newQuantity ≠ 0 → e.newQuantity < order.quantity →
      Starts s (.modifyOrder e) ⟨{ s with
        sequence := s.sequence + 1
        book := reduceLevelVolume (updateOrderQuantity s.book e.orderId e.newQuantity)
          order.side order.price (order.quantity - e.newQuantity) }, [], {}⟩
  | unmodified {e : ModifyOrderEvent} {res : MatchResult} : res.trades = [] →
      Starts s (.modifyOrder e) ⟨{ s with sequence := s.sequence + 1 }, [], res⟩
  | replaced {e : ReplaceOrderEvent} : hasOrder s.book e.oldOrderId = true →
      Starts s (.replaceOrder e) (enter { s with
        sequence := s.sequence + 1
        book := cancelOrder s.book e.oldOrderId } e.newOrder [] {})
  | replaceRejected {e : ReplaceOrderEvent} : hasOrder s.book e.oldOrderId = false →
      Starts s (.replaceOrder e) ⟨{ s with sequence := s.sequence + 1 }, [],
        rejected e.oldOrderId .orderNotFound 0⟩

private theorem starts_cancel (s : Engine B) (e : CancelOrderEvent) :
    Starts s (.cancelOrder e) (.start s (.cancelOrder e)) := by
  simp only [start, processCancel]
  split
  · next stop hp => exact .stopCancelled hp
  · next hp =>
    split
    · next ho => exact .cancelRejected hp fun order h ↦ absurd (ho.symm.trans h) (by simp)
    · next order ho =>
      split
      · next hr => exact .orderCancelled hp ho hr
      · next hr =>
        refine .cancelRejected hp fun order' h ↦ ?_
        obtain rfl := Option.some.inj (ho.symm.trans h)
        simpa using hr

private theorem starts_modify (s : Engine B) (e : ModifyOrderEvent) :
    Starts s (.modifyOrder e) (.start s (.modifyOrder e)) := by
  simp only [start, processModify]
  split
  · exact .unmodified rfl
  · next order ho =>
    split
    · next hr =>
      split
      · next hq => exact .requeued ho hr hq
      · next hq =>
        split
        · next hless =>
          rw [Bool.and_eq_true, bne_iff_ne, decide_eq_true_eq] at hless
          exact .reduced ho hr (by simpa using hq) hless.1 hless.2
        · exact .unmodified rfl
    · exact .unmodified rfl

/-- Every event starts in one of these ways. -/
theorem starts (s : Engine B) (e : OrderEvent) : Starts s e (.start s e) := by
  cases e with
  | newOrder e => exact .newOrder
  | cancelOrder e => exact starts_cancel s e
  | modifyOrder e => exact starts_modify s e
  | replaceOrder e =>
    simp only [start]
    split
    · next h => exact .replaced h
    · next h => exact .replaceRejected (by simpa using h)

/-- The machine stops only without active loops. -/
theorem step_halt {c : Config B} : c.step = .ok none ↔ c.stack = [] := by
  rcases c with ⟨s, K, r⟩
  constructor
  · intro h
    cases K with
    | nil => rfl
    | cons f K =>
      exfalso
      cases f with
      | matching aggressor =>
        simp only [step] at h
        split at h
        · split at h
          · exact absurd (Except.ok.inj h) (by simp)
          · split at h
            · cases hf : fill s aggressor K r <;> rw [hf] at h <;>
                exact absurd h (by simp [Except.map])
            · exact absurd (Except.ok.inj h) (by simp)
        · exact absurd (Except.ok.inj h) (by simp)
      | triggers p working =>
        cases working with
        | nil => exact absurd (Except.ok.inj h) (by simp)
        | cons stop working =>
          simp only [step] at h
          split at h <;> exact absurd (Except.ok.inj h) (by simp)
  · intro h
    simp only at h
    rw [h]
    rfl

end Config

end LobEngine
