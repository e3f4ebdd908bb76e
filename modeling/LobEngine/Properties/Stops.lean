import LobEngine.Engine.Run

/-!
# The stops during an event

While evaluations are active the pending stops are spread over `pending_stops_` and the
swapped-out lists. Read from the member to the outermost list they form one line, in which
every stop keeps its place until it is converted. `StopStep` is what one move of the machine
does to that line.
-/

namespace LobEngine

open BookOps Engine Stepper

/-- The stops a frame has not compared yet. -/
def Frame.waiting : Frame → List Order
  | .matching _ => []
  | .triggers _ working => working

/-- The stops that a stack of frames has not compared yet, innermost frame first. -/
def waiting (K : List Frame) : List Order := K.flatMap Frame.waiting

/-- All stops not yet converted: the requeued ones, then the swapped-out ones. -/
def Config.line {B : Type} (c : Config B) : List Order :=
  c.engine.pendingStops ++ waiting c.stack

/-- The stops a stretch of the ghost log converts. -/
def conversions (log : List GhostEvent) : List Order :=
  log.filterMap fun
    | .triggered stop => some stop
    | _ => none

@[simp] theorem conversions_append (g g' : List GhostEvent) :
    conversions (g ++ g') = conversions g ++ conversions g' := List.filterMap_append

@[simp] theorem waiting_nil : waiting [] = [] := rfl

@[simp] theorem waiting_matching (a : Order) (K : List Frame) :
    waiting (.matching a :: K) = waiting K := rfl

@[simp] theorem waiting_triggers (p : Price) (working : List Order) (K : List Frame) :
    waiting (.triggers p working :: K) = working ++ waiting K := rfl

section LastPrice

variable {L : Type} [PriceLevelOps L]

private theorem lastTradePrice_update (b : OrderBook L) (id : OrderId) (q : Quantity) :
    (updateOrderQuantity b id q).lastTradePrice = b.lastTradePrice := by
  rw [updateOrderQuantity]
  split <;> rfl

private theorem lastTradePrice_rotate {b b' : OrderBook L} {side : Side} {p : Price}
    {id : OrderId} {filled peak : Quantity}
    (h : b.rotateLevel side p id filled peak = some b') :
    b'.lastTradePrice = b.lastTradePrice := by
  rw [OrderBook.rotateLevel, Option.bind_eq_bind, Option.bind_eq_some_iff] at h
  obtain ⟨l, -, h⟩ := h
  obtain ⟨m, -, h⟩ := Option.bind_eq_some_iff.mp h
  obtain rfl := Option.some.inj h
  exact OrderBook.lastTradePrice_setLevel _ _ _ _

theorem lastTradePrice_insertOrder (b : OrderBook L) (o : Order) :
    (b.insertOrder o).lastTradePrice = b.lastTradePrice := by
  rw [OrderBook.insertOrder, OrderBook.lastTradePrice_setLevel]
  rfl

private theorem lastTradePrice_reduceLevelVolume (b : OrderBook L) (side : Side) (p : Price)
    (q : Quantity) : (b.reduceLevelVolume side p q).lastTradePrice = b.lastTradePrice := by
  rw [OrderBook.reduceLevelVolume]
  split
  · rfl
  · rw [OrderBook.lastTradePrice_setLevel]

theorem lastTradePrice_modify (b : OrderBook L) (side : Side) (p : Price) (id : OrderId)
    (q q' : Quantity) : (reduceLevelVolume (updateOrderQuantity b id q) side p q').lastTradePrice =
      b.lastTradePrice :=
  (lastTradePrice_reduceLevelVolume _ side p q').trans (lastTradePrice_update b id q)

private theorem lastTradePrice_replenish {b b' : OrderBook L} {key : OrderId} {passive : Order}
    {q : Quantity} (h : replenishIceberg b key passive q = .ok b') :
    b'.lastTradePrice = b.lastTradePrice := by
  rw [replenishIceberg] at h
  split at h
  · cases hrot : rotateLevel b passive.side passive.price passive.id q
      (min passive.peakQty passive.reserveQty) with
    | none =>
      simp only [hrot] at h
      exact absurd h (by simp)
    | some b₁ =>
      simp only [hrot] at h
      obtain rfl := Except.ok.inj h
      have hlast : b₁.lastTradePrice = b.lastTradePrice := lastTradePrice_rotate hrot
      exact (lastTradePrice_update _ _ _).trans hlast
  · obtain rfl := Except.ok.inj h
    rfl

/-- A fill leaves its own price as the last trade price. -/
theorem lastTradePrice_settlePassive {b b' : OrderBook L} {key : OrderId} {passive : Order}
    {q : Quantity} (h : settlePassive b key passive q = .ok b') :
    b'.lastTradePrice = passive.price := by
  cases settles h with
  | replenished _ _ hb => exact lastTradePrice_replenish hb
  | filled => exact OrderBook.lastTradePrice_cancelOrder _ _
  | reduced =>
    exact (lastTradePrice_update _ _ _).trans (lastTradePrice_reduceLevelVolume _ _ _ _)

end LastPrice

/-- What one move does to the stops, to the trades and to the last trade price. -/
inductive StopStep {B : Type} [BookOps B] : Config B → Config B → Prop
  | left {s s' : Engine B} {f : Frame} {K : List Frame} {r r' : MatchResult}
      {g : List GhostEvent} : f.waiting = [] → s'.pendingStops = s.pendingStops →
      lastTradePrice s'.book = lastTradePrice s.book → s'.ghost = s.ghost ++ g →
      conversions g = [] → r'.trades = r.trades → StopStep ⟨s, f :: K, r⟩ ⟨s', K, r'⟩
  | traded {s s' : Engine B} {a a' : Order} {K : List Frame} {r : MatchResult} {t : Trade} :
      a'.id = a.id → t.aggressorId = a.id → s'.pendingStops = s.pendingStops →
      lastTradePrice s'.book = t.price → s'.ghost = s.ghost ++ [.fill t] →
      StopStep ⟨s, .matching a :: K, r⟩ (.evaluate ⟨s', .matching a' :: K, r.pushTrade t⟩)
  | converted {s : Engine B} {p : Price} {stop : Order} {working : List Order} {K : List Frame}
      {r : MatchResult} : stop.triggeredAt p = true →
      StopStep ⟨s, .triggers p (stop :: working) :: K, r⟩
        (.enterConverted s stop (.triggers p working :: K) r)
  | kept {s : Engine B} {p : Price} {stop : Order} {working : List Order} {K : List Frame}
      {r : MatchResult} : stop.triggeredAt p = false →
      StopStep ⟨s, .triggers p (stop :: working) :: K, r⟩
        ⟨{ s with pendingStops := s.pendingStops ++ [stop] }, .triggers p working :: K, r⟩

section StopStep

variable {L : Type} [PriceLevelOps L] {c d : Config (OrderBook L)}

private theorem stopStep_settle (s : Engine (OrderBook L)) (a a' : Order) (K : List Frame)
    (r : MatchResult) : StopStep ⟨s, .matching a :: K, r⟩ ⟨Config.settle s a', K, r⟩ := by
  rcases Config.settle_eq s a' with h | h
  · rw [h]
    exact .left (g := []) rfl rfl rfl (List.append_nil _).symm rfl rfl
  · rw [h]
    exact .left (g := []) rfl rfl (lastTradePrice_insertOrder s.book a') (List.append_nil _).symm
      rfl rfl

/-- Every move is a step of this kind. -/
theorem stopStep_of_moves (h : Config.Moves c d) : StopStep c d := by
  cases h with
  | filled => exact stopStep_settle _ _ _ _ _
  | uncrossed => exact stopStep_settle _ _ _ _ _
  | unopposed => exact stopStep_settle _ _ _ _ _
  | exhausted => exact .left rfl rfl rfl rfl rfl rfl
  | fill _ _ _ _ _ hs => exact .traded rfl rfl rfl (lastTradePrice_settlePassive hs) rfl
  | evaluated => exact .left (g := []) rfl rfl rfl (List.append_nil _).symm rfl rfl
  | triggered ht => exact .converted ht
  | kept ht => exact .kept ht

end StopStep

/-- Starting an evaluation leaves the line as it is. -/
theorem line_evaluate {B : Type} [BookOps B] (c : Config B) :
    (Config.evaluate c).line = c.line := by
  rw [Config.evaluate]
  split
  · rfl
  · split
    · rfl
    · rfl

/-! ### How an event starts -/

/-- The order an event hands to `process_new_order`. A replace hands over its new order only
if the old one is in the book; `src/engine/matching_engine.cpp:319–339`. -/
def handed {B : Type} [BookOps B] (s : Engine B) : OrderEvent → Option Order
  | .newOrder e => some e.order
  | .replaceOrder e => if hasOrder s.book e.oldOrderId then some e.newOrder else none
  | .cancelOrder _ | .modifyOrder _ => none

theorem orders_of_handed {B : Type} [BookOps B] {s : Engine B} {e : OrderEvent} {o : Order}
    (h : handed s e = some o) : e.orders = [o] := by
  cases e with
  | newOrder e => rw [← Option.some.inj h]; rfl
  | replaceOrder e =>
    simp only [handed] at h
    split at h
    · rw [← Option.some.inj h]; rfl
    · exact absurd h (by simp)
  | cancelOrder _ | modifyOrder _ => exact absurd h (by simp [handed])

theorem mem_orders_of_handed {B : Type} [BookOps B] {s : Engine B} {e : OrderEvent} {o : Order}
    (h : handed s e = some o) : o ∈ e.orders := by
  rw [orders_of_handed h]
  exact List.mem_singleton_self o

/-- A fresh event hands over an order with a new identifier. -/
theorem Fresh.handed {B : Type} [BookOps B] {s : Engine B} {es : List OrderEvent} {e : OrderEvent}
    {o : Order} (hf : Fresh (es ++ [e])) (h : handed s e = some o) : o.id ∉ submittedIds es :=
  hf.not_mem (List.mem_map_of_mem (mem_orders_of_handed h))

/-- A stop or a stop-limit. -/
def Order.isStop (o : Order) : Bool := o.type == .stop || o.type == .stopLimit

/-- The order as `process_new_order` takes it over. -/
def Order.accepted (o : Order) : Order := { o with status := .resting }

/-- How an event starts, as far as the stops are concerned. -/
inductive StopStart {B : Type} [BookOps B] (s : Engine B) : OrderEvent → Config B → Prop
  | cancelled {e : CancelOrderEvent} {s' : Engine B} {r : MatchResult} {stop : Order} :
      s.pendingStops.find? (·.id == e.orderId) = some stop →
      s'.pendingStops = s.pendingStops.eraseP (·.id == e.orderId) → s'.ghost = s.ghost →
      lastTradePrice s'.book = lastTradePrice s.book → r.trades = [] →
      StopStart s (.cancelOrder e) ⟨s', [], r⟩
  | quiet {e : OrderEvent} {s' : Engine B} {r : MatchResult} :
      (∀ o, handed s e = some o → o.isStop = false) → s'.pendingStops = s.pendingStops →
      s'.ghost = s.ghost → lastTradePrice s'.book = lastTradePrice s.book → r.trades = [] →
      StopStart s e ⟨s', [], r⟩
  | matching {e : OrderEvent} {s' : Engine B} {o a : Order} :
      handed s e = some o → o.isStop = false → a.id = o.id →
      s'.pendingStops = s.pendingStops → s'.ghost = s.ghost →
      lastTradePrice s'.book = lastTradePrice s.book →
      StopStart s e ⟨s', [.matching a], {}⟩
  | waits {e : OrderEvent} {s' : Engine B} {o : Order} :
      handed s e = some o → o.isStop = true → s.immediatelyTriggered o.accepted = false →
      s'.pendingStops = s.pendingStops ++ [o.accepted] → s'.ghost = s.ghost →
      lastTradePrice s'.book = lastTradePrice s.book → StopStart s e ⟨s', [], {}⟩
  | converted {e : OrderEvent} {s' : Engine B} {o : Order} :
      handed s e = some o → o.isStop = true → s.immediatelyTriggered o.accepted = true →
      s'.pendingStops = s.pendingStops → s'.ghost = s.ghost →
      lastTradePrice s'.book = lastTradePrice s.book →
      StopStart s e (.enterConverted s' o.accepted [] {})

section StopStart

variable {L : Type} [PriceLevelOps L]

private theorem stopStart_enter {s s' : Engine (OrderBook L)} {e : OrderEvent} {o : Order}
    (h : handed s e = some o) (hp : s'.pendingStops = s.pendingStops) (hg : s'.ghost = s.ghost)
    (hl : lastTradePrice s'.book = lastTradePrice s.book) :
    StopStart s e (.enter s' o [] {}) := by
  have hi : s'.immediatelyTriggered o.accepted = s.immediatelyTriggered o.accepted := by
    rw [immediatelyTriggered, immediatelyTriggered, hl]
  have hstop (hs : o.isStop = true) : StopStart s e
      (if s'.immediatelyTriggered o.accepted then .enterConverted s' o.accepted [] {}
        else ⟨{ s' with pendingStops := s'.pendingStops ++ [o.accepted] }, [], {}⟩) := by
    split
    · next hi' => exact .converted h hs (hi ▸ hi') hp hg hl
    · next hi' =>
      refine .waits h hs ?_ (hp ▸ rfl) hg hl
      rw [hi] at hi'
      simpa using hi'
  simp only [Config.enter]
  split
  · next ht => exact .matching h (by simp [Order.isStop, ht]) rfl hp hg hl
  · next ht => exact .matching h (by simp [Order.isStop, ht]) rfl hp hg hl
  · next ht => exact .matching h (by simp [Order.isStop, ht]) rfl hp hg hl
  · next ht => exact hstop (by simp [Order.isStop, ht])
  · next ht => exact hstop (by simp [Order.isStop, ht])

/-- Every event starts in one of these ways. -/
theorem stopStart (s : Engine (OrderBook L)) (e : OrderEvent) :
    StopStart s e (.start s e) := by
  have hstart := Config.starts s e
  generalize Config.start s e = c at hstart
  cases hstart with
  | newOrder => exact stopStart_enter rfl rfl rfl rfl
  | stopCancelled hf => exact .cancelled hf rfl rfl rfl rfl
  | orderCancelled =>
    exact .quiet (fun o h ↦ absurd h (by simp [handed])) rfl rfl
      (OrderBook.lastTradePrice_cancelOrder _ _) rfl
  | cancelRejected =>
    exact .quiet (fun o h ↦ absurd h (by simp [handed])) rfl rfl rfl rfl
  | requeued =>
    exact .quiet (fun o h ↦ absurd h (by simp [handed])) rfl rfl
      ((lastTradePrice_insertOrder _ _).trans (OrderBook.lastTradePrice_cancelOrder _ _)) rfl
  | reduced =>
    exact .quiet (fun o h ↦ absurd h (by simp [handed])) rfl rfl
      (lastTradePrice_modify _ _ _ _ _ _) rfl
  | unmodified hr => exact .quiet (fun o h ↦ absurd h (by simp [handed])) rfl rfl rfl hr
  | replaced h =>
    exact stopStart_enter (by simp [handed, h]) rfl rfl (OrderBook.lastTradePrice_cancelOrder _ _)
  | replaceRejected h =>
    exact .quiet (fun o h' ↦ absurd h' (by simp [handed, h])) rfl rfl rfl rfl

end StopStart

end LobEngine
