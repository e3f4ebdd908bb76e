import LobEngine.Engine.Run
import Mathlib.Data.List.GetD
import Mathlib.Data.List.Perm.Basic
import Mathlib.Data.Rat.Defs

/-!
# The synthetic generator

`src/feed/synthetic_gen.hpp`, `src/feed/synthetic_gen.cpp`. The random number engine and the
distributions are left out: a call of `next` is given what they yield, any value in the range of
the distribution. The value of the normal distribution is given rounded, in the range of a price.
The other doubles are only compared; they are rationals here.
-/

namespace LobEngine

/-- The members of `struct EngineConfig` that the generator reads;
`src/core/config.hpp:8,24–31`. -/
structure EngineConfig where
  midPrice : Price := 10000
  cancelProbability : Rat
  marketMakerMode : Bool := false

/-- What the distributions yield in a call of `next`; `src/feed/synthetic_gen.hpp:28–31`,
`src/feed/synthetic_gen.cpp:44,59`. -/
structure Draws where
  uniform : Rat
  side : Rat
  quantity : Quantity
  offset : Int
  spread : Int
  index (last : Nat) : Fin (last + 1)
  uniform_range : 0 ≤ uniform ∧ uniform < 1
  side_range : 0 ≤ side ∧ side < 1
  offset_range : InInt64 offset
  quantity_range : 1 ≤ quantity ∧ quantity ≤ 500
  spread_range : 1 ≤ spread ∧ spread ≤ 3

/-- `class SyntheticGenerator`; `src/feed/synthetic_gen.hpp:18–27`. -/
structure SyntheticGenerator where
  config : EngineConfig
  midPrice : Price
  nextOrderId : UInt64
  eventCount : UInt64
  maxEvents : UInt64
  currentTs : Timestamp
  liveOrders : List OrderId

namespace SyntheticGenerator

/-- `SyntheticGenerator::SyntheticGenerator`; `src/feed/synthetic_gen.cpp:7–9`. -/
def init (config : EngineConfig) (maxEvents : UInt64) : SyntheticGenerator where
  config := config
  midPrice := config.midPrice
  nextOrderId := 1
  eventCount := 0
  maxEvents := maxEvents
  currentTs := 1700000000000000000
  liveOrders := []

/-- `SyntheticGenerator::sample_price`; `src/feed/synthetic_gen.cpp:28–32`. -/
def samplePrice (g : SyntheticGenerator) (d : Draws) : Price :=
  max (narrow64 (g.midPrice + d.offset)) 1

/-- The order of `generate_new_order`; `src/feed/synthetic_gen.cpp:35–52`. -/
def newOrder (g : SyntheticGenerator) (d : Draws) : Order :=
  let side : Side := if d.side < 1 / 2 then .buy else .sell
  { id := g.nextOrderId
    side := side
    type := .limit
    price :=
      if g.config.marketMakerMode then
        if side = .buy then narrow64 (g.midPrice - d.spread)
        else narrow64 (g.midPrice + d.spread)
      else g.samplePrice d
    quantity := d.quantity
    origQty := d.quantity
    timestamp := g.currentTs
    status := .new }

/-- `SyntheticGenerator::generate_new_order`; `src/feed/synthetic_gen.cpp:34–56`. -/
def generateNewOrder (g : SyntheticGenerator) (d : Draws) : OrderEvent × SyntheticGenerator :=
  (.newOrder ⟨g.newOrder d⟩,
    { g with nextOrderId := g.nextOrderId + 1
             liveOrders := g.liveOrders ++ [(g.newOrder d).id] })

/-- `SyntheticGenerator::generate_cancel`, which fills the place of the cancelled order with the
last one; `src/feed/synthetic_gen.cpp:58–71`. -/
def generateCancel (g : SyntheticGenerator) (d : Draws) : OrderEvent × SyntheticGenerator :=
  let idx := (d.index (g.liveOrders.length - 1)).val
  (.cancelOrder { orderId := g.liveOrders.getD idx 0, timestamp := g.currentTs },
    { g with liveOrders := (g.liveOrders.set idx (g.liveOrders.getLastD 0)).dropLast })

/-- The count and the clock of the next event, 1 ms later. -/
def tick (g : SyntheticGenerator) : SyntheticGenerator :=
  { g with eventCount := g.eventCount + 1, currentTs := g.currentTs + 1000000 }

/-- `SyntheticGenerator::next`; `src/feed/synthetic_gen.cpp:11–26`. -/
def next (g : SyntheticGenerator) (d : Draws) : Option (OrderEvent × SyntheticGenerator) :=
  if g.eventCount ≥ g.maxEvents then none
  else if !g.liveOrders.isEmpty && decide (d.uniform < g.config.cancelProbability) then
    some (g.tick.generateCancel d)
  else some (g.tick.generateNewOrder d)

/-- Calls of `next`, one after another. -/
def stream : List Draws → SyntheticGenerator → Option (List OrderEvent × SyntheticGenerator)
  | [], g => some ([], g)
  | d :: ds, g => do
    let (e, g) ← g.next d
    let (es, g) ← stream ds g
    return (e :: es, g)

end SyntheticGenerator

/-- The events of the first calls of `next`, and the generator after them. -/
inductive Generates (config : EngineConfig) (maxEvents : UInt64) :
    List OrderEvent → SyntheticGenerator → Prop
  | init : Generates config maxEvents [] (.init config maxEvents)
  | next {es : List OrderEvent} {g g' : SyntheticGenerator} {d : Draws} {e : OrderEvent} :
      Generates config maxEvents es g → g.next d = some (e, g') →
      Generates config maxEvents (es ++ [e]) g'

/-- The identifiers that the cancels of a stream name, first to last. -/
def cancelledIds (es : List OrderEvent) : List OrderId :=
  es.flatMap fun
    | .cancelOrder e => [e.orderId]
    | .newOrder _ | .modifyOrder _ | .replaceOrder _ => []

def OrderEvent.timestamp : OrderEvent → Timestamp
  | .newOrder e => e.order.timestamp
  | .cancelOrder e => e.timestamp
  | .modifyOrder e => e.timestamp
  | .replaceOrder e => e.newOrder.timestamp

/-- The identifiers and the timestamps that the generator hands out: `1`, `2`, … and one for each
millisecond. -/
def handedOutIds (n : Nat) : List OrderId := (List.range n).map fun i ↦ UInt64.ofNat (i + 1)

def clockAt (n : Nat) : Timestamp := 1700000000000000000 + 1000000 * UInt64.ofNat n

/-! ### Calls -/

/-- Swap and pop takes one item out. -/
private theorem perm_swap_and_pop {α : Type} (a : α) {xs : List α} {i : Nat} (h : i < xs.length) :
    List.Perm (xs.getD i a :: (xs.set i (xs.getLastD a)).dropLast) xs := by
  rcases List.eq_nil_or_concat xs with rfl | ⟨ys, y, rfl⟩
  · exact absurd h (by simp)
  · rw [List.concat_eq_append] at h ⊢
    rw [List.getLastD_concat]
    by_cases hi : i < ys.length
    · have hset : List.Perm (ys.set i y) (y :: ys.eraseIdx i) := List.set_perm_cons_eraseIdx hi y
      have herase : List.Perm (ys[i] :: ys.eraseIdx i) ys := List.getElem_cons_eraseIdx_perm hi
      rw [List.set_append_left i y hi, List.dropLast_concat, List.getD_append _ _ _ _ hi,
        List.getD_eq_getElem _ _ hi]
      calc (ys[i] :: ys.set i y).Perm (ys[i] :: y :: ys.eraseIdx i) := hset.cons _
        _ |>.Perm (y :: ys[i] :: ys.eraseIdx i) := .swap _ _ _
        _ |>.Perm (y :: ys) := herase.cons _
        _ |>.Perm (ys ++ [y]) := (List.perm_append_singleton y ys).symm
    · have hlast : i = ys.length := by
        rw [List.length_append, List.length_singleton] at h
        omega
      subst hlast
      rw [List.getD_append_right _ _ _ _ (Nat.le_refl _),
        List.set_append_right _ _ (Nat.le_refl _), Nat.sub_self]
      simpa using (List.perm_append_singleton y ys).symm

namespace SyntheticGenerator

/-- The calls of `next`, one constructor for each branch. -/
inductive Emits (g : SyntheticGenerator) : OrderEvent → SyntheticGenerator → Prop
  | submit (d : Draws) : g.eventCount < g.maxEvents →
      Emits g (g.tick.generateNewOrder d).1 (g.tick.generateNewOrder d).2
  | cancel {i : Nat} {live : List OrderId} : g.eventCount < g.maxEvents →
      i < g.liveOrders.length → List.Perm (g.liveOrders.getD i 0 :: live) g.liveOrders →
      Emits g (.cancelOrder { orderId := g.liveOrders.getD i 0, timestamp := g.tick.currentTs })
        { g.tick with liveOrders := live }

variable {g g' : SyntheticGenerator} {d : Draws} {e : OrderEvent}

theorem next_emits (h : g.next d = some (e, g')) : g.Emits e g' := by
  unfold next at h
  split at h
  · exact absurd h (by simp)
  · next hcount =>
    rw [ge_iff_le, UInt64.not_le] at hcount
    split at h
    · next hcancel =>
      obtain ⟨rfl, rfl⟩ := Prod.mk.inj (Option.some.inj h)
      have hlive : g.liveOrders ≠ [] := by
        intro hnil
        simp [hnil] at hcancel
      have hindex : (d.index (g.liveOrders.length - 1)).val < g.liveOrders.length := by
        have hlt := (d.index (g.liveOrders.length - 1)).isLt
        have hpos := List.length_pos_iff.mpr hlive
        omega
      exact .cancel hcount hindex (perm_swap_and_pop 0 hindex)
    · obtain ⟨rfl, rfl⟩ := Prod.mk.inj (Option.some.inj h)
      exact .submit d hcount

/-- `next` returns false after `max_events` events, and only then. -/
theorem next_eq_none : g.next d = none ↔ g.maxEvents ≤ g.eventCount := by
  unfold next
  split
  · next hcount => exact iff_of_true rfl hcount
  · next hcount =>
    apply iff_of_false _ hcount
    split
    · simp
    · simp

end SyntheticGenerator

/-! ### Streams -/

@[simp] theorem cancelledIds_append (es fs : List OrderEvent) :
    cancelledIds (es ++ fs) = cancelledIds es ++ cancelledIds fs := List.flatMap_append

private theorem handedOutIds_succ (n : Nat) :
    handedOutIds (n + 1) = handedOutIds n ++ [UInt64.ofNat (n + 1)] := by
  rw [handedOutIds, List.range_succ, List.map_append]
  rfl

/-- Below `2 ^ 64` the identifiers do not repeat. -/
private theorem nodup_handedOutIds {n : Nat} (h : n < 2 ^ 64) : (handedOutIds n).Nodup := by
  apply List.Nodup.map_on _ List.nodup_range
  intro i hi j hj heq
  rw [List.mem_range] at hi hj
  have hnat := congrArg UInt64.toNat heq
  rw [UInt64.toNat_ofNat', UInt64.toNat_ofNat', Nat.mod_eq_of_lt (by omega),
    Nat.mod_eq_of_lt (by omega)] at hnat
  omega

private theorem clockAt_succ (n : Nat) : clockAt n + 1000000 = clockAt (n + 1) := by
  rw [clockAt, clockAt, UInt64.ofNat_add, UInt64.mul_add, UInt64.add_assoc]
  rfl

/-- The generator after the events `es`: every order that it submitted is live, or one cancel has
named it. -/
structure Tally (cfg : EngineConfig) (limit : UInt64) (es : List OrderEvent)
    (g : SyntheticGenerator) : Prop where
  config : g.config = cfg
  midPrice : g.midPrice = cfg.midPrice
  maxEvents : g.maxEvents = limit
  count : g.eventCount.toNat = es.length
  within : es.length ≤ limit.toNat
  nextId : g.nextOrderId = UInt64.ofNat ((submittedIds es).length + 1)
  clock : g.currentTs = clockAt es.length
  short : (submittedIds es).length ≤ es.length
  ids : submittedIds es = handedOutIds (submittedIds es).length
  stamps : es.map OrderEvent.timestamp = (List.range es.length).map fun i ↦ clockAt (i + 1)
  live : List.Perm (cancelledIds es ++ g.liveOrders) (submittedIds es)

variable {config : EngineConfig} {maxEvents : UInt64} {es : List OrderEvent}
  {g g' : SyntheticGenerator} {e : OrderEvent}

theorem Tally.init (config : EngineConfig) (maxEvents : UInt64) :
    Tally config maxEvents [] (.init config maxEvents) where
  config := rfl
  midPrice := rfl
  maxEvents := rfl
  count := rfl
  within := Nat.zero_le _
  nextId := rfl
  clock := rfl
  short := Nat.le_refl 0
  ids := rfl
  stamps := rfl
  live := .refl []

theorem Tally.emits (h : Tally config maxEvents es g) (hs : g.Emits e g') :
    Tally config maxEvents (es ++ [e]) g' := by
  have hroom : g.eventCount < g.maxEvents := by
    cases hs with
    | submit _ hroom | cancel hroom => exact hroom
  have hlt : es.length < maxEvents.toNat := by
    rw [← h.count, ← h.maxEvents]
    exact UInt64.lt_iff_toNat_lt.mp hroom
  have hmax := maxEvents.toNat_lt
  have hcount : g.tick.eventCount.toNat = (es ++ [e]).length := by
    show (g.eventCount + 1).toNat = _
    rw [UInt64.toNat_add, h.count, List.length_append]
    exact Nat.mod_eq_of_lt (by show es.length + 1 < 2 ^ 64; omega)
  have hclock : g.tick.currentTs = clockAt (es ++ [e]).length := by
    show g.currentTs + 1000000 = _
    rw [h.clock, clockAt_succ, List.length_append]
    rfl
  have hstamps (he : e.timestamp = g.tick.currentTs) : (es ++ [e]).map OrderEvent.timestamp =
      (List.range (es ++ [e]).length).map fun i ↦ clockAt (i + 1) := by
    rw [List.map_append, h.stamps, List.map_singleton, he, hclock, List.length_append,
      List.length_singleton, List.range_succ, List.map_append]
    rfl
  have hwithin : (es ++ [e]).length ≤ maxEvents.toNat := by
    rw [List.length_append]
    exact hlt
  cases hs with
  | submit d =>
    have hid : (g.tick.newOrder d).id = UInt64.ofNat ((submittedIds es).length + 1) := h.nextId
    have hids : submittedIds (es ++ [(g.tick.generateNewOrder d).1]) =
        submittedIds es ++ [UInt64.ofNat ((submittedIds es).length + 1)] := by
      rw [submittedIds_append, submittedIds_singleton, ← hid]
      rfl
    refine ⟨h.config, h.midPrice, h.maxEvents, hcount, hwithin, ?_, hclock, ?_, ?_, hstamps rfl, ?_⟩
    · show g.nextOrderId + 1 = _
      rw [h.nextId, hids, List.length_append, List.length_singleton]
      exact (UInt64.ofNat_add _ 1).symm
    · rw [hids, List.length_append, List.length_append]
      exact Nat.add_le_add_right h.short 1
    · rw [hids, List.length_append, List.length_singleton, handedOutIds_succ, ← h.ids]
    · rw [cancelledIds_append, hids]
      show List.Perm (cancelledIds es ++ [] ++ (g.liveOrders ++ [(g.tick.newOrder d).id])) _
      rw [List.append_nil, ← List.append_assoc, hid]
      exact h.live.append_right _
  | @cancel i live _ hi hlive =>
    have hids (e : CancelOrderEvent) : submittedIds (es ++ [.cancelOrder e]) = submittedIds es := by
      rw [submittedIds_append, submittedIds_singleton]
      exact List.append_nil _
    refine ⟨h.config, h.midPrice, h.maxEvents, hcount, hwithin, ?_, hclock, ?_, ?_, hstamps rfl, ?_⟩
    · rw [hids]
      exact h.nextId
    · rw [hids, List.length_append]
      exact Nat.le_add_right_of_le h.short
    · rw [hids]
      exact h.ids
    · rw [cancelledIds_append, hids, List.append_assoc]
      exact (hlive.append_left _).trans h.live

/-- Further calls. -/
theorem Generates.stream (h : Generates config maxEvents es g) {ds : List Draws}
    {fs : List OrderEvent} (hs : (fs, g') ∈ SyntheticGenerator.stream ds g) :
    Generates config maxEvents (es ++ fs) g' := by
  induction ds generalizing es g fs with
  | nil =>
    obtain ⟨rfl, rfl⟩ := Prod.mk.inj (Option.some.inj hs)
    simpa using h
  | cons d ds ih =>
    obtain ⟨⟨e, g₁⟩, hnext, hs⟩ := Option.bind_eq_some_iff.mp hs
    obtain ⟨⟨fs, g₂⟩, hrest, hs⟩ := Option.bind_eq_some_iff.mp hs
    obtain ⟨rfl, rfl⟩ := Prod.mk.inj (Option.some.inj hs)
    have hstream := ih (h.next hnext) hrest
    rwa [List.append_assoc] at hstream

theorem Generates.tally (h : Generates config maxEvents es g) : Tally config maxEvents es g := by
  induction h with
  | init => exact .init config maxEvents
  | next _ hnext ih => exact ih.emits (SyntheticGenerator.next_emits hnext)

/-- The stream of the generator is fresh, however long: there are more identifiers than events. -/
theorem Tally.fresh (h : Tally config maxEvents es g) : Fresh es := by
  have hmax := maxEvents.toNat_lt
  have hshort := h.short
  have hwithin := h.within
  rw [Fresh, h.ids]
  exact nodup_handedOutIds (by omega)

end LobEngine
