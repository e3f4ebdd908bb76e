import LobEngine.Engine.ReferenceEngine
import LobEngine.Lib.Words
import LobEngine.Refinement.Lockstep
import Mathlib.Order.RelClasses

/-!
# Every event ends

A rank of the reference machine that falls on every move, in lexicographic order. The first
component bounds the fills to come: every order counts one for its quantity and one for each
unit of its reserve, and a stop counts one more for its conversion. The second counts the
moves of the active loops between two fills.
-/

namespace LobEngine

open BookOps Engine Stepper

/-- The fills an order can still make possible. -/
def Order.weight (o : Order) : Nat := 1 + o.reserveQty.toNat

namespace Frame

/-- The fills a frame can still make possible. -/
def weight : Frame → Nat
  | .matching a => (if a.quantity = 0 then 0 else 1) + a.weight
  | .triggers _ working => (working.map fun stop ↦ 1 + stop.weight).sum

/-- The moves a frame makes without a fill. -/
def height : Frame → Nat
  | .matching _ => 1
  | .triggers _ working => 1 + 2 * working.length

end Frame

/-- The weight of the book. -/
def ReferenceBook.weight (b : ReferenceBook) : Nat := (b.allOrders.map Order.weight).sum

namespace Config

/-- The first component of the rank. -/
def fills (c : Config ReferenceBook) : Nat :=
  c.engine.book.weight + (c.stack.map Frame.weight).sum +
    (c.engine.pendingStops.map fun stop ↦ 1 + stop.weight).sum

/-- The second component of the rank. -/
def height (c : Config ReferenceBook) : Nat := (c.stack.map Frame.height).sum

/-- The rank of a configuration. -/
def rank (c : Config ReferenceBook) : Nat × Nat := (c.fills, c.height)

/-- The lexicographic order on ranks. -/
def Below : Nat × Nat → Nat × Nat → Prop := Prod.Lex (· < ·) (· < ·)

theorem below_wf : WellFounded Below := Nat.lt_wfRel.wf.prod_lex Nat.lt_wfRel.wf

private theorem below_of_fills {c d : Config ReferenceBook} (h : d.fills < c.fills) :
    Below d.rank c.rank := Prod.Lex.left _ _ h

private theorem below_of_height {c d : Config ReferenceBook} (h : d.fills ≤ c.fills)
    (hh : d.height < c.height) : Below d.rank c.rank := by
  rcases Nat.lt_or_eq_of_le h with h | h
  · exact below_of_fills h
  · rw [rank, rank, h]
    exact Prod.Lex.right _ hh

end Config

namespace ReferenceBook

variable {b b' : ReferenceBook}

private theorem weight_insertOrder (b : ReferenceBook) (o : Order) :
    (b.insertOrder o).weight = b.weight + o.weight := by
  rw [weight, ((allOrders_insertOrder b o).map Order.weight).sum_nat, List.map_cons, List.sum_cons,
    weight, Nat.add_comm]

/-- A fill that empties its passive order makes the book lighter; any other fill empties the
aggressor. -/
theorem Filled.weight {o : Order} {q : Quantity} (h : b.Filled o q b') (hd : b.Distinct)
    (ho : o ∈ b.allOrders) :
    b'.weight < b.weight ∨ o.quantity - q ≠ 0 ∧ b'.weight = b.weight := by
  have hb : b.weight = o.weight + ((b.allOrders.filter (·.id != o.id)).map Order.weight).sum := by
    rw [ReferenceBook.weight, ((hd.perm_of_mem ho).map Order.weight).sum_nat, List.map_cons,
      List.sum_cons]
  have hb' : b'.weight = ((o.leftAfter q).toList.map Order.weight).sum +
      ((b.allOrders.filter (·.id != o.id)).map Order.weight).sum := by
    rw [ReferenceBook.weight, (h.perm.map Order.weight).sum_nat, List.map_append, List.sum_append]
  by_cases h0 : o.quantity - q = 0
  · left
    rw [hb, hb', Order.leftAfter, if_pos h0]
    by_cases hr : o.isIceberg = true ∧ o.reserveQty > 0
    · rw [if_pos hr]
      have hpeak : 0 < o.peakQty.toNat := by
        simpa [Order.isIceberg, UInt64.pos_iff_toNat_pos] using hr.1
      have hres : 0 < o.reserveQty.toNat := UInt64.pos_iff_toNat_pos.mp hr.2
      have hsub := UInt64.toNat_sub_min_right o.peakQty o.reserveQty
      simp only [Order.weight, Order.replenished, Option.toList_some, List.map_cons, List.map_nil,
        List.sum_cons, List.sum_nil, hsub]
      omega
    · rw [if_neg hr, Option.toList_none, List.map_nil, List.sum_nil]
      unfold Order.weight
      omega
  · right
    refine ⟨h0, ?_⟩
    rw [hb, hb', Order.leftAfter, if_neg h0]
    rfl

end ReferenceBook

namespace Config

private theorem fills_evaluate (c : Config ReferenceBook) : (evaluate c).fills = c.fills := by
  rw [evaluate]
  split
  · rfl
  · split
    · rfl
    · simp only [fills, List.map_cons, List.sum_cons, Frame.weight, List.map_nil, List.sum_nil]
      omega

private theorem fills_settle (s : Engine ReferenceBook) (a : Order) (K : List Frame)
    (r : MatchResult) : fills ⟨settle s a, K, r⟩ ≤ fills ⟨s, .matching a :: K, r⟩ := by
  have hin : fills ⟨s.insert a, K, r⟩ ≤ fills ⟨s, .matching a :: K, r⟩ := by
    have hw : (s.insert a).book.weight = s.book.weight + a.weight :=
      ReferenceBook.weight_insertOrder s.book a
    have hp : (s.insert a).pendingStops = s.pendingStops := rfl
    simp only [fills, hw, hp, List.map_cons, List.sum_cons, Frame.weight]
    omega
  have hout : fills ⟨s, K, r⟩ ≤ fills ⟨s, .matching a :: K, r⟩ := by
    simp only [fills, List.map_cons, List.sum_cons]
    omega
  rcases settle_eq s a with h | h
  · rw [h]
    exact hout
  · rw [h]
    exact hin

private theorem below_settle (s : Engine ReferenceBook) (a : Order) (K : List Frame)
    (r : MatchResult) : Below (rank ⟨settle s a, K, r⟩) (rank ⟨s, .matching a :: K, r⟩) := by
  refine below_of_height (fills_settle s a K r) ?_
  simp only [height, List.map_cons, List.sum_cons, Frame.height]
  omega

private theorem rank_markFilled (s : Engine ReferenceBook) (a : Order) (K : List Frame)
    (r : MatchResult) :
    rank ⟨s, .matching (markFilled a) :: K, r⟩ = rank ⟨s, .matching a :: K, r⟩ := by
  rw [markFilled]
  split <;> rfl

private theorem weight_converted (o : Order) : o.converted.weight = o.weight := by
  rw [Order.converted]
  split <;> rfl

/-- A fill empties its passive order or its aggressor. -/
private theorem below_fill {s : Engine ReferenceBook} {a passive : Order} {K : List Frame}
    {r : MatchResult} {book' : ReferenceBook} (hd : s.book.Distinct) (ha : a.quantity > 0)
    (hmem : passive ∈ s.book.allOrders)
    (hf : s.book.Filled passive (min a.quantity passive.quantity) book') (t : Trade) :
    fills ⟨{ s with book := book' }.log (.fill t),
      .matching { a with quantity := a.quantity - min a.quantity passive.quantity } :: K,
      r.pushTrade t⟩ < fills ⟨s, .matching a :: K, r⟩ := by
  have hpos : a.quantity ≠ 0 := fun h0 ↦ by rw [h0] at ha; exact absurd ha (by decide)
  simp only [fills, List.map_cons, List.sum_cons, Frame.weight, hpos, ↓reduceIte, Engine.log,
    Order.weight]
  rcases hf.weight hd hmem with hw | ⟨hleft, hw⟩
  · split <;> omega
  · have hzero : a.quantity - min a.quantity passive.quantity = 0 := by
      rw [ne_eq, UInt64.eq_zero_iff_toNat, UInt64.toNat_sub_min_right] at hleft
      rw [UInt64.eq_zero_iff_toNat, UInt64.toNat_sub_min]
      omega
    rw [if_pos hzero]
    omega

/-- Every move falls in rank. -/
theorem Moves.falls {c d : Config ReferenceBook} (h : Moves c d) (hd : c.engine.book.Distinct) :
    Below d.rank c.rank := by
  cases h with
  | @filled s a K r ha =>
    have hb := below_settle s (markFilled a) K r
    rwa [rank_markFilled] at hb
  | uncrossed => exact below_settle _ _ _ _
  | unopposed => exact below_settle _ _ _ _
  | @exhausted s a K r ha hb ht =>
    refine below_of_height ?_ ?_
    · simp only [fills, List.map_cons, List.sum_cons, Engine.log]
      omega
    · simp only [height, List.map_cons, List.sum_cons, Frame.height]
      omega
  | @fill s a passive K r p key book book' q ha hb ht hp hq hs =>
    obtain ⟨rfl, rfl, ⟨rest, ho⟩, -⟩ := hd.of_pickPassive hp
    have hmem := (ReferenceBook.mem_of_head ho).1
    subst hq
    apply below_of_fills
    rw [fills_evaluate]
    exact below_fill hd ha hmem (hd.filled hmem hs) _
  | evaluated =>
    refine below_of_height ?_ ?_
    · simp [fills, Frame.weight]
    · simp [height, Frame.height]
  | @triggered s p stop working K r ht =>
    refine below_of_height ?_ ?_
    · simp only [fills, enterConverted, List.map_cons, List.sum_cons, Frame.weight, Engine.log]
      have hw := weight_converted stop
      rw [Order.weight] at hw
      simp only [Order.weight] at hw ⊢
      split <;> omega
    · simp only [height, enterConverted, List.map_cons, List.sum_cons, Frame.height,
        List.length_cons]
      omega
  | @kept s p stop working K r ht =>
    refine below_of_height ?_ ?_
    · simp only [fills, List.map_cons, List.sum_cons, Frame.weight, List.map_append,
        List.sum_append, List.map_nil, List.sum_nil]
      omega
    · simp only [height, List.map_cons, List.sum_cons, Frame.height, List.length_cons]
      omega

end Config

section Events

variable {L : Type} [PriceLevelOps L] [LawfulPriceLevel L] {all : Bool} {U : OrderId → Prop}

/-- The reference machine falls in rank as long as it is related to some engine. -/
private theorem ranked_reference : Ranked Config.Below Config.step
    (fun d ↦ ∃ c : Config (OrderBook L), Related all U c d) Config.rank where
  safe d e := by
    rintro ⟨c, hcd⟩
    exact Related.lockstep.symm.safe hcd e
  preserves d d' := by
    rintro ⟨c, hcd⟩ hd
    obtain ⟨c', -, hr⟩ := Related.lockstep.symm.steps (.single hd) hcd
    exact ⟨c', hr⟩
  falls d d' := by
    rintro ⟨c, r, rfl, ht⟩ hd
    exact (Config.moves_of_step hd).falls ht.represents.distinct

/-- Every admissible event is accepted by the engine and by the reference engine, with one
result, and leaves them related. -/
theorem Related.submits {s : Engine (OrderBook L)} {r : ReferenceBook}
    (h : Tracks all U s.book (s.outstanding []) r) {e : OrderEvent} (he : Admits all U s e) :
    ∃ s' r' res, Submits s e s' res ∧ Submits (s.withBook r) e (s'.withBook r') res ∧
      Tracks all U s'.book (s'.outstanding []) r' := by
  have hstart := Related.start h he
  obtain ⟨n, d, hd, -⟩ := ranked_reference.halts Config.below_wf _ ⟨_, hstart⟩
  obtain ⟨c, hc, r', rfl, ht⟩ := Related.lockstep.symm.halts hd hstart
  have hstack := Config.step_halt.mp hc.2
  rcases c with ⟨s', K, res⟩
  obtain rfl : K = [] := hstack
  exact ⟨s', r', res, submits_iff.mpr ⟨n, hc⟩, submits_iff.mpr ⟨n, hd⟩, ht⟩

end Events

end LobEngine
