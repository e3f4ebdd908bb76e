import LobEngine.Engine.Equivariance

/-!
# Buy and sell are mirror images

Every rule of the engine is written once for each side. Swapping the sides and negating the
prices of a state and of an event swaps the sides and negates the prices of the outcome, for any
state, well formed or not.
-/

namespace LobEngine

open Engine

/-- The engine with bids and asks swapped and every price negated. -/
def Engine.mirror (s : Engine (OrderBook PriceLevel)) : Engine (OrderBook PriceLevel) :=
  { s with book := s.book.recast .mirror
           pendingStops := s.pendingStops.map (Order.recast .mirror) }

/-- Two engines agree in every member of the class. -/
structure SameState {B : Type} (s t : Engine B) : Prop where
  book : s.book = t.book
  sequence : s.sequence = t.sequence
  pendingStops : s.pendingStops = t.pendingStops

/-- The mirrored engine answers the mirrored event with the mirrored result and is left in the
mirrored state. -/
theorem submits_mirror {s s' : Engine (OrderBook PriceLevel)} {e : OrderEvent} {r : MatchResult}
    (h : Submits s e s' r) :
    ∃ t, Submits s.mirror (e.recast .mirror) t (r.recast .mirror) ∧ SameState t s'.mirror := by
  have himage : s.Image (OrderBook.morphism .mirror) s.mirror := ⟨rfl, rfl⟩
  obtain ⟨t, ht, himage'⟩ := h.recast himage
  refine ⟨t, ht, himage'.book, ?_, himage'.stops⟩
  have hseq : s'.mirror.sequence = s.sequence + 1 := h.sequence
  exact ht.sequence.trans hseq.symm

/-- A state that no run reaches: the level at 100 has the price 90 and lists order 2 behind order
1, and order 2 is stored as a buy order. -/
private def illFormed : Engine (OrderBook PriceLevel) :=
  let book := OrderBook.empty.insertOrder { id := 1, side := .sell, price := 100, quantity := 5 }
  { book := (book.setLevel .sell 100 ⟨⟨[1, 2], ∅⟩, 90, 5⟩).storeOrder 2
      { id := 2, price := 80, quantity := 9 }
    sequence := 0
    pendingStops := [{ id := 3, side := .sell, type := .stop, stopPrice := 95, quantity := 1 }]
    ghost := [] }

theorem submits_mirror_illFormed : ∃ (r : MatchResult) (t : Engine (OrderBook PriceLevel)),
    r.trades.map Trade.price = [100, 80] ∧ r.rejections.map Rejection.orderId = [3] ∧
      Submits illFormed.mirror (.newOrder ⟨{ id := 4, side := .sell, price := -92, quantity := 6 }⟩)
        t (r.recast .mirror) := by
  obtain ⟨s', r, hs, hr⟩ := Submits.exists_of_submit illFormed
    (.newOrder ⟨{ id := 4, price := 92, quantity := 6 }⟩) 50
    (fun _ r ↦ r.trades.map Trade.price = [100, 80] ∧ r.rejections.map Rejection.orderId = [3])
    (by decide +kernel)
  obtain ⟨t, ht, -⟩ := submits_mirror hs
  exact ⟨r, t, hr.1, hr.2, ht⟩

end LobEngine
