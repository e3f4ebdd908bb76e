import LobEngine.Refinement.Runs

/-!
# The engine returns the results of the reference engine

On a fresh stream whose modifies keep the place of their order, the engine over the lazily
deleting level and the reference engine, which keeps one sorted list of orders for each side,
return the same results and hold the same orders at every price.
-/

namespace LobEngine

open BookOps Engine

/-- Both engines hold the same orders, price by price and in order of priority. -/
def SameLevels (b : OrderBook PriceLevel) (r : ReferenceBook) : Prop :=
  ∀ side p, b.orderIds side p = (r.atPrice side p).map Order.id

/-- A fresh run is matched by a run of the reference engine, result by result, and the next
event of the stream is accepted by both engines, again with the same result. -/
theorem run_matches_reference {es : List OrderEvent} {s : Engine (OrderBook PriceLevel)}
    {rs : List MatchResult} (h : Run KeepsPlace es s rs) (hf : Fresh es) :
    ∃ t : Engine ReferenceBook, Run Anything es t rs ∧ SameLevels s.book t.book ∧
      ∀ e, Fresh (es ++ [e]) → KeepsPlace s e →
        ∃ s' t' r, Submits s e s' r ∧ Submits t e t' r ∧ SameLevels s'.book t'.book := by
  obtain ⟨t, ht, href⟩ := h.refines (E := fun _ ↦ True) (fun _ hk ↦ .of_keepsPlace hk)
    (fun _ ↦ trivial) hf
  refine ⟨t, ht, href.tracks.represents.orderIds_eq, fun e hfe hk ↦ ?_⟩
  obtain ⟨s', t', r, hs, ht', href'⟩ := href.submits hfe (.of_keepsPlace hk)
  exact ⟨s', t', r, hs, ht', href'.tracks.represents.orderIds_eq⟩

/-- An iceberg, a stop-limit that an incoming order triggers, a modify that keeps the place of
its order, a replace and a cancel. -/
private def sampleStream : List OrderEvent :=
  [.newOrder ⟨{ id := 1, side := .sell, type := .iceberg, price := 100, quantity := 30
                peakQty := 10 }⟩,
    .newOrder ⟨{ id := 2, type := .stopLimit, price := 101, stopPrice := 100, quantity := 5 }⟩,
    .newOrder ⟨{ id := 3, price := 100, quantity := 12 }⟩,
    .modifyOrder { orderId := 1, newQuantity := 2 },
    .replaceOrder ⟨1, { id := 4, side := .sell, price := 102, quantity := 6 }⟩,
    .cancelOrder { orderId := 4 }]

theorem run_matches_reference_sample : ∃ (s : Engine (OrderBook PriceLevel))
    (rs : List MatchResult) (t : Engine ReferenceBook), rs.flatMap MatchResult.trades ≠ [] ∧
      Run Anything sampleStream t rs ∧ SameLevels s.book t.book := by
  obtain ⟨s, rs, hrun, htrades⟩ := Run.exists_of_play (B := OrderBook PriceLevel) KeepsPlace 50
    sampleStream (fun _ rs ↦ rs.flatMap MatchResult.trades ≠ []) (by decide +kernel)
  obtain ⟨t, ht, hsame, -⟩ := run_matches_reference hrun (by decide)
  exact ⟨s, rs, t, htrades, ht, hsame⟩

end LobEngine
