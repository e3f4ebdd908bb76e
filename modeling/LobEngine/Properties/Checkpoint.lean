import LobEngine.Engine.Equivariance
import LobEngine.Refinement.Reload
import LobEngine.Snapshot.OrderLayout

/-!
# Replay from a snapshot

An engine that takes over a snapshot keeps neither the dead entries and the volumes of the book
that was saved nor its sequence number. It represents the same reference book, so it answers the
rest of the stream as the engine that never stopped.
-/

namespace LobEngine

open BookOps Engine SnapshotManager

variable {es : List OrderEvent} {e : OrderEvent} {s u : Engine (OrderBook PriceLevel)}
  {rs : List MatchResult} {layout : Layout Order}

/-- The engine `u` stands where `s` stands after the stream `es`: apart from its sequence number it
refines the same run of the reference engine. -/
def StandsIn (es : List OrderEvent) (s u : Engine (OrderBook PriceLevel)) : Prop :=
  ∃ (s₁ : Engine (OrderBook PriceLevel)) (t : Engine ReferenceBook), Refines es s t ∧
    Refines es s₁ t ∧ s₁.Image (.refl _) u

/-- Both engines keep an order in its place. -/
theorem StandsIn.keepsPlace (h : StandsIn es s u) (he : KeepsPlace s e) : KeepsPlace u e := by
  obtain ⟨s₁, t, hs, hs₁, himage⟩ := h
  have hbook : u.book = s₁.book := himage.book
  cases e with
  | modifyOrder e =>
    intro o ho
    apply he o
    change s.book.findOrder e.orderId = some o
    rw [hs.tracks.represents.find, ← hs₁.tracks.represents.find, ← hbook]
    exact ho
  | newOrder _ | cancelOrder _ | replaceOrder _ => trivial

/-- One event: both engines return the same result. -/
theorem StandsIn.submits (h : StandsIn es s u) (hf : Fresh (es ++ [e])) (he : KeepsPlace s e) :
    ∃ s' u' r, Submits s e s' r ∧ Submits u e u' r ∧ StandsIn (es ++ [e]) s' u' := by
  have hu := h.keepsPlace he
  obtain ⟨s₁, t, hs, hs₁, himage⟩ := h
  have hbook : u.book = s₁.book := himage.book
  have he₁ : KeepsPlace s₁ e := by
    cases e with
    | modifyOrder e => exact fun o ho ↦ hu o (hbook ▸ ho)
    | newOrder _ | cancelOrder _ | replaceOrder _ => trivial
  obtain ⟨s', t', r, hsub, ht, href⟩ := hs.submits hf (.of_keepsPlace he)
  obtain ⟨s₁', t₁', r₁, hsub₁, ht₁, href₁⟩ := hs₁.submits hf (.of_keepsPlace he₁)
  obtain ⟨rfl, rfl⟩ := ht.unique ht₁
  obtain ⟨u', hsubu, himage'⟩ := hsub₁.recast himage
  rw [OrderEvent.recast_refl, MatchResult.recast_refl] at hsubu
  exact ⟨s', u', r, hsub, hsubu, s₁', t', href, href₁, himage'⟩

/-- A stream: both engines return the same results. -/
theorem StandsIn.continues {es₁ es₂ : List OrderEvent} {s' : Engine (OrderBook PriceLevel)}
    (h : StandsIn es₁ s u) (hf : Fresh (es₁ ++ es₂)) (hs : Continues KeepsPlace s es₂ s' rs) :
    ∃ u', Continues KeepsPlace u es₂ u' rs ∧ StandsIn (es₁ ++ es₂) s' u' := by
  induction hs with
  | nil =>
    rw [List.append_nil]
    exact ⟨u, .nil, h⟩
  | @snoc es₂ e s₂ s₃ rs r hrun hok hsub ih =>
    rw [← List.append_assoc] at hf ⊢
    obtain ⟨u₂, hu, hstands⟩ := ih hf.left
    obtain ⟨s₃', u₃, r', hsub', hsubu, hstands'⟩ := hstands.submits hf hok
    obtain ⟨rfl, rfl⟩ := hsub'.unique hsub
    exact ⟨u₃, hu.snoc (hstands.keepsPlace hok) hsubu, hstands'⟩

/-- The engine that takes over the snapshot stands where the saved one stands. -/
theorem Refines.resume {t : Engine ReferenceBook} (h : Refines es s t)
    (hb : s.book.orderCount < 2 ^ 32) (hs : s.pendingStops.length < 2 ^ 32)
    (hr : Restores layout s.book s.pendingStops) :
    ∃ u, resume layout (some (save layout s.book s.pendingStops s.sequence)) = some u ∧
      StandsIn es s u := by
  have hload := load_save s.sequence h.tracks.represents.length_savedOrders hb hs hr
    (OrderBook.empty : OrderBook PriceLevel) [] 0
  refine ⟨{ (Engine.init : Engine (OrderBook PriceLevel)) with
    book := s.book.reloaded, pendingStops := s.pendingStops }, ?_, ?_⟩
  · have hempty : (Engine.init : Engine (OrderBook PriceLevel)).book = OrderBook.empty := rfl
    unfold SnapshotManager.resume
    simp only [hempty, hload, ↓reduceIte]
    rfl
  · refine ⟨{ s with book := s.book.reloaded }, t, h, ⟨?_, h.tracks.reloaded⟩, rfl, ?_⟩
    · rw [h.agree]
      rfl
    · exact (List.map_id'' Order.recast_refl _).symm

/-- Replay from a snapshot and the remaining events is replay from scratch: the engine that takes
over what was saved after `es₁` returns for `es₂` what the run over both streams returns, and it
accepts every further event as that run does. -/
theorem replay_from_snapshot {es₁ es₂ : List OrderEvent} {s₁ s₂ : Engine (OrderBook PriceLevel)}
    {rs₁ : List MatchResult} (h₁ : Run KeepsPlace es₁ s₁ rs₁)
    (h : Run KeepsPlace (es₁ ++ es₂) s₂ rs) (hf : Fresh (es₁ ++ es₂))
    (hb : s₁.book.orderCount < 2 ^ 32) (hs : s₁.pendingStops.length < 2 ^ 32)
    (hr : Restores layout s₁.book s₁.pendingStops) :
    ∃ (u u' : Engine (OrderBook PriceLevel)) (rs₂ : List MatchResult),
      resume layout (some (save layout s₁.book s₁.pendingStops s₁.sequence)) = some u ∧
      Continues KeepsPlace u es₂ u' rs₂ ∧ rs = rs₁ ++ rs₂ ∧
      ∀ e, Fresh (es₁ ++ es₂ ++ [e]) → KeepsPlace s₂ e →
        ∃ s' u'' r, Submits s₂ e s' r ∧ Submits u' e u'' r := by
  obtain ⟨t, -, href⟩ := h₁.refines (E := fun _ ↦ True) (fun _ ↦ .of_keepsPlace)
    (fun _ ↦ trivial) hf.left
  obtain ⟨u, hu, hstands⟩ := href.resume hb hs hr
  obtain ⟨s, rs₁', rs₂, hrun, hcont, rfl⟩ := h.split
  obtain ⟨rfl, rfl⟩ := hrun.unique h₁
  obtain ⟨u', hu', hstands'⟩ := hstands.continues hf hcont
  refine ⟨u, u', rs₂, hu, hu', rfl, fun e hfe he ↦ ?_⟩
  obtain ⟨s', u'', r, hsub, hsubu, -⟩ := hstands'.submits hfe he
  exact ⟨s', u'', r, hsub, hsubu⟩

/-- Order 2 is cancelled behind order 1 and its dead entry is not drained, the iceberg 3 has shown
its second peak, and stop 6 waits. -/
private def beforeSnapshot : List OrderEvent :=
  [.newOrder ⟨{ id := 1, side := .sell, price := 101, quantity := 4 }⟩,
    .newOrder ⟨{ id := 2, side := .sell, price := 101, quantity := 1 }⟩,
    .newOrder ⟨{ id := 3, side := .sell, type := .iceberg, price := 100, quantity := 5,
                 peakQty := 2, reserveQty := 3 }⟩,
    .cancelOrder { orderId := 2 },
    .newOrder ⟨{ id := 4, price := 100, quantity := 3 }⟩,
    .newOrder ⟨{ id := 6, type := .stop, stopPrice := 101, quantity := 2 }⟩]

/-- Order 7 takes what is left of the iceberg and a part of order 1, and triggers the stop. -/
private def afterSnapshot : List OrderEvent :=
  [.modifyOrder { orderId := 1, newQuantity := 3 },
    .newOrder ⟨{ id := 7, price := 101, quantity := 3 }⟩]

theorem replay_from_snapshot_triggered : ∃ (s u u' : Engine (OrderBook PriceLevel))
    (rs : List MatchResult), s.book.storedOrders.map Order.id = [1, 3] ∧
      resume Order.layout (some (save Order.layout s.book s.pendingStops s.sequence)) = some u ∧
      Continues KeepsPlace u afterSnapshot u' rs ∧
      rs.map (fun r ↦ r.trades.map Trade.quantity) = [[], [1, 1, 1, 2]] := by
  obtain ⟨s, rs₁, h₁, hs⟩ := Run.exists_of_play (B := OrderBook PriceLevel) KeepsPlace 50
    beforeSnapshot (fun s rs ↦ rs.length = 6 ∧ s.book.storedOrders.map Order.id = [1, 3] ∧
      s.book.orderCount < 2 ^ 32 ∧ s.pendingStops.length < 2 ^ 32 ∧
      Restores Order.layout s.book s.pendingStops) (by decide +kernel)
  obtain ⟨s₂, rs, h, hrs⟩ := Run.exists_of_play (B := OrderBook PriceLevel) KeepsPlace 50
    (beforeSnapshot ++ afterSnapshot) (fun _ rs ↦
      (rs.drop 6).map (fun r ↦ r.trades.map Trade.quantity) = [[], [1, 1, 1, 2]])
    (by decide +kernel)
  obtain ⟨hlen, hids, hb, hstops, hr⟩ := hs
  obtain ⟨u, u', rs₂, hu, hu', rfl, -⟩ := replay_from_snapshot h₁ h (by decide) hb hstops hr
  rw [List.drop_append_of_le_length (by omega), ← hlen, List.drop_length, List.nil_append] at hrs
  exact ⟨s, u, u', rs₂, hids, hu, hu', hrs⟩

end LobEngine
