import LobEngine.Properties.WellFormed

/-!
# Where lazy deletion is transparent

The engine over `PriceLevel` and the engine over `EagerPriceLevel`, the level that
`docs/performance.md:100–135` replaced, return the same results and show the same book as
long as no modify requeues its order into a level whose queue still holds a dead entry of
that order. Where one does, `cancelled_` hides the new entry together with the old one.
-/

namespace LobEngine

open PriceLevelOps LawfulPriceLevel BookOps Engine

/-- The modify requeues its order into a level whose queue will still hold an entry of that
order: a level at another price that holds one, or its own level when the order is not first
there, so that its dead entry is not drained. -/
def MeetsOwnEntry (b : OrderBook PriceLevel) (e : ModifyOrderEvent) : Prop :=
  ∃ o, b.findOrder e.orderId = some o ∧ o.isResting = true ∧ requeues e o = true ∧
    if (modified e o).price = o.price then
      (b.orderIds o.side o.price).head? ≠ some e.orderId
    else ∃ l, b.getLevel o.side (modified e o).price = some l ∧ e.orderId ∈ l.queue

/-- If the event is a modify, it does not meet an entry of its own order. -/
def AvoidsOwnEntry (s : Engine (OrderBook PriceLevel)) : OrderEvent → Prop
  | .modifyOrder e => ¬MeetsOwnEntry s.book e
  | .newOrder _ | .cancelOrder _ | .replaceOrder _ => True

/-- Cancelling the first order of a level drains its entry. -/
private theorem not_entry_of_first {b : OrderBook PriceLevel} {r : ReferenceBook}
    (h : Represents b r) {id : OrderId} {o : Order} (ho : b.findOrder id = some o)
    (hfirst : (b.orderIds o.side o.price).head? = some id) :
    ¬Entry (b.cancelOrder id).1 o.side o.price id := by
  rintro ⟨l', hl', hid⟩
  obtain ⟨l, hg, hv, -, -, -⟩ := h.level_of_find ho
  rw [OrderBook.orderIds, hg] at hfirst
  have hhead : l.toLazyQueue.live.head? = some id := hfirst
  rw [OrderBook.getLevel_cancelOrder ho hg rfl, if_pos ⟨rfl, rfl⟩] at hl'
  split at hl'
  · exact absurd hl' (by simp)
  · obtain rfl := Option.some.inj hl'
    exact LazyQueue.not_mem_drain_mark hv hhead hid

/-- A modify that does not meet its own entry lands. -/
private theorem requeueable_of_avoids {b : OrderBook PriceLevel} {r : ReferenceBook}
    (h : Represents b r) {e : ModifyOrderEvent} (he : ¬MeetsOwnEntry b e) :
    Requeueable b e := by
  intro o ho hr hq hentry
  apply he
  refine ⟨o, ho, hr, hq, ?_⟩
  split
  · next hp =>
    rw [hp] at hentry
    exact fun hfirst ↦ not_entry_of_first h ho hfirst hentry
  · next hp =>
    obtain ⟨l', hl', hid⟩ := hentry
    obtain ⟨l, hg, -⟩ := h.level_of_find ho
    rw [OrderBook.getLevel_cancelOrder ho hg rfl, if_neg fun hsp ↦ hp hsp.2.symm] at hl'
    exact ⟨l', hl', hid⟩

theorem AvoidsOwnEntry.lands {es : List OrderEvent} {s : Engine (OrderBook PriceLevel)}
    {t : Engine ReferenceBook} {e : OrderEvent} (h : Refines es s t) (he : AvoidsOwnEntry s e) :
    Lands s e := by
  cases e with
  | modifyOrder e => exact requeueable_of_avoids h.tracks.represents he
  | newOrder _ | cancelOrder _ | replaceOrder _ => trivial

instance (b : OrderBook PriceLevel) (e : ModifyOrderEvent) : Decidable (MeetsOwnEntry b e) :=
  inferInstanceAs (Decidable (∃ o ∈ b.findOrder e.orderId, o.isResting = true ∧
    requeues e o = true ∧ if (modified e o).price = o.price then
      (b.orderIds o.side o.price).head? ≠ some e.orderId
    else ∃ l ∈ b.getLevel o.side (modified e o).price, e.orderId ∈ l.queue))

instance (s : Engine (OrderBook PriceLevel)) (e : OrderEvent) : Decidable (AvoidsOwnEntry s e) :=
  match e with
  | .modifyOrder e => inferInstanceAs (Decidable ¬MeetsOwnEntry s.book e)
  | .newOrder _ | .cancelOrder _ | .replaceOrder _ => .isTrue trivial

section View

variable {L L' : Type} [PriceLevelOps L] [PriceLevelOps L']

/-- The live identifiers and the size of the level at a price. -/
def OrderBook.shown (b : OrderBook L) (side : Side) (p : Price) :
    Option (List OrderId × UInt64) :=
  (b.getLevel side p).map fun l ↦ (PriceLevelOps.orderIds l, size l)

/-- Two books show the same best prices and the same levels. -/
structure SameView (b : OrderBook L) (b' : OrderBook L') : Prop where
  bestBid : b.bestBid = b'.bestBid
  bestAsk : b.bestAsk = b'.bestAsk
  levels : ∀ side p, b.shown side p = b'.shown side p

variable [LawfulPriceLevel L] [LawfulPriceLevel L'] {b : OrderBook L} {b' : OrderBook L'}
  {r : ReferenceBook}

/-- The best price is that of the first order. -/
private theorem Represents.bestLevel_fst (h : Represents b r) (side : Side) :
    (b.bestLevel side).map Prod.fst = (r.orders side).head?.map Order.price := by
  cases ho : r.orders side with
  | nil => rw [h.bestLevel_none ho]; rfl
  | cons o rest =>
    obtain ⟨l, hl, -⟩ := h.bestLevel ho
    rw [hl]
    rfl

/-- What a book shows of a level, in terms of the reference book. -/
private theorem Represents.shown_eq (h : Represents b r) (side : Side) (p : Price) :
    b.shown side p = if r.atPrice side p = [] then none else
      some ((r.atPrice side p).map Order.id, UInt64.ofNat (r.atPrice side p).length) := by
  have hl := h.lists side p
  rw [OrderBook.shown]
  cases hg : b.getLevel side p with
  | none =>
    rw [hg] at hl
    rw [if_pos (show r.atPrice side p = [] from hl)]
    rfl
  | some l =>
    rw [hg] at hl
    obtain ⟨hv, -, hids, hne⟩ := hl
    have hsize := size_eq hv
    rw [hids, List.length_map] at hsize
    rw [if_neg hne, Option.map_some, hids, hsize]

/-- Books that represent one reference book show the same. -/
private theorem Represents.sameView (h : Represents b r) (h' : Represents b' r) :
    SameView b b' where
  bestBid := (h.bestLevel_fst .buy).trans (h'.bestLevel_fst .buy).symm
  bestAsk := (h.bestLevel_fst .sell).trans (h'.bestLevel_fst .sell).symm
  levels side p := (h.shown_eq side p).trans (h'.shown_eq side p).symm

end View

/-- A fresh run in which no modify meets an entry of its own order is a run of the engine over
the eager level, with the same results and the same book, and the next such event is accepted
by both engines, again with the same result. -/
theorem run_lazy_as_eager {es : List OrderEvent} {s : Engine (OrderBook PriceLevel)}
    {rs : List MatchResult} (h : Run AvoidsOwnEntry es s rs) (hf : Fresh es) :
    ∃ s₂ : Engine (OrderBook EagerPriceLevel), Run Anything es s₂ rs ∧
      SameView s.book s₂.book ∧
      ∀ e, Fresh (es ++ [e]) → AvoidsOwnEntry s e → ∃ s' s₂' r,
        Submits s e s' r ∧ Submits s₂ e s₂' r ∧ SameView s'.book s₂'.book := by
  obtain ⟨t, ht, href⟩ := h.refines (E := fun _ ↦ True) (fun href he ↦ he.lands href)
    (fun _ ↦ trivial) hf
  obtain ⟨s₂, hs₂, href₂⟩ := ht.refined_eager hf
  refine ⟨s₂, hs₂, href.tracks.represents.sameView href₂.tracks.represents, fun e hfe he ↦ ?_⟩
  obtain ⟨s', t', r, hs, ht', href'⟩ := href.submits hfe (he.lands href)
  obtain ⟨s₂', t₂', r₂, hs₂', ht₂', href₂'⟩ := href₂.submits hfe (href₂.lands_eager e)
  obtain ⟨rfl, rfl⟩ := ht'.unique ht₂'
  exact ⟨s', s₂', r, hs, hs₂', href'.tracks.represents.sameView href₂'.tracks.represents⟩

/-- The first order of its level is requeued by a larger quantity, and order 2 goes to a new
level and back to the first, from which its dead entry has been drained by then. -/
private def avoidsEntries : List OrderEvent :=
  [.newOrder ⟨{ id := 1, side := .sell, price := 100, quantity := 2 }⟩,
    .newOrder ⟨{ id := 2, side := .sell, price := 100, quantity := 3 }⟩,
    .modifyOrder { orderId := 1, newQuantity := 4 },
    .modifyOrder { orderId := 2, newPrice := 101 },
    .modifyOrder { orderId := 2, newPrice := 100 },
    .newOrder ⟨{ id := 3, price := 100, quantity := 5 }⟩]

theorem run_lazy_as_eager_requeued : ∃ (s : Engine (OrderBook PriceLevel))
    (s₂ : Engine (OrderBook EagerPriceLevel)) (rs : List MatchResult),
    s.book.shown .sell 100 = some ([2], 1) ∧ Run Anything avoidsEntries s₂ rs ∧
      SameView s.book s₂.book := by
  obtain ⟨s, rs, hrun, hs⟩ := Run.exists_of_play AvoidsOwnEntry 50 avoidsEntries
    (fun s _ ↦ s.book.shown .sell 100 = some ([2], 1)) (by decide +kernel)
  obtain ⟨s₂, hs₂, hsame, -⟩ := run_lazy_as_eager hrun (by decide)
  exact ⟨s, s₂, rs, hs, hs₂, hsame⟩

/-- Order 2 gains quantity behind order 1: its dead entry hides the new one. -/
private def hidesItself : List OrderEvent :=
  [.newOrder ⟨{ id := 1, side := .sell, price := 100, quantity := 2 }⟩,
    .newOrder ⟨{ id := 2, side := .sell, price := 100, quantity := 1 }⟩,
    .modifyOrder { orderId := 2, newQuantity := 3 }]

/-- Lazy deletion is not transparent where a modify meets an entry of its own order. -/
theorem lazy_deletion_not_transparent : ¬∀ (es : List OrderEvent)
    (s : Engine (OrderBook PriceLevel)) (s₂ : Engine (OrderBook EagerPriceLevel))
    (rs rs₂ : List MatchResult), Run Anything es s rs → Run Anything es s₂ rs₂ → Fresh es →
      rs = rs₂ ∧ SameView s.book s₂.book := by
  intro hall
  obtain ⟨s, rs, hrun, hs⟩ := Run.exists_of_play (B := OrderBook PriceLevel) Anything 50 hidesItself
    (fun s _ ↦ s.book.shown .sell 100 = some ([1], 2)) (by decide +kernel)
  obtain ⟨s₂, rs₂, hrun₂, hs₂⟩ := Run.exists_of_play (B := OrderBook EagerPriceLevel) Anything 50
    hidesItself (fun s _ ↦ s.book.shown .sell 100 = some ([1, 2], 2)) (by decide +kernel)
  have hshown := (hall _ _ _ _ _ hrun hrun₂ (by decide)).2.levels .sell 100
  rw [hs, hs₂] at hshown
  exact absurd hshown (by decide)

end LobEngine
