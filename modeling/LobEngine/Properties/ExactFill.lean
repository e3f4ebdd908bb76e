import LobEngine.Properties.Conservation
import LobEngine.Properties.Sweep

/-!
# An aggressor fills exactly

Without pending stops a limit or market order trades the smaller of its quantity and what the
opposite orders at acceptable prices have left, reserves included, however often an iceberg
comes back behind its level on the way. What is left of a limit order rests, what is left of a
market order is rejected.
-/

namespace LobEngine

open BookOps Engine

namespace Swept

variable {b : ReferenceBook} {a₀ : Order} {t : Engine ReferenceBook} {r : MatchResult}

/-- Only an exhausted market order is rejected. -/
private theorem rejections_eq (h : Swept b a₀ t r) : r.rejections =
    if a₀.type = .market ∧ offered Order.worth a₀.side.opposite (Config.trades a₀) b.allOrders <
      a₀.quantity.toNat then [exhaustion a₀] else [] := by
  cases h with
  | @filled s a r hsweep hq =>
    have hspent := hsweep.spent
    have hle := hsweep.le_offered
    rw [hq, UInt64.toNat_zero] at hspent
    rw [if_neg (by omega)]
    exact hsweep.quiet
  | @blocked s a r hsweep _ ht =>
    rw [if_neg fun hm ↦ ht hm.1]
    exact hsweep.quiet
  | @exhausted s a r hsweep hq ht hnil =>
    have hspent := hsweep.spent
    have heq := hsweep.eq_offered (fun x hx ↦ absurd (hnil ▸ hx) List.not_mem_nil)
    rw [gt_iff_lt, UInt64.pos_iff_toNat_pos] at hq
    rw [if_pos ⟨ht, by omega⟩]
    have hid : exhaustion a = exhaustion a₀ := by rw [exhaustion, exhaustion, hsweep.id_eq]
    rw [← hid]
    change r.rejections ++ [exhaustion a] = _
    rw [hsweep.quiet, List.nil_append]

/-- A market order never rests. -/
private theorem market_absent (h : Swept b a₀ t r) (ht : a₀.type = .market)
    (hnew : ∀ x ∈ b.allOrders, x.id ≠ a₀.id) : t.book.findOrder a₀.id = none := by
  cases h with
  | @filled s a r hsweep _ =>
    have hm : (markFilled a).type = .market :=
      ((markFilled_descends a).type_eq.trans hsweep.type_eq).trans ht
    rw [Config.settle, hm]
    exact hsweep.absent hnew
  | blocked _ _ hne => exact absurd ht hne
  | exhausted hsweep => exact hsweep.absent hnew

/-- A limit order rests with what it has not traded, if anything. -/
private theorem limit_find (h : Swept b a₀ t r) (ht : a₀.type = .limit) (hd : t.book.Distinct)
    (hnew : ∀ x ∈ b.allOrders, x.id ≠ a₀.id) : t.book.findOrder a₀.id =
      if offered Order.worth a₀.side.opposite (Config.trades a₀) b.allOrders < a₀.quantity.toNat
      then some { a₀ with quantity := .ofNat (a₀.quantity.toNat -
        offered Order.worth a₀.side.opposite (Config.trades a₀) b.allOrders) }
      else none := by
  cases h with
  | @filled s a r hsweep hq =>
    have hspent := hsweep.spent
    have hle := hsweep.le_offered
    have hplain : a.type ≠ .iceberg := by
      rw [hsweep.type_eq, ht]
      decide
    rw [hq, UInt64.toNat_zero] at hspent
    rw [if_neg (by omega), Config.settle_markFilled hq fun hi ↦ absurd hi hplain]
    exact hsweep.absent hnew
  | @blocked s a r hsweep hq _ hnone =>
    have hspent := hsweep.spent
    have heq := hsweep.eq_offered hnone
    have hpos := UInt64.pos_iff_toNat_pos.mp hq
    have hrests : Config.settle s a = s.insert a := by
      rw [Config.settle, hsweep.type_eq.trans ht]
      simp only [if_pos hq]
    have hmem : a ∈ (Config.settle s a).book.allOrders := by
      rw [hrests]
      exact ReferenceBook.mem_insertOrder.mpr (.inl rfl)
    have hleft : a₀.quantity.toNat -
        offered Order.worth a₀.side.opposite (Config.trades a₀) b.allOrders =
          a.quantity.toNat := by omega
    rw [if_pos (by omega), hleft, UInt64.ofNat_toNat, ← hsweep.same, ← hsweep.id_eq]
    exact hd.findOrder_of_mem hmem
  | exhausted _ _ hm => exact absurd (ht.symm.trans hm) (by decide)

end Swept

section Engine

variable {es : List OrderEvent} {s s' : Engine (OrderBook PriceLevel)} {rs : List MatchResult}
  {o : Order} {r : MatchResult}

/-- `quantity + reserve_qty` over the orders of a side. -/
def OrderBook.total (b : OrderBook PriceLevel) (side : Side) : Nat :=
  offered Order.unfilled side (fun _ ↦ true) b.storedOrders

/-- `quantity + reserve_qty` over the opposite orders whose price is acceptable to an order. -/
def OrderBook.available (b : OrderBook PriceLevel) (o : Order) : Nat :=
  offered Order.unfilled o.side.opposite (Config.trades o) b.storedOrders

/-- What the new order `o` does between `s` and `s'`, with the result `r`. -/
structure FillsExactly (s s' : Engine (OrderBook PriceLevel)) (o : Order) (r : MatchResult) :
    Prop where
  mine : ∀ t ∈ r.trades, t.aggressorId = o.id
  volume : volume r.trades = min o.quantity.toNat (s.book.available o)
  prices : NeverImproves o.side r.trades
  falls : s'.book.total o.side.opposite + min o.quantity.toNat (s.book.available o) =
    s.book.total o.side.opposite
  untouched : ∀ p, Config.trades o p = false →
    s'.book.ordersAt o.side.opposite p = s.book.ordersAt o.side.opposite p
  rejections : r.rejections =
    if o.type = .market ∧ s.book.available o < o.quantity.toNat then [exhaustion o] else []
  market : o.type = .market → s'.book.findOrder o.id = none
  limit : o.type = .limit → s'.book.findOrder o.id =
    if s.book.available o < o.quantity.toNat then
      some { o with quantity := .ofNat (o.quantity.toNat - s.book.available o), status := .resting }
    else none

/-- Where every order is sound, what can be traded passively is what is left. -/
private theorem offered_sound {side : Side} {m : Price → Bool} {os : List Order}
    (h : ∀ x ∈ os, x.side = side → x.Sound) :
    offered Order.unfilled side m os = offered Order.worth side m os := by
  induction os with
  | nil => rfl
  | cons x os ih =>
    rw [offered_cons, offered_cons, ih fun y hy ↦ h y (List.mem_cons_of_mem x hy)]
    by_cases hx : x.side = side ∧ m x.price = true
    · rw [if_pos hx, if_pos hx, (h x List.mem_cons_self hx.1).worth_eq]
    · rw [if_neg hx, if_neg hx]

/-- In every state that a fresh stream of well-sized orders reaches and in which no stop is
pending, a new limit or market order fills exactly. -/
theorem aggressor_fills_exactly (h : Run (fun _ ↦ Sized) es s rs)
    (hf : Fresh (es ++ [.newOrder ⟨o⟩])) (hp : s.pendingStops = [])
    (ht : o.type = .limit ∨ o.type = .market) :
    ∃ s' r, Submits s (.newOrder ⟨o⟩) s' r ∧ FillsExactly s s' o r := by
  obtain ⟨t, hrun, href⟩ := h.refines (E := Sized) (fun _ hz ↦ hz.lands _) (fun hz ↦ hz) hf.left
  obtain ⟨s', t', r, hs, hs', href'⟩ := href.submits hf trivial
  have hstops : t.pendingStops = [] := by
    rw [href.agree]
    exact hp
  have hsound := (hrun.settled hf.left).sound
  have hnew := (hrun.absent hf.left (hf.not_mem List.mem_cons_self)).1
  have hswept := hrun.swept hf hs' (start_direct ht) hstops
  change Swept t.book o.accepted t' r at hswept
  have hrep := href.tracks.represents
  have hrep' := href'.tracks.represents
  have hoffer (m : Price → Bool) : offered Order.unfilled o.side.opposite m s.book.storedOrders =
      offered Order.worth o.side.opposite m t.book.allOrders := by
    rw [offered_perm hrep.storedOrders_perm]
    exact offered_sound fun x hx _ ↦ hsound x (List.mem_append_left _ hx)
  have hoffer' (m : Price → Bool) :
      offered Order.unfilled o.side.opposite m s'.book.storedOrders =
        offered Order.worth o.side.opposite m t'.book.allOrders := by
    rw [offered_perm hrep'.storedOrders_perm]
    apply offered_sound
    intro x hx hside
    obtain ⟨y, hy, hxy⟩ := hswept.descends hx hside
    exact (hsound y (List.mem_append_left _ hy)).descend hxy
  have havail : s.book.available o =
      offered Order.worth o.side.opposite (Config.trades o.accepted) t.book.allOrders :=
    hoffer _
  have hvolume : volume r.trades = min o.quantity.toNat (s.book.available o) := by
    rw [havail]
    exact hswept.volume_eq
  refine ⟨s', r, hs, hswept.mine, hvolume, hswept.neverImproves, ?_, ?_, ?_, ?_, ?_⟩
  · rw [OrderBook.total, OrderBook.total, hoffer, hoffer', ← hvolume]
    exact hswept.taken fun _ _ ↦ rfl
  · intro p hno
    rw [hrep.ordersAt_eq, hrep'.ordersAt_eq]
    exact hswept.refused hno
  · rw [havail]
    exact hswept.rejections_eq
  · intro hm
    rw [hrep'.find]
    exact hswept.market_absent hm hnew
  · intro hl
    rw [hrep'.find, havail]
    exact hswept.limit_find hl hrep'.distinct hnew

/-- Two icebergs at 100 rotate under the order that takes all of them, an order at 101 and part
of one at 102; the order at 103 is out of reach. -/
private def asks : List OrderEvent :=
  [.newOrder ⟨{ id := 1, side := .sell, type := .iceberg, price := 100, quantity := 5
                peakQty := 2 }⟩,
    .newOrder ⟨{ id := 2, side := .sell, type := .iceberg, price := 100, quantity := 4
                 peakQty := 3 }⟩,
    .newOrder ⟨{ id := 3, side := .sell, price := 101, quantity := 1 }⟩,
    .newOrder ⟨{ id := 4, side := .sell, price := 102, quantity := 6 }⟩,
    .newOrder ⟨{ id := 5, side := .sell, price := 103, quantity := 7 }⟩]

theorem aggressor_fills_exactly_icebergs : ∃ s s' : Engine (OrderBook PriceLevel),
    ∃ r : MatchResult, s.book.available { id := 6, price := 102, quantity := 12 } = 16 ∧
      FillsExactly s s' { id := 6, price := 102, quantity := 12 } r := by
  obtain ⟨s, rs, hrun, hstops, havail⟩ := Run.exists_of_play (B := OrderBook PriceLevel)
    (fun _ ↦ Sized) 50 asks
    (fun s _ ↦ s.pendingStops = [] ∧
      s.book.available { id := 6, price := 102, quantity := 12 } = 16) (by decide +kernel)
  obtain ⟨s', r, -, hfill⟩ := aggressor_fills_exactly hrun
    (o := { id := 6, price := 102, quantity := 12 }) (by decide) hstops (.inl rfl)
  exact ⟨s, s', r, havail, hfill⟩

end Engine

end LobEngine
