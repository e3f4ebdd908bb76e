import LobEngine.Feed.SyntheticGen
import LobEngine.Properties.Alive
import LobEngine.Properties.Conservation
import LobEngine.Properties.IterationBound

/-!
# The engine on synthetic streams

`BenchmarkRunner::run_scenario` submits what the generator yields,
`src/benchmarks/benchmark_runner.cpp:28–48`. The generator does not see the results of the engine:
it keeps an order live until it cancels it. So the book holds live orders only, and a live order
that is not in the book has been filled. In market maker mode nothing is filled.
-/

namespace LobEngine

open BookOps Engine Stepper

/-! ### Moves -/

/-- The machine on a synthetic stream: every order is a limit order. -/
structure Config.Tame (c : Config ReferenceBook) : Prop where
  thriving : Thriving c
  limits : ∀ o ∈ c.live, o.type = .limit
  rejections : ∀ rej ∈ c.result.rejections, rej.reason ≠ .marketExhausted

/-- No order reaches the middle. -/
structure Config.Apart (mid : Price) (c : Config ReferenceBook) : Prop where
  bids : ∀ o ∈ c.live, o.side = .buy → o.price < mid
  asks : ∀ o ∈ c.live, o.side = .sell → mid < o.price
  trades : c.result.trades = []

namespace Config

variable {U : OrderId → Prop} {c d : Config ReferenceBook} {mid : Price}

/-- The order that is matched is live. -/
private theorem live_matching (s : Engine ReferenceBook) (a : Order) (K : List Frame)
    (r : MatchResult) : a ∈ live ⟨s, .matching a :: K, r⟩ :=
  List.mem_append_right _ List.mem_cons_self

theorem Tame.moves (h : c.Tame) (ho : Orderly U c) (hm : Moves c d) : d.Tame := by
  have hspent : ¬c.Spent := by
    intro hspent
    rcases c with ⟨s, K, r⟩
    cases K with
    | nil => exact hspent
    | cons f K =>
      cases f with
      | triggers => exact hspent
      | matching a =>
        exact absurd (hspent.1.symm.trans (h.limits a (live_matching s a K r))) (by decide)
  constructor
  · exact h.thriving.moves ho hspent hm
  · intro o hl
    obtain ⟨x, hx, hdesc⟩ := hm.live ho hl
    exact hdesc.type_eq.trans (h.limits x hx)
  · cases hm with
    | @exhausted s a K r _ _ ht =>
      rw [h.limits a (live_matching s a K r)] at ht
      exact absurd ht (by decide)
    | fill =>
      rw [evaluate_result]
      exact h.rejections
    | filled | uncrossed | unopposed | evaluated | triggered | kept => exact h.rejections

/-- Nothing trades across the middle. -/
theorem Apart.moves (h : Apart mid c) (ho : Orderly U c) (ht : c.Tame) (hm : Moves c d) :
    Apart mid d := by
  constructor
  · intro o hl hside
    obtain ⟨x, hx, hdesc⟩ := hm.live ho hl
    rw [hdesc.price_eq]
    exact h.bids x hx (hdesc.side_eq.symm.trans hside)
  · intro o hl hside
    obtain ⟨x, hx, hdesc⟩ := hm.live ho hl
    rw [hdesc.price_eq]
    exact h.asks x hx (hdesc.side_eq.symm.trans hside)
  · cases hm with
    | @fill s a passive K r p key book book' q _ hb hcross _ _ _ =>
      have ha := live_matching s a K r
      obtain ⟨o, rest, horders, rfl⟩ := ReferenceBook.exists_best hb
      obtain ⟨hmem, hside⟩ := ReferenceBook.mem_of_head horders
      have hlive : o ∈ live ⟨s, .matching a :: K, r⟩ := List.mem_append_left _ hmem
      rw [Config.trades, ht.limits a ha] at hcross
      cases hs : a.side with
      | buy =>
        have hbid := h.bids a ha hs
        have hask := h.asks o hlive (by rw [hside, hs]; rfl)
        rw [Order.crosses_buy hs] at hcross
        have hle : o.price ≤ a.price := by simpa using hcross
        exact absurd (hbid.trans hask) (not_lt.mpr hle)
      | sell =>
        have hask := h.asks a ha hs
        have hbid := h.bids o hlive (by rw [hside, hs]; rfl)
        rw [Order.crosses_sell hs] at hcross
        have hle : a.price ≤ o.price := by simpa using hcross
        exact absurd (hbid.trans hask) (not_lt.mpr hle)
    | filled | uncrossed | exhausted | unopposed | evaluated | triggered | kept => exact h.trades

end Config

/-! ### Events -/

/-- The events of the generator: limit orders without a peak, and cancels. -/
def Synthetic : OrderEvent → Prop
  | .newOrder e => e.order.type = .limit ∧ e.order.peakQty = 0 ∧ e.order.reserveQty = 0 ∧
      0 < e.order.quantity
  | .cancelOrder _ => True
  | .modifyOrder _ | .replaceOrder _ => False

private theorem Synthetic.sized {e : OrderEvent} (h : Synthetic e) : Sized e := by
  cases e with
  | newOrder e =>
    obtain ⟨htype, hpeak, hreserve, -⟩ := h
    rw [Sized, Order.Sized, htype, if_neg (by decide)]
    exact ⟨hpeak, hreserve⟩
  | cancelOrder e => trivial
  | modifyOrder e | replaceOrder e => exact h.elim

private theorem Synthetic.eq_newOrder {e : OrderEvent} (h : Synthetic e) {x : Order}
    (hx : x ∈ e.orders) : e = .newOrder ⟨x⟩ := by
  cases e with
  | newOrder e =>
    obtain rfl := List.mem_singleton.mp hx
    rfl
  | cancelOrder e => exact absurd hx List.not_mem_nil
  | modifyOrder e | replaceOrder e => exact h.elim

theorem SyntheticGenerator.Emits.synthetic {g g' : SyntheticGenerator} {e : OrderEvent}
    (h : g.Emits e g') : Synthetic e := by
  cases h with
  | submit d => exact ⟨rfl, rfl, rfl, UInt64.lt_of_lt_of_le (by decide) d.quantity_range.1⟩
  | cancel => trivial

/-- The reference engine after a synthetic stream. Only a cancel takes an order out, and a cancel
is refused only because there is no such order. -/
structure Supplied (es : List OrderEvent) (rs : List MatchResult) (t : Engine ReferenceBook) :
    Prop where
  pending : t.pendingStops = []
  alive : ∀ o ∈ t.book.allOrders, o.Alive
  limits : ∀ o ∈ t.book.allOrders, o.type = .limit
  left : ∀ o ∈ t.book.allOrders, o.id ∉ cancelledIds es
  takenOut : ∀ id, TakenOut (es.zip rs) id → id ∈ cancelledIds es
  rejections : ∀ r ∈ rs, ∀ rej ∈ r.rejections, rej.reason = .orderNotFound

section Event

variable {es : List OrderEvent} {rs : List MatchResult} {t t' : Engine ReferenceBook}
  {r : MatchResult} {e : OrderEvent} {o : Order}

theorem Supplied.live (h : Supplied es rs t) (r : MatchResult) :
    Config.live ⟨t, [], r⟩ = t.book.allOrders := by
  simp [Config.live, Engine.outstanding, h.pending]

/-- A cancel takes out the order that it names, or there is none. -/
private theorem Supplied.start_cancel (h : Supplied es rs t) (e : CancelOrderEvent) :
    (∃ o, findOrder t.book e.orderId = some o ∧ Config.start t (.cancelOrder e) =
        ⟨{ t with sequence := t.sequence + 1, book := cancelOrder t.book e.orderId }, [],
          cancelled e.orderId o.quantity e.timestamp⟩) ∨
      findOrder t.book e.orderId = none ∧ Config.start t (.cancelOrder e) =
        ⟨{ t with sequence := t.sequence + 1 }, [],
          rejected e.orderId .orderNotFound e.timestamp⟩ := by
  have hnone : t.pendingStops.find? (·.id == e.orderId) = none := by
    rw [h.pending]
    rfl
  cases ho : findOrder t.book e.orderId with
  | none =>
    right
    simp only [Config.start, processCancel, hnone, ho, true_and]
  | some o =>
    left
    have hresting := (h.alive o (ReferenceBook.mem_of_findOrder ho).1).2
    refine ⟨o, rfl, ?_⟩
    simp only [Config.start, processCancel, hnone, ho, hresting, ↓reduceIte]

/-- The invariant rule for a limit order of a synthetic stream. -/
theorem Supplied.submit_induction (h : Supplied es rs t) (hrun : Run Anything es t rs)
    (hf : Fresh (es ++ [.newOrder ⟨o⟩])) (ho : o.type = .limit)
    (hs : Submits t (.newOrder ⟨o⟩) t' r) {P : Config ReferenceBook → Prop}
    (hstart : P (.start t (.newOrder ⟨o⟩)))
    (hP : ∀ {U c d}, Orderly U c → c.Tame → P c → Config.Moves c d → P d) :
    Config.Tame ⟨t', [], r⟩ ∧ P ⟨t', [], r⟩ := by
  have hlive {x : Order} (hx : x ∈ (Config.start t (.newOrder ⟨o⟩)).live) : x.type = .limit := by
    rcases live_start (e := .newOrder ⟨o⟩) (r := {}) trivial hx with hx | ⟨y, st, hy, rfl⟩
    · rw [h.live] at hx
      exact h.limits x hx
    · obtain rfl : o = y := Option.some.inj hy
      simp only [Order.entering, ho]
  have htame : (Config.start t (.newOrder ⟨o⟩)).Tame := by
    refine ⟨thriving_start (e := .newOrder ⟨o⟩) trivial h.alive, fun x hx ↦ hlive hx, ?_⟩
    intro rej hrej
    simp only [Config.start, enter_result] at hrej
    exact absurd hrej List.not_mem_nil
  exact hrun.submit_induction hf hs (P := fun c ↦ c.Tame ∧ P c) (fun _ ↦ ⟨htame, hstart⟩)
    fun c d hord hc hm ↦ ⟨hc.1.moves hord hm, hP hord hc.1 hc.2 hm⟩

/-- What a result says was taken out: a cancel that was confirmed, since nothing else happens to
the orders of a synthetic stream. -/
private theorem Synthetic.takenOut (he : Synthetic e) (hs : Submits t e t' r)
    (hr : ∀ rej ∈ r.rejections, rej.reason = .orderNotFound) {id : OrderId}
    (h : TakenOut [(e, r)] id) : id ∈ cancelledIds [e] := by
  obtain ⟨p, hp, hout⟩ := h
  obtain rfl := List.mem_singleton.mp hp
  rcases hout with ⟨rep, hrep, hid, hst⟩ | ⟨x, hx, -⟩ | ⟨rej, hrej, -, hreason⟩
  · simp only [hs.reports] at hrep
    cases e with
    | newOrder e =>
      simp only [Config.start, enter_result] at hrep
      exact absurd hrep List.not_mem_nil
    | cancelOrder e =>
      have hstart := Config.starts t (.cancelOrder e)
      generalize Config.start t (.cancelOrder e) = c at hstart hrep
      cases hstart with
      | stopCancelled | orderCancelled =>
        obtain rfl := List.mem_singleton.mp hrep
        exact List.mem_singleton.mpr hid.symm
      | cancelRejected => exact absurd hrep List.not_mem_nil
    | modifyOrder e | replaceOrder e => exact he.elim
  · simp only at hx
    rw [hx] at he
    exact he.elim
  · rw [hr rej hrej] at hreason
    exact absurd hreason (by decide)

/-- A limit order of a synthetic stream is not rejected. -/
private theorem Supplied.rejections_newOrder (h : Supplied es rs t) (hrun : Run Anything es t rs)
    (hf : Fresh (es ++ [.newOrder ⟨o⟩])) (ho : o.type = .limit)
    (hs : Submits t (.newOrder ⟨o⟩) t' r) : r.rejections = [] := by
  obtain ⟨htame, -⟩ := h.submit_induction hrun hf ho hs (P := fun _ ↦ True) trivial
    fun _ _ _ _ ↦ trivial
  apply List.eq_nil_iff_forall_not_mem.mpr
  intro rej hrej
  rcases hs.rejections rej hrej with hmem | hreason
  · simp only [Config.start, enter_result] at hmem
    exact absurd hmem List.not_mem_nil
  · exact absurd hreason (htame.rejections rej hrej)

/-- One more event of a synthetic stream. -/
theorem Supplied.submit (h : Supplied es rs t) (hrun : Run Anything es t rs)
    (hf : Fresh (es ++ [e])) (he : Synthetic e)
    (hknown : ∀ id ∈ cancelledIds es, id ∈ submittedIds es) (hs : Submits t e t' r) :
    Supplied (es ++ [e]) (rs ++ [r]) t' := by
  have hord := hrun.orderly hf.left {}
  have hnext (hpending : t'.pendingStops = []) (halive : ∀ o ∈ t'.book.allOrders, o.Alive)
      (hlimits : ∀ o ∈ t'.book.allOrders, o.type = .limit)
      (hleft : ∀ o ∈ t'.book.allOrders, o.id ∉ cancelledIds (es ++ [e]))
      (hr : ∀ rej ∈ r.rejections, rej.reason = .orderNotFound) :
      Supplied (es ++ [e]) (rs ++ [r]) t' := by
    refine ⟨hpending, halive, hlimits, hleft, ?_, ?_⟩
    · rintro id ⟨p, hp, hout⟩
      rw [List.zip_append hrun.length.symm] at hp
      rw [cancelledIds_append, List.mem_append]
      rcases List.mem_append.mp hp with hp | hp
      · exact .inl (h.takenOut id ⟨p, hp, hout⟩)
      · exact .inr (he.takenOut hs hr ⟨p, hp, hout⟩)
    · intro q hq
      rcases List.mem_append.mp hq with hq | hq
      · exact h.rejections q hq
      · obtain rfl := List.mem_singleton.mp hq
        exact hr
  cases e with
  | newOrder e =>
    have hnew : e.order.id ∉ submittedIds es :=
      hf.not_mem (e := .newOrder e) (List.mem_singleton.mpr rfl)
    have hids : ∀ o ∈ (Config.start t (.newOrder e)).live, o.id ∉ cancelledIds es := by
      intro o ho
      rcases live_start (e := .newOrder e) (r := {}) trivial ho with ho | ⟨y, st, hy, rfl⟩
      · rw [h.live] at ho
        exact h.left o ho
      · obtain rfl : e.order = y := Option.some.inj hy
        intro hmem
        exact hnew (e.order.entering_id ▸ hknown _ hmem)
    obtain ⟨htame, hleft⟩ := h.submit_induction hrun hf he.1 hs
      (P := fun c ↦ ∀ o ∈ c.live, o.id ∉ cancelledIds es) hids
      fun hord _ hc hm o ho ↦ by
        obtain ⟨x, hx, hdesc⟩ := hm.live hord ho
        exact hdesc.id_eq ▸ hc x hx
    obtain ⟨n, hn⟩ := submits_iff.mp hs
    have hstops : (OrderEvent.newOrder e).stops = 0 := by
      simp [OrderEvent.stops, OrderEvent.orders, he.1]
    have hpending := (iterations_bounded hn (Nat.le_refl _)).2
    rw [h.pending, hstops] at hpending
    have hin {o : Order} (ho : o ∈ t'.book.allOrders) : o ∈ Config.live ⟨t', [], r⟩ :=
      List.mem_append_left _ ho
    refine hnext (List.length_eq_zero_iff.mp (Nat.le_zero.mp hpending)) htame.thriving.alive
      (fun o ho ↦ htame.limits o (hin ho)) (fun o ho ↦ ?_) fun rej hrej ↦ ?_
    · have hsame : cancelledIds (es ++ [.newOrder e]) = cancelledIds es := by
        rw [cancelledIds_append]
        exact List.append_nil _
      rw [hsame]
      exact hleft o (hin ho)
    · rw [h.rejections_newOrder hrun hf he.1 hs] at hrej
      exact absurd hrej List.not_mem_nil
  | cancelOrder e =>
    have hend := hs.of_idle (by rfl)
    rcases h.start_cancel e with ⟨o, ho, hstart⟩ | ⟨ho, hstart⟩
    · rw [hstart] at hend
      obtain ⟨rfl, -, rfl⟩ := Config.mk.inj hend
      have hin {x : Order} (hx : x ∈ (cancelOrder t.book e.orderId).allOrders) :=
        ReferenceBook.mem_cancelOrder.mp hx
      refine hnext h.pending (fun x hx ↦ h.alive x (hin hx).1) (fun x hx ↦ h.limits x (hin hx).1)
        (fun x hx ↦ ?_) fun rej hrej ↦ absurd hrej List.not_mem_nil
      rw [cancelledIds_append, List.mem_append, not_or]
      exact ⟨h.left x (hin hx).1, fun hmem ↦ (hin hx).2 (List.mem_singleton.mp hmem)⟩
    · rw [hstart] at hend
      obtain ⟨rfl, -, rfl⟩ := Config.mk.inj hend
      refine hnext h.pending h.alive h.limits (fun x hx ↦ ?_) fun rej hrej ↦ ?_
      · rw [cancelledIds_append, List.mem_append, not_or]
        refine ⟨h.left x hx, fun hmem ↦ ?_⟩
        exact ReferenceBook.findOrder_eq_none_iff.mp ho x hx (List.mem_singleton.mp hmem)
      · obtain rfl := List.mem_singleton.mp hrej
        rfl
  | modifyOrder e | replaceOrder e => exact he.elim

end Event

/-! ### Runs -/

/-- The event cancels an order that has traded its whole quantity by then, and is refused because
there is no such order. -/
structure RefusesFilled (es : List OrderEvent) (rs : List MatchResult) (e : OrderEvent)
    (rej : Rejection) : Prop where
  reason : rej.reason = .orderNotFound
  cancels : ∃ c, e = .cancelOrder c ∧ rej.orderId = c.orderId
  filled : ∃ x ∈ submittedOrders es, x.id = rej.orderId ∧
    traded (rs.flatMap MatchResult.trades) x.id = x.quantity.toNat

/-- The engine `s` after a synthetic stream, beside its generator. -/
structure Agrees (es : List OrderEvent) (g : SyntheticGenerator) (s : Engine (OrderBook PriceLevel))
    (rs : List MatchResult) : Prop where
  stops : s.pendingStops = []
  rests : ∀ o ∈ s.book.storedOrders, o.id ∈ g.liveOrders
  filled : ∀ x ∈ submittedOrders es, x.id ∈ g.liveOrders → s.book.findOrder x.id = none →
    traded (rs.flatMap MatchResult.trades) x.id = x.quantity.toNat
  rejections : ∀ k e r, es[k]? = some e → rs[k]? = some r → ∀ rej ∈ r.rejections,
    RefusesFilled (es.take k) (rs.take k) e rej

section Run

variable {cfg : EngineConfig} {limit : UInt64} {es : List OrderEvent} {g : SyntheticGenerator}

/-- The invariant rule for the run of the reference engine that the engine refines on a synthetic
stream. -/
private theorem Generates.supplied_induction
    {P : List OrderEvent → Engine ReferenceBook → List MatchResult → Prop} (h₀ : P [] .init [])
    (hP : ∀ {es g g' e t t' rs r}, Generates cfg limit es g → g.Emits e g' →
      Run (fun _ ↦ Sized) es t rs → Supplied es rs t → P es t rs → Submits t e t' r →
        P (es ++ [e]) t' (rs ++ [r])) (h : Generates cfg limit es g) :
    ∃ (s : Engine (OrderBook PriceLevel)) (t : Engine ReferenceBook) (rs : List MatchResult),
      Run (fun _ ↦ Sized) es s rs ∧ Run (fun _ ↦ Sized) es t rs ∧ Refines es s t ∧
        Supplied es rs t ∧ P es t rs := by
  induction h with
  | init =>
    refine ⟨.init, .init, [], .nil, .nil, .init, ⟨rfl, ?_, ?_, ?_, ?_, ?_⟩, h₀⟩
    · exact fun o ho ↦ absurd ho List.not_mem_nil
    · exact fun o ho ↦ absurd ho List.not_mem_nil
    · exact fun o ho ↦ absurd ho List.not_mem_nil
    · exact fun id ⟨p, hp, _⟩ ↦ absurd hp List.not_mem_nil
    · exact fun r hr ↦ absurd hr List.not_mem_nil
  | @next es g g' d e hgen hnext ih =>
    obtain ⟨s, t, rs, hs, ht, href, hsupplied, hprop⟩ := ih
    have hemits := SyntheticGenerator.next_emits hnext
    have he := hemits.synthetic
    have htally := hgen.tally
    have hfresh := (htally.emits hemits).fresh
    obtain ⟨s', t', r, hsub, htsub, href'⟩ := href.submits hfresh (he.sized.lands s)
    have hknown (id : OrderId) (hid : id ∈ cancelledIds es) : id ∈ submittedIds es :=
      htally.live.mem_iff.mp (List.mem_append_left _ hid)
    exact ⟨s', t', rs ++ [r], hs.snoc he.sized hsub, ht.snoc he.sized htsub, href',
      hsupplied.submit (ht.mono fun _ _ _ ↦ trivial) hfresh he hknown htsub,
      hP hgen hemits ht hsupplied hprop htsub⟩

theorem Generates.synthetic (h : Generates cfg limit es g) : ∀ e ∈ es, Synthetic e := by
  induction h with
  | init => exact fun e he ↦ absurd he List.not_mem_nil
  | next _ hnext ih =>
    intro e he
    rcases List.mem_append.mp he with he | he
    · exact ih e he
    · obtain rfl := List.mem_singleton.mp he
      exact (SyntheticGenerator.next_emits hnext).synthetic

/-- Every order of the stream was handed to `process_new_order`. -/
theorem Generates.accepted (h : Generates cfg limit es g) {rs : List MatchResult}
    (hlen : rs.length = es.length) {x : Order} (hx : x ∈ submittedOrders es) :
    Accepted (es.zip rs) x := by
  obtain ⟨e, he, hxe⟩ := List.mem_flatMap.mp hx
  have hnew := (h.synthetic e he).eq_newOrder hxe
  have hfst : (es.zip rs).map Prod.fst = es := List.map_fst_zip hlen.ge
  rw [← hfst] at he
  obtain ⟨p, hp, rfl⟩ := List.mem_map.mp he
  exact ⟨p, hp, .inl hnew⟩

private theorem Generates.quantity_pos (h : Generates cfg limit es g) {x : Order}
    (hx : x ∈ submittedOrders es) : 0 < x.quantity := by
  obtain ⟨e, he, hxe⟩ := List.mem_flatMap.mp hx
  have hsyn := h.synthetic e he
  rw [hsyn.eq_newOrder hxe] at hsyn
  exact hsyn.2.2.2

/-- The orders that the generator keeps live were submitted. -/
private theorem Generates.exists_live (h : Generates cfg limit es g) {id : OrderId}
    (hid : id ∈ g.liveOrders) : ∃ x ∈ submittedOrders es, x.id = id :=
  List.mem_map.mp (h.tally.live.mem_iff.mp (List.mem_append_right _ hid))

/-- No cancel has named a live order. -/
private theorem Tally.not_cancelled (h : Tally cfg limit es g) {id : OrderId}
    (hid : id ∈ g.liveOrders) : id ∉ cancelledIds es := by
  have hnodup := (h.live.nodup_iff).mpr h.fresh
  exact fun hmem ↦ (List.nodup_append.mp hnodup).2.2 id hmem id hid rfl

/-- A live order that is not in the book has traded its whole quantity. -/
theorem Generates.filled (h : Generates cfg limit es g) {t : Engine ReferenceBook}
    {rs : List MatchResult} (ht : Run (fun _ ↦ Sized) es t rs) (hsupplied : Supplied es rs t)
    {x : Order} (hx : x ∈ submittedOrders es) (hlive : x.id ∈ g.liveOrders)
    (hnone : findOrder t.book x.id = none) :
    traded (rs.flatMap MatchResult.trades) x.id = x.quantity.toNat := by
  have htally := h.tally
  have hbalance : balance t.live x.id = 0 := by
    apply balance_eq_zero
    intro o ho
    rw [Engine.live, hsupplied.live] at ho
    exact ReferenceBook.findOrder_eq_none_iff.mp hnone o ho
  rcases (ht.settled htally.fresh).balanced x (h.accepted ht.length hx) with ⟨hout, -⟩ | hsum
  · exact absurd (hsupplied.takenOut x.id hout) (htally.not_cancelled hlive)
  · rw [hbalance, Nat.add_zero] at hsum
    exact hsum

/-- The orders of the book are live. -/
private theorem Generates.live_of_rests (h : Generates cfg limit es g) {t : Engine ReferenceBook}
    {rs : List MatchResult} (ht : Run (fun _ ↦ Sized) es t rs) (hsupplied : Supplied es rs t)
    {o : Order} (ho : o ∈ t.book.allOrders) : o.id ∈ g.liveOrders := by
  have hknown := (ht.orderly h.tally.fresh {}).known o ho
  have hall := h.tally.live.mem_iff.mpr hknown
  exact (List.mem_append.mp hall).resolve_left (hsupplied.left o ho)

/-- What one more event has refused. -/
private theorem Generates.refuses (h : Generates cfg limit es g) {t t' : Engine ReferenceBook}
    {rs : List MatchResult} {r : MatchResult} {g' : SyntheticGenerator} {e : OrderEvent}
    (hemits : g.Emits e g') (ht : Run (fun _ ↦ Sized) es t rs) (hsupplied : Supplied es rs t)
    (hs : Submits t e t' r) : ∀ rej ∈ r.rejections, RefusesFilled es rs e rej := by
  intro rej hrej
  have hfresh := (h.tally.emits hemits).fresh
  cases hemits with
  | submit d =>
    rw [hsupplied.rejections_newOrder (ht.mono fun _ _ _ ↦ trivial) hfresh rfl hs] at hrej
    exact absurd hrej List.not_mem_nil
  | @cancel i live _ _ hlive =>
    have hend := hs.of_idle (by rfl)
    rcases hsupplied.start_cancel
        { orderId := g.liveOrders.getD i 0, timestamp := g.tick.currentTs } with
      ⟨o, -, hstart⟩ | ⟨hnone, hstart⟩
    · rw [hstart] at hend
      obtain ⟨-, -, rfl⟩ := Config.mk.inj hend
      exact absurd hrej List.not_mem_nil
    · rw [hstart] at hend
      obtain ⟨-, -, rfl⟩ := Config.mk.inj hend
      obtain rfl := List.mem_singleton.mp hrej
      have hid : g.liveOrders.getD i 0 ∈ g.liveOrders := hlive.mem_iff.mp List.mem_cons_self
      obtain ⟨x, hx, hxid⟩ := h.exists_live hid
      exact ⟨rfl, ⟨_, rfl, rfl⟩, x, hx, hxid,
        h.filled ht hsupplied hx (hxid ▸ hid) (hxid ▸ hnone)⟩

/-- The rejections of a stream, and those of one more event. -/
private theorem refusesFilled_concat {es : List OrderEvent} {e : OrderEvent} {rs : List MatchResult}
    {r : MatchResult} (hlen : rs.length = es.length)
    (hall : ∀ k e r, es[k]? = some e → rs[k]? = some r → ∀ rej ∈ r.rejections,
      RefusesFilled (es.take k) (rs.take k) e rej)
    (hlast : ∀ rej ∈ r.rejections, RefusesFilled es rs e rej) (k : Nat) (e' : OrderEvent)
    (r' : MatchResult) (he : (es ++ [e])[k]? = some e') (hr : (rs ++ [r])[k]? = some r') :
    ∀ rej ∈ r'.rejections, RefusesFilled ((es ++ [e]).take k) ((rs ++ [r]).take k) e' rej := by
  rcases Nat.lt_trichotomy k es.length with hlt | rfl | hgt
  · rw [List.getElem?_append_left hlt] at he
    rw [List.getElem?_append_left (hlen ▸ hlt)] at hr
    rw [List.take_append_of_le_length hlt.le, List.take_append_of_le_length (hlen ▸ hlt.le)]
    exact hall k e' r' he hr
  · rw [List.getElem?_concat_length] at he
    rw [← hlen, List.getElem?_concat_length] at hr
    obtain rfl := Option.some.inj he
    obtain rfl := Option.some.inj hr
    rw [List.take_left, ← hlen, List.take_left]
    exact hlast
  · rw [List.getElem?_eq_none (by rw [List.length_append, List.length_singleton]; omega)] at he
    exact absurd he (by simp)

/-- Every event of a synthetic stream is accepted. The orders of the book are live ones of the
generator, a live one that is not in the book has traded its whole quantity, and nothing is
rejected but cancels of such orders. -/
theorem generated_runs_agree (h : Generates cfg limit es g) :
    ∃ s rs, Run (fun _ ↦ Sized) es s rs ∧ Agrees es g s rs := by
  obtain ⟨s, t, rs, hs, ht, href, hsupplied, hrefused⟩ :=
    h.supplied_induction (P := fun es _ rs ↦ ∀ k e r, es[k]? = some e → rs[k]? = some r →
        ∀ rej ∈ r.rejections, RefusesFilled (es.take k) (rs.take k) e rej)
      (fun k e r he ↦ absurd he (by simp))
      fun hgen hemits ht hsupplied hall hsub ↦
        refusesFilled_concat ht.length hall (hgen.refuses hemits ht hsupplied hsub)
  have hpending : s.pendingStops = [] := by
    rw [← hsupplied.pending, href.agree]
    rfl
  refine ⟨s, rs, hs, hpending, fun o ho ↦ ?_, fun x hx hlive hnone ↦ ?_, hrefused⟩
  · exact h.live_of_rests ht hsupplied ((href.tracks.represents.mem_storedOrders o).mp ho)
  · rw [href.tracks.represents.find] at hnone
    exact h.filled ht hsupplied hx hlive hnone

/-- Draws that choose between a new order and a cancel, a side and a price. -/
private def draws (cancels buys : Bool) (offset : Int)
    (hoffset : InInt64 offset := by decide) : Draws where
  uniform := if cancels then 0 else 3 / 4
  side := if buys then 0 else 3 / 4
  quantity := 10
  offset := offset
  spread := 2
  index last := 0
  uniform_range := by cases cancels <;> decide +kernel
  side_range := by cases buys <;> decide +kernel
  offset_range := hoffset
  quantity_range := by decide
  spread_range := by decide

/-- A sell order, a buy order at a higher price, and a cancel of the first one. -/
private def sellBuyCancel : List Draws :=
  [draws false false 0, draws false true 5, draws true true 0]

private def around100 (marketMakerMode : Bool) : EngineConfig where
  midPrice := 100
  cancelProbability := 1 / 2
  marketMakerMode := marketMakerMode

theorem generated_runs_agree_filled : ∃ (es : List OrderEvent) (g : SyntheticGenerator)
    (s : Engine (OrderBook PriceLevel)) (rs : List MatchResult), es.length = 3 ∧
      g.liveOrders = [2] ∧ Run (fun _ ↦ Sized) es s rs ∧ Agrees es g s rs := by
  obtain ⟨a, ha, hlength, hlive⟩ : ∃ a ∈ SyntheticGenerator.stream sellBuyCancel
      (.init (around100 false) 3), a.1.length = 3 ∧ a.2.liveOrders = [2] := by
    decide +kernel
  obtain ⟨s, rs, hrun, hagree⟩ := generated_runs_agree (Generates.init.stream ha)
  exact ⟨_, a.2, s, rs, hlength, hlive, hrun, hagree⟩

/-! ### Market maker mode -/

/-- Nothing has traded, nothing was refused, and no order reaches the middle. -/
structure Untraded (mid : Price) (t : Engine ReferenceBook) (rs : List MatchResult) : Prop where
  apart : Config.Apart mid ⟨t, [], {}⟩
  trades : rs.flatMap MatchResult.trades = []
  rejections : rs.flatMap MatchResult.rejections = []

/-- The prices around the middle stay within 64 bits. -/
def EngineConfig.MidFits (cfg : EngineConfig) : Prop :=
  InInt64 (cfg.midPrice - 3) ∧ InInt64 (cfg.midPrice + 3)

instance (cfg : EngineConfig) : Decidable cfg.MidFits := inferInstanceAs (Decidable (_ ∧ _))

/-- In market maker mode an order is priced away from the middle. -/
theorem Tally.quotes (h : Tally cfg limit es g) (hm : cfg.marketMakerMode = true)
    (hroom : cfg.MidFits) (d : Draws) :
    ((g.tick.newOrder d).side = .buy → (g.tick.newOrder d).price < cfg.midPrice) ∧
      ((g.tick.newOrder d).side = .sell → cfg.midPrice < (g.tick.newOrder d).price) := by
  have hmode : g.tick.config.marketMakerMode = true := by
    rw [← hm, ← h.config]
    rfl
  have hmid : g.tick.midPrice = cfg.midPrice := h.midPrice
  obtain ⟨hspread, hmax⟩ := d.spread_range
  obtain ⟨⟨hlow, -⟩, -, hhigh⟩ := hroom
  simp only [SyntheticGenerator.newOrder, hmode, hmid, ↓reduceIte]
  constructor
  · intro hside
    have hbid : InInt64 (cfg.midPrice - d.spread) := ⟨by omega, by omega⟩
    rw [if_pos hside, narrow64_of_inInt64 hbid]
    exact Int.sub_lt_self _ hspread
  · intro hside
    have hask : InInt64 (cfg.midPrice + d.spread) := ⟨by omega, by omega⟩
    rw [if_neg (by rw [hside]; decide), narrow64_of_inInt64 hask]
    exact Int.lt_add_of_pos_right _ hspread

/-- Where nothing has traded, the live orders are in the book. -/
theorem Untraded.rests {mid : Price} {t : Engine ReferenceBook} {rs : List MatchResult}
    (h : Untraded mid t rs) (hgen : Generates cfg limit es g) (ht : Run (fun _ ↦ Sized) es t rs)
    (hsupplied : Supplied es rs t) {id : OrderId} (hid : id ∈ g.liveOrders) :
    findOrder t.book id ≠ none := by
  intro hnone
  obtain ⟨x, hx, rfl⟩ := hgen.exists_live hid
  have hfilled := hgen.filled ht hsupplied hx hid hnone
  have hpos := UInt64.lt_iff_toNat_lt.mp (hgen.quantity_pos hx)
  rw [h.trades] at hfilled
  have hzero : traded [] x.id = 0 := rfl
  rw [UInt64.toNat_zero] at hpos
  omega

/-- One more event in market maker mode. -/
theorem Untraded.submit {t t' : Engine ReferenceBook} {rs : List MatchResult} {r : MatchResult}
    {g' : SyntheticGenerator} {e : OrderEvent} (h : Untraded cfg.midPrice t rs)
    (hm : cfg.marketMakerMode = true) (hroom : cfg.MidFits) (hgen : Generates cfg limit es g)
    (hemits : g.Emits e g')
    (ht : Run (fun _ ↦ Sized) es t rs) (hsupplied : Supplied es rs t) (hs : Submits t e t' r) :
    Untraded cfg.midPrice t' (rs ++ [r]) := by
  have hfresh := (hgen.tally.emits hemits).fresh
  have hnext (hapart : Config.Apart cfg.midPrice ⟨t', [], r⟩) (hr : r.rejections = []) :
      Untraded cfg.midPrice t' (rs ++ [r]) := by
    refine ⟨⟨hapart.bids, hapart.asks, rfl⟩, ?_, ?_⟩
    · rw [List.flatMap_append, h.trades, List.flatMap_singleton, hapart.trades]
      rfl
    · rw [List.flatMap_append, h.rejections, List.flatMap_singleton, hr]
      rfl
  cases hemits with
  | submit d =>
    obtain ⟨hbid, hask⟩ := hgen.tally.quotes hm hroom d
    have hstart : Config.Apart cfg.midPrice (.start t (.newOrder ⟨g.tick.newOrder d⟩)) := by
      refine ⟨fun x hx ↦ ?_, fun x hx ↦ ?_, start_trades _ _⟩
      · rcases live_start (e := .newOrder ⟨g.tick.newOrder d⟩) (r := {}) trivial hx with
          hx | ⟨y, st, hy, rfl⟩
        · exact h.apart.bids x hx
        · obtain rfl : g.tick.newOrder d = y := Option.some.inj hy
          exact hbid
      · rcases live_start (e := .newOrder ⟨g.tick.newOrder d⟩) (r := {}) trivial hx with
          hx | ⟨y, st, hy, rfl⟩
        · exact h.apart.asks x hx
        · obtain rfl : g.tick.newOrder d = y := Option.some.inj hy
          exact hask
    have hrun : Run Anything es t rs := ht.mono fun _ _ _ ↦ trivial
    obtain ⟨-, hapart⟩ := hsupplied.submit_induction hrun hfresh rfl hs hstart
      fun hord htame hc hmove ↦ hc.moves hord htame hmove
    exact hnext hapart (hsupplied.rejections_newOrder hrun hfresh rfl hs)
  | @cancel i live _ hi hlive =>
    have hend := hs.of_idle (by rfl)
    rcases hsupplied.start_cancel
        { orderId := g.liveOrders.getD i 0, timestamp := g.tick.currentTs } with
      ⟨o, ho, hstart⟩ | ⟨hnone, -⟩
    · rw [hstart] at hend
      obtain ⟨rfl, -, rfl⟩ := Config.mk.inj hend
      have hin {x : Order} (hx : x ∈ Config.live ⟨{ t with
          sequence := t.sequence + 1
          book := cancelOrder t.book (g.liveOrders.getD i 0) }, [],
          cancelled (g.liveOrders.getD i 0) o.quantity g.tick.currentTs⟩) :
          x ∈ Config.live ⟨t, [], {}⟩ := by
        rcases List.mem_append.mp hx with hx | hx
        · exact List.mem_append_left _ (ReferenceBook.mem_cancelOrder.mp hx).1
        · exact List.mem_append_right _ hx
      exact hnext ⟨fun x hx ↦ h.apart.bids x (hin hx), fun x hx ↦ h.apart.asks x (hin hx), rfl⟩ rfl
    · exact absurd hnone (h.rests hgen ht hsupplied (hlive.mem_iff.mp List.mem_cons_self))

/-- In market maker mode, around a middle whose prices stay within 64 bits, no event of the stream
trades, no cancel is refused, and the orders of the book are those that the generator keeps live,
the bids below its middle and the asks above it. -/
theorem market_maker_never_trades (h : Generates cfg limit es g)
    (hm : cfg.marketMakerMode = true) (hroom : cfg.MidFits) :
    ∃ (s : Engine (OrderBook PriceLevel))
      (rs : List MatchResult), Run (fun _ ↦ Sized) es s rs ∧
        rs.flatMap MatchResult.trades = [] ∧ rs.flatMap MatchResult.rejections = [] ∧
        List.Perm (s.book.storedOrders.map Order.id) g.liveOrders ∧
        ∀ o ∈ s.book.storedOrders, (o.side = .buy → o.price < cfg.midPrice) ∧
          (o.side = .sell → cfg.midPrice < o.price) := by
  obtain ⟨s, t, rs, hs, ht, href, hsupplied, hquoted⟩ := h.supplied_induction
    (P := fun _ t rs ↦ Untraded cfg.midPrice t rs)
    ⟨⟨fun o ho ↦ absurd ho List.not_mem_nil, fun o ho ↦ absurd ho List.not_mem_nil, rfl⟩, rfl, rfl⟩
    fun hgen hemits ht hsupplied hquoted hsub ↦
      hquoted.submit hm hroom hgen hemits ht hsupplied hsub
  have hperm := href.tracks.represents.storedOrders_perm
  have hlive : g.liveOrders.Nodup :=
    (List.nodup_append.mp ((h.tally.live.nodup_iff).mpr h.tally.fresh)).2.1
  refine ⟨s, rs, hs, hquoted.trades, hquoted.rejections, ?_, fun o ho ↦ ?_⟩
  · refine (hperm.map Order.id).trans ?_
    refine (List.perm_ext_iff_of_nodup href.tracks.represents.distinct hlive).mpr fun id ↦ ?_
    constructor
    · intro hid
      obtain ⟨o, ho, rfl⟩ := List.mem_map.mp hid
      exact h.live_of_rests ht hsupplied ho
    · intro hid
      cases ho : findOrder t.book id with
      | none => exact absurd ho (hquoted.rests h ht hsupplied hid)
      | some o =>
        obtain ⟨hmem, rfl⟩ := ReferenceBook.mem_of_findOrder ho
        exact List.mem_map_of_mem hmem
  · have hmem := List.mem_append_left (t.outstanding []) (hperm.mem_iff.mp ho)
    exact ⟨hquoted.apart.bids o hmem, hquoted.apart.asks o hmem⟩

theorem market_maker_never_trades_cancel : ∃ (es : List OrderEvent)
    (s : Engine (OrderBook PriceLevel)) (rs : List MatchResult), es.length = 3 ∧
      Run (fun _ ↦ Sized) es s rs ∧ rs.flatMap MatchResult.rejections = [] ∧
      s.book.storedOrders.map Order.id = [2] := by
  obtain ⟨a, ha, hlength, hlive⟩ : ∃ a ∈ SyntheticGenerator.stream sellBuyCancel
      (.init (around100 true) 3), a.1.length = 3 ∧ a.2.liveOrders = [2] := by
    decide +kernel
  obtain ⟨s, rs, hrun, -, hrejections, hperm, -⟩ :=
    market_maker_never_trades (Generates.init.stream ha) rfl (by decide)
  rw [hlive] at hperm
  exact ⟨_, s, rs, hlength, hrun, hrejections, List.perm_singleton.mp hperm⟩

end Run

end LobEngine
