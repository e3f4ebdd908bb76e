import LobEngine.Refinement.Termination

/-!
# Fresh runs refine runs of the reference engine

On a fresh stream no identifier comes back, so the only event that can meet a dead entry of
its own order is a requeueing modify. Where every such modify `Lands`, the engine and the
reference engine return the same results. The eager level keeps no dead entries, so over it
every modify lands; this gives every fresh run of the reference engine an engine to be
related to, and with it the facts collected in `Orderly`.
-/

namespace LobEngine

open PriceLevelOps LawfulPriceLevel BookOps Engine Stepper

section Fresh

variable {L : Type} [PriceLevelOps L] [LawfulPriceLevel L]

/-- If the event is a modify that requeues its order, the level that the order joins holds no
entry of it. -/
def Lands (s : Engine (OrderBook L)) : OrderEvent → Prop
  | .modifyOrder e => Requeueable s.book e
  | _ => True

theorem Lands.of_keepsPlace {s : Engine (OrderBook L)} {e : OrderEvent} (h : KeepsPlace s e) :
    Lands s e := by
  cases e with
  | modifyOrder e =>
    intro o ho _ hq
    rw [h o ho] at hq
    exact absurd hq (by decide)
  | newOrder _ | cancelOrder _ | replaceOrder _ => trivial

/-- The engine refines the reference engine after the stream `es`. -/
structure Refines (es : List OrderEvent) (s : Engine (OrderBook L))
    (t : Engine ReferenceBook) : Prop where
  agree : t = s.withBook t.book
  tracks : Tracks true (· ∈ submittedIds es) s.book (s.outstanding []) t.book

variable {es : List OrderEvent} {e : OrderEvent} {s s' : Engine (OrderBook L)}
  {t t' : Engine ReferenceBook} {rs : List MatchResult} {res : MatchResult}

theorem Tracks.mono {all : Bool} {U V : OrderId → Prop} (hUV : ∀ id, U id → V id)
    {b : OrderBook L} {os : List Order} {r : ReferenceBook} (h : Tracks all U b os r) :
    Tracks all V b os r where
  represents := h.represents
  known side p id he := hUV id (h.known side p id he)
  distinct := h.distinct
  fits o ho ht := ⟨(h.fits o ho ht).1, hUV o.id (h.fits o ho ht).2⟩

/-- The new engines. -/
theorem Tracks.init (all : Bool) (U : OrderId → Prop) :
    Tracks all U (BookOps.empty : OrderBook L) [] BookOps.empty where
  represents := .empty
  known := by
    rintro side p id ⟨l, hl, -⟩
    have hnone : (BookOps.empty : OrderBook L).getLevel side p = none := by
      cases side <;> simp [OrderBook.getLevel, OrderBook.levels, BookOps.empty, OrderBook.empty]
    exact absurd (hnone.symm.trans hl) (by simp)
  distinct := List.nodup_nil
  fits := fun o ho ↦ absurd ho List.not_mem_nil

theorem Refines.init : Refines [] (Engine.init : Engine (OrderBook L)) Engine.init where
  agree := rfl
  tracks := Tracks.init true _

/-- A new identifier is welcome. -/
private theorem Tracks.welcomes {b : OrderBook L} {r : ReferenceBook} {o : Order}
    (h : Tracks true (· ∈ submittedIds es) b (s.outstanding []) r)
    (hnew : o.id ∉ submittedIds es) (hU : o.id ∈ submittedIds (es ++ [e])) :
    Welcomes true (· ∈ submittedIds (es ++ [e])) { s with book := b } o := by
  intro _
  refine ⟨⟨?_, fun _ he ↦ hnew (h.known _ _ _ he)⟩, hU, fun stop hstop ht hid ↦ ?_⟩
  · cases hf : b.findOrder o.id with
    | none => rfl
    | some x => exact absurd (h.known _ _ _ (h.represents.entry_of_find hf)) hnew
  · have hmem : stop.converted ∈ s.outstanding [] := List.mem_map_of_mem hstop
    have hk := (h.fits _ hmem ht).2
    rw [converted_id, hid] at hk
    exact hnew hk

/-- On a fresh stream every event that lands is admissible. -/
theorem Refines.admits (h : Refines es s t) (hf : Fresh (es ++ [e])) (hl : Lands s e) :
    Admits true (· ∈ submittedIds (es ++ [e])) s e := by
  cases e with
  | cancelOrder e => trivial
  | modifyOrder e => exact hl
  | newOrder e =>
    have hmem : e.order.id ∈ (OrderEvent.newOrder e).orders.map Order.id :=
      List.mem_singleton.mpr rfl
    exact h.tracks.welcomes (s := s) (hf.not_mem hmem) (by simp [OrderEvent.orders])
  | replaceOrder e =>
    have hmem : e.newOrder.id ∈ (OrderEvent.replaceOrder e).orders.map Order.id :=
      List.mem_singleton.mpr rfl
    have hc := h.tracks.shrink (h.tracks.represents.cancelOrder e.oldOrderId)
      (h.tracks.represents.shrinks_cancelOrder e.oldOrderId)
    exact hc.welcomes (s := s) (hf.not_mem hmem) (by simp [OrderEvent.orders])

/-- What was submitted stays submitted. -/
theorem Refines.extend (h : Refines es s t) (e : OrderEvent) :
    Tracks true (· ∈ submittedIds (es ++ [e])) s.book (s.outstanding []) t.book :=
  h.tracks.mono fun id hid ↦ by
    rw [submittedIds_append]
    exact List.mem_append_left _ hid

/-- One event of a fresh stream. -/
theorem Refines.submits (h : Refines es s t) (hf : Fresh (es ++ [e])) (hl : Lands s e) :
    ∃ s' t' res, Submits s e s' res ∧ Submits t e t' res ∧ Refines (es ++ [e]) s' t' := by
  obtain ⟨s', r', res, hs, ht, htr⟩ := Related.submits (h.extend e) (h.admits hf hl)
  rw [← h.agree] at ht
  exact ⟨s', s'.withBook r', res, hs, ht, rfl, htr⟩

/-- A fresh run whose modifies land refines a run of the reference engine, on events of the
same kind. -/
theorem Run.refines {Ok : Engine (OrderBook L) → OrderEvent → Prop} {E : OrderEvent → Prop}
    (hl : ∀ {es s t e}, Refines es s t → Ok s e → Lands s e) (hE : ∀ {s e}, Ok s e → E e)
    (h : Run Ok es s rs) (hf : Fresh es) : ∃ t, Run (fun _ ↦ E) es t rs ∧ Refines es s t := by
  induction h with
  | nil => exact ⟨Engine.init, .nil, .init⟩
  | snoc hrun hok hs ih =>
    obtain ⟨t, ht, href⟩ := ih hf.left
    obtain ⟨s', t', res, hs', ht', href'⟩ := href.submits hf (hl href hok)
    obtain ⟨rfl, rfl⟩ := hs'.unique hs
    exact ⟨t', ht.snoc (hE hok) ht', href'⟩

/-- The invariant rule for a fresh run whose modifies land: what every event preserves on the
reference engine holds of the run of the reference engine that is refined. -/
theorem Run.refines_induction {Ok : Engine (OrderBook L) → OrderEvent → Prop}
    {P : List OrderEvent → Engine ReferenceBook → List MatchResult → Prop}
    (hl : ∀ {s e}, Ok s e → Lands s e) (h₀ : P [] .init [])
    (hP : ∀ {es e s t t' rs r}, Refines es s t → Run Anything es t rs → Fresh (es ++ [e]) →
      Ok s e → P es t rs → Submits t e t' r → P (es ++ [e]) t' (rs ++ [r]))
    (h : Run Ok es s rs) (hf : Fresh es) :
    ∃ t, Run Anything es t rs ∧ Refines es s t ∧ P es t rs := by
  induction h with
  | nil => exact ⟨.init, .nil, .init, h₀⟩
  | snoc _ hok hs ih =>
    obtain ⟨t, ht, href, hPt⟩ := ih hf.left
    obtain ⟨s', t', res, hs', ht', href'⟩ := href.submits hf (hl hok)
    obtain ⟨rfl, rfl⟩ := hs'.unique hs
    exact ⟨t', ht.snoc trivial ht', href', hP href ht hf hok hPt ht'⟩

/-- A modify keeps the place of its order in both engines or in neither. -/
private theorem Refines.keepsPlace_iff (h : Refines es s t) (e : OrderEvent) :
    KeepsPlace s e ↔ KeepsPlace t e := by
  cases e with
  | modifyOrder e =>
    have hfind : findOrder t.book e.orderId = findOrder s.book e.orderId :=
      (h.tracks.represents.find e.orderId).symm
    simp only [KeepsPlace, hfind]
  | newOrder _ | cancelOrder _ | replaceOrder _ => exact Iff.rfl

/-- A fresh run whose modifies keep the place of their order refines such a run of the reference
engine. -/
theorem Run.keepsPlace (h : Run KeepsPlace es s rs) (hf : Fresh es) :
    ∃ t, Run KeepsPlace es t rs ∧ Refines es s t := by
  induction h with
  | nil => exact ⟨Engine.init, .nil, .init⟩
  | snoc _ hok hs ih =>
    obtain ⟨t, ht, href⟩ := ih hf.left
    obtain ⟨s', t', res, hs', ht', href'⟩ := href.submits hf (.of_keepsPlace hok)
    obtain ⟨rfl, rfl⟩ := hs'.unique hs
    exact ⟨t', ht.snoc ((href.keepsPlace_iff _).mp hok) ht', href'⟩

/-- Such a run of the reference engine is refined by one of the engine. -/
theorem Run.of_reference {t : Engine ReferenceBook} (h : Run KeepsPlace es t rs) (hf : Fresh es) :
    ∃ s : Engine (OrderBook L), Run KeepsPlace es s rs ∧ Refines es s t := by
  induction h with
  | nil => exact ⟨Engine.init, .nil, .init⟩
  | snoc _ hok ht ih =>
    obtain ⟨s, hs, href⟩ := ih hf.left
    have hok' := (href.keepsPlace_iff _).mpr hok
    obtain ⟨s', t', res, hs', ht', href'⟩ := href.submits hf (.of_keepsPlace hok')
    obtain ⟨rfl, rfl⟩ := ht'.unique ht
    exact ⟨s', hs.snoc hok' hs', href'⟩

end Fresh

/-! ### The eager level -/

/-- The eager level keeps no dead entries. -/
private theorem requeueable_eager {b : OrderBook EagerPriceLevel} {r : ReferenceBook}
    (h : Represents b r) (e : ModifyOrderEvent) : Requeueable b e := by
  rintro o - - - ⟨l, hl, hid⟩
  have hc := h.cancelOrder e.orderId
  have hlists := hc.lists o.side (modified e o).price
  rw [hl] at hlists
  have hmem : e.orderId ∈ orderIds l := hid
  rw [hlists.2.2.1] at hmem
  obtain ⟨x, hx, hxid⟩ := List.mem_map.mp hmem
  have hx' := (ReferenceBook.mem_cancelOrder.mp (ReferenceBook.mem_atPrice.mp hx).1).2
  exact hx' hxid

theorem Refines.lands_eager {es : List OrderEvent} {s : Engine (OrderBook EagerPriceLevel)}
    {t : Engine ReferenceBook} (h : Refines es s t) (e : OrderEvent) : Lands s e := by
  cases e with
  | modifyOrder e => exact requeueable_eager h.tracks.represents e
  | newOrder _ | cancelOrder _ | replaceOrder _ => trivial

/-- Every fresh run of the reference engine is refined by a run over the eager level. -/
theorem Run.refined_eager {Ok : Engine ReferenceBook → OrderEvent → Prop}
    {es : List OrderEvent} {t : Engine ReferenceBook} {rs : List MatchResult} (h : Run Ok es t rs)
    (hf : Fresh es) :
    ∃ s : Engine (OrderBook EagerPriceLevel), Run Anything es s rs ∧ Refines es s t := by
  induction h with
  | nil => exact ⟨Engine.init, .nil, .init⟩
  | snoc hrun _ ht ih =>
    obtain ⟨s, hs, href⟩ := ih hf.left
    obtain ⟨s', t', res, hs', ht', href'⟩ := href.submits hf (href.lands_eager _)
    obtain ⟨rfl, rfl⟩ := ht'.unique ht
    exact ⟨s', hs.snoc trivial hs', href'⟩

/-! ### What fresh runs keep apart -/

/-- The orders of the book and the outstanding orders have distinct identifiers, all known. -/
structure Orderly (U : OrderId → Prop) (c : Config ReferenceBook) : Prop where
  distinct : c.engine.book.Distinct
  known : ∀ o ∈ c.engine.book.allOrders, U o.id
  nodup : ((c.engine.outstanding c.stack).map Order.id).Nodup
  apart : ∀ o ∈ c.engine.outstanding c.stack, ∀ x ∈ c.engine.book.allOrders, x.id ≠ o.id
  outstanding : ∀ o ∈ c.engine.outstanding c.stack, U o.id

theorem Related.orderly {L : Type} [PriceLevelOps L] [LawfulPriceLevel L] {U : OrderId → Prop}
    {c : Config (OrderBook L)} {d : Config ReferenceBook} (h : Related true U c d) :
    Orderly U d := by
  obtain ⟨r, rfl, h⟩ := h
  have hnodup := h.distinct
  rw [filter_tracked_true] at hnodup
  refine ⟨h.represents.distinct, fun o ho ↦ ?_, hnodup, fun o ho ↦ ?_,
    fun o ho ↦ (h.fits o ho rfl).2⟩
  · exact h.known _ _ _ (h.represents.entry_of_mem (ReferenceBook.mem_atPrice.mpr ⟨ho, rfl, rfl⟩))
  · have hnone := (h.fits o ho rfl).1.1
    rw [h.represents.find] at hnone
    exact ReferenceBook.findOrder_eq_none_iff.mp hnone

section Reference

variable {es : List OrderEvent} {e : OrderEvent} {t t' : Engine ReferenceBook}
  {rs : List MatchResult} {res : MatchResult} {Ok : Engine ReferenceBook → OrderEvent → Prop}

/-- An event of a fresh run of the reference engine starts orderly. -/
theorem Run.orderly_start (h : Run Ok es t rs) (hf : Fresh (es ++ [e])) :
    ∃ c : Config (OrderBook EagerPriceLevel),
      Related true (· ∈ submittedIds (es ++ [e])) c (.start t e) := by
  obtain ⟨s, -, href⟩ := h.refined_eager hf.left
  have hstart := Related.start (href.extend e) (href.admits hf (href.lands_eager e))
  rw [← href.agree] at hstart
  exact ⟨_, hstart⟩

theorem Run.orderly (h : Run Ok es t rs) (hf : Fresh es) (res : MatchResult) :
    Orderly (· ∈ submittedIds es) ⟨t, [], res⟩ := by
  obtain ⟨s, -, href⟩ := h.refined_eager hf
  refine Related.orderly (c := ⟨s, [], res⟩) ⟨t.book, ?_, href.tracks⟩
  rw [Config.withBook, ← href.agree]

/-- No order of a fresh run has an identifier that was not submitted. -/
theorem Run.absent (h : Run Ok es t rs) (hf : Fresh es) {x : OrderId}
    (hx : x ∉ submittedIds es) :
    (∀ o ∈ t.book.allOrders, o.id ≠ x) ∧ ∀ stop ∈ t.pendingStops, stop.id ≠ x := by
  have hord := h.orderly hf {}
  constructor
  · intro o ho hid
    exact hx (hid ▸ hord.known o ho)
  · intro stop hstop hid
    have hk := hord.outstanding stop.converted (List.mem_map_of_mem hstop)
    rw [converted_id, hid] at hk
    exact hx hk

/-- The invariant rule for one event of a fresh run of the reference engine, step by step. -/
private theorem Run.submit_preserves (h : Run Ok es t rs) (hf : Fresh (es ++ [e]))
    (hs : Submits t e t' res) {P : Config ReferenceBook → Prop}
    (hstart : Orderly (· ∈ submittedIds (es ++ [e])) (.start t e) → P (.start t e))
    (hP : ∀ c d, Orderly (· ∈ submittedIds (es ++ [e])) c → P c → c.step = .ok (some d) → P d) :
    P ⟨t', [], res⟩ := by
  obtain ⟨c₀, hc₀⟩ := h.orderly_start hf
  let Q : Config ReferenceBook → Prop := fun d ↦
    (∃ c : Config (OrderBook EagerPriceLevel),
      Related true (· ∈ submittedIds (es ++ [e])) c d) ∧ P d
  suffices hQ : Q ⟨t', [], res⟩ from hQ.2
  refine hs.preserves ?_ ⟨⟨c₀, hc₀⟩, hstart hc₀.orderly⟩
  rintro d d' ⟨⟨c, hc⟩, hPd⟩ hstep
  obtain ⟨c', -, hc'⟩ := Related.lockstep.symm.steps (.single hstep) hc
  exact ⟨⟨c', hc'⟩, hP d d' hc.orderly hPd hstep⟩

/-- The invariant rule for one event of a fresh run of the reference engine. -/
theorem Run.submit_induction (h : Run Ok es t rs) (hf : Fresh (es ++ [e]))
    (hs : Submits t e t' res) {P : Config ReferenceBook → Prop}
    (hstart : Orderly (· ∈ submittedIds (es ++ [e])) (.start t e) → P (.start t e))
    (hP : ∀ c d, Orderly (· ∈ submittedIds (es ++ [e])) c → P c → Config.Moves c d → P d) :
    P ⟨t', [], res⟩ :=
  h.submit_preserves hf hs hstart fun c d ho hPc hstep ↦
    hP c d ho hPc (Config.moves_of_step hstep)

end Reference

end LobEngine
