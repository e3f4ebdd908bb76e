import LobEngine.Properties.Altered
import LobEngine.Properties.Ledger

/-!
# An order that has left never comes back

Once an order neither rests in the book nor waits as a stop, no event of a fresh stream brings it
back: it trades no more, and a cancel, a modify or a replacement of it is refused.
-/

namespace LobEngine

open BookOps Engine

/-- No order with the identifier rests in the book or waits as a stop. -/
def Engine.Lacks {B : Type} [BookOps B] (s : Engine B) (id : OrderId) : Prop :=
  findOrder s.book id = none ∧ ∀ stop ∈ s.pendingStops, stop.id ≠ id

/-- Nothing in the engine has the identifier, and no trade of this event has it. -/
def Config.Lacks (c : Config ReferenceBook) (id : OrderId) : Prop :=
  (∀ o ∈ c.live, o.id ≠ id) ∧ ∀ t ∈ c.result.trades, t.involves id = false

section Reference

variable {c d : Config ReferenceBook} {t : Engine ReferenceBook} {id : OrderId}

/-- A move trades only with live orders and brings no new ones. -/
theorem Config.Lacks.move {U : OrderId → Prop} (h : c.Lacks id) (ho : Orderly U c)
    (hm : Config.Moves c d) : d.Lacks id := by
  refine ⟨fun o hl he ↦ ?_, ?_⟩
  · obtain ⟨x, hx, hox⟩ := hm.live ho hl
    exact h.1 x hx (hox.id_eq.symm.trans he)
  · cases hm with
    | @fill s a o K r p key book book' q _ _ _ hp =>
      obtain ⟨rfl, rfl, ⟨rest, hrest⟩, -⟩ := ho.distinct.of_pickPassive hp
      have hpassive := h.1 o (List.mem_append_left _ (ReferenceBook.mem_of_head hrest).1)
      have haggressor := h.1 a (List.mem_append_right _ List.mem_cons_self)
      rw [evaluate_result]
      intro x hx
      rcases List.mem_append.mp hx with hx | hx
      · exact h.2 x hx
      · obtain rfl := List.mem_singleton.mp hx
        simp [Trade.involves, fillTrade, hpassive, haggressor]
    | filled | uncrossed | unopposed | exhausted | evaluated | triggered | kept => exact h.2

/-- Between two events the live orders rest or wait. -/
theorem Engine.lacks_iff (r : MatchResult) :
    (∀ o ∈ Config.live ⟨t, [], r⟩, o.id ≠ id) ↔ t.Lacks id := by
  have hpending : t.outstanding [] = t.pendingStops.map Order.converted := by
    simp [outstanding]
  rw [Config.live, Engine.Lacks, hpending]
  constructor
  · intro h
    refine ⟨ReferenceBook.findOrder_eq_none_iff.mpr fun o ho ↦ h o (List.mem_append_left _ ho),
      fun stop hstop ↦ ?_⟩
    have hne := h _ (List.mem_append_right _ (List.mem_map_of_mem hstop))
    rwa [converted_id] at hne
  · rintro ⟨hbook, hstops⟩ o ho
    rcases List.mem_append.mp ho with ho | ho
    · exact ReferenceBook.findOrder_eq_none_iff.mp hbook o ho
    · obtain ⟨stop, hstop, rfl⟩ := List.mem_map.mp ho
      rw [converted_id]
      exact hstops stop hstop

/-- An event starts with the identifiers of the book, or fewer. -/
private theorem resting_ids (hd : t.book.Distinct) (e : OrderEvent) {o : Order}
    (ho : o ∈ (Config.start t e).engine.book.allOrders) : ∃ x ∈ t.book.allOrders, x.id = o.id := by
  have hstart := Config.starts t e
  generalize Config.start t e = c at hstart ho
  cases hstart with
  | newOrder =>
    rw [enter_book] at ho
    exact ⟨o, ho, rfl⟩
  | replaced =>
    rw [enter_book] at ho
    exact ⟨o, (ReferenceBook.mem_cancelOrder.mp ho).1, rfl⟩
  | orderCancelled => exact ⟨o, (ReferenceBook.mem_cancelOrder.mp ho).1, rfl⟩
  | @requeued e x hfind =>
    rcases List.mem_cons.mp ((ReferenceBook.allOrders_insertOrder _ _).mem_iff.mp ho) with rfl | ho
    · exact ⟨x, (ReferenceBook.mem_of_findOrder hfind).1, rfl⟩
    · exact ⟨o, (ReferenceBook.mem_cancelOrder.mp ho).1, rfl⟩
  | @reduced e x hfind =>
    obtain ⟨hmem, hid⟩ := ReferenceBook.mem_of_findOrder hfind
    have hperm := hd.updateOrderQuantity_perm (hd.perm_of_mem hmem) e.newQuantity
    rw [hid] at hperm
    rcases List.mem_cons.mp (hperm.mem_iff.mp ho) with rfl | ho
    · exact ⟨x, hmem, hid⟩
    · exact ⟨o, (List.mem_filter.mp ho).1, rfl⟩
  | stopCancelled | cancelRejected | replaceRejected | unmodified => exact ⟨o, ho, rfl⟩

/-- An event does not bring back what it does not submit. -/
theorem Engine.Lacks.start (h : t.Lacks id) (hd : t.book.Distinct) {e : OrderEvent}
    (hnew : ∀ o, handed t e = some o → o.id ≠ id) : (Config.start t e).Lacks id := by
  have hlive := (Engine.lacks_iff {}).mpr h
  refine ⟨fun o ho hid ↦ ?_, fun x hx ↦ ?_⟩
  · rcases List.mem_append.mp ho with ho | ho
    · obtain ⟨x, hx, hxo⟩ := resting_ids hd e ho
      exact hlive x (List.mem_append_left _ hx) (hxo.trans hid)
    · rcases outstanding_start ho with ho | ⟨x, st, hx, rfl⟩
      · exact hlive o (List.mem_append_right _ ho) hid
      · exact hnew x hx ((Order.entering_id x).symm.trans hid)
  · rw [start_trades] at hx
    exact absurd hx List.not_mem_nil

end Reference

/-- A request about an order that the engine lacks is refused and changes nothing else. -/
private theorem Engine.Lacks.start_target {B : Type} [BookOps B] {s : Engine B} {e : OrderEvent}
    {id : OrderId} (h : s.Lacks id) (ht : e.target = some id) : ∃ ts, Config.start s e =
      ⟨{ s with sequence := s.sequence + 1 }, [], rejected id .orderNotFound ts⟩ := by
  have hstops : s.pendingStops.find? (·.id == id) = none := by
    rw [List.find?_eq_none]
    exact fun stop hstop he ↦ h.2 stop hstop (beq_iff_eq.mp he)
  cases e with
  | newOrder => exact absurd ht (by simp [OrderEvent.target])
  | cancelOrder e =>
    obtain rfl := Option.some.inj ht
    exact ⟨e.timestamp, by simp only [Config.start, processCancel, hstops, h.1]⟩
  | modifyOrder e =>
    obtain rfl := Option.some.inj ht
    exact ⟨0, by simp only [Config.start, processModify, h.1]⟩
  | replaceOrder e =>
    obtain rfl := Option.some.inj ht
    have hno : hasOrder s.book e.oldOrderId = false := by rw [hasOrder, h.1]; rfl
    exact ⟨0, by simp [Config.start, hno]⟩

theorem Engine.Lacks.refused {B : Type} [BookOps B] {s s' : Engine B} {e : OrderEvent}
    {r : MatchResult} {id : OrderId} (h : s.Lacks id) (ht : e.target = some id)
    (hs : Submits s e s' r) :
    s' = { s with sequence := s.sequence + 1 } ∧ ∃ ts, r = rejected id .orderNotFound ts := by
  obtain ⟨ts, hstart⟩ := h.start_target ht
  have hend := hs.of_idle (by rw [hstart])
  rw [hstart, Config.mk.injEq] at hend
  exact ⟨hend.1.symm, ts, hend.2.2.symm⟩

variable {es es' : List OrderEvent} {s s' : Engine (OrderBook PriceLevel)}
  {rs rs' : List MatchResult} {id : OrderId}

theorem Refines.lacks_iff {t : Engine ReferenceBook} (h : Refines es s t) :
    s.Lacks id ↔ t.Lacks id := by
  have hpending : t.pendingStops = s.pendingStops := by
    rw [h.agree]
    rfl
  rw [Engine.Lacks, Engine.Lacks, hpending]
  exact and_congr_left' (Eq.congr_left (h.tracks.represents.find id))

/-- Once an order of a fresh run whose modifies land neither rests nor waits, it never does again,
no trade names it, and every event that asks for it is refused and leaves the engine as it is. -/
theorem departed_for_good (h : Run Lands es s rs) (hw : Continues Lands s es' s' rs')
    (hf : Fresh (es ++ es')) (hid : id ∈ submittedIds es) (hgone : s.Lacks id) :
    s'.Lacks id ∧ ∀ p ∈ es'.zip rs', (∀ t ∈ p.2.trades, t.involves id = false) ∧
      (p.1.target = some id → ∃ ts, p.2 = rejected id .orderNotFound ts) := by
  obtain ⟨t, ht, href⟩ := h.refines (E := fun _ ↦ True) (fun _ hl ↦ hl) (fun _ ↦ trivial) hf.left
  suffices hlater : ∃ t', Run (fun _ _ ↦ True) (es ++ es') t' (rs ++ rs') ∧
      Refines (es ++ es') s' t' ∧ s'.Lacks id ∧ ∀ p ∈ es'.zip rs',
        (∀ t ∈ p.2.trades, t.involves id = false) ∧
        (p.1.target = some id → ∃ ts, p.2 = rejected id .orderNotFound ts) by
    obtain ⟨-, -, -, hlacks, hevents⟩ := hlater
    exact ⟨hlacks, hevents⟩
  induction hw with
  | nil =>
    refine ⟨t, ?_, ?_, hgone, fun p hp ↦ absurd hp List.not_mem_nil⟩
    · rwa [List.append_nil, List.append_nil]
    · rwa [List.append_nil]
  | @snoc es' e s₁ s₂ rs' r hw hl hs ih =>
    rw [← List.append_assoc] at hf
    obtain ⟨t₁, ht₁, href₁, hlacks, hevents⟩ := ih hf.left
    obtain ⟨s₂', t₂, r', hs', ht₂, href₂⟩ := href₁.submits hf hl
    obtain ⟨rfl, rfl⟩ := hs'.unique hs
    have hnew (o : Order) (ho : handed t₁ e = some o) : o.id ≠ id := by
      rintro rfl
      apply hf.handed ho
      rw [submittedIds_append]
      exact List.mem_append_left _ hid
    have hstart := (href₁.lacks_iff.mp hlacks).start (ht₁.orderly hf.left {}).distinct hnew
    have hend : Config.Lacks ⟨t₂, [], r'⟩ id := ht₁.submit_induction hf ht₂
      (P := fun c ↦ c.Lacks id) (fun _ ↦ hstart) fun c d ho hc hm ↦ hc.move ho hm
    have hnext := href₂.lacks_iff.mpr ((Engine.lacks_iff _).mp hend.1)
    refine ⟨t₂, ?_, ?_, hnext, fun p hp ↦ ?_⟩
    · rw [← List.append_assoc, ← List.append_assoc]
      exact ht₁.snoc trivial ht₂
    · rw [← List.append_assoc]
      exact href₂
    · have hlength := ht₁.length
      rw [List.length_append, List.length_append, h.length, Nat.add_left_cancel_iff] at hlength
      rw [List.zip_append hlength.symm] at hp
      rcases List.mem_append.mp hp with hp | hp
      · exact hevents p hp
      · obtain rfl := List.mem_singleton.mp hp
        exact ⟨hend.2, fun htarget ↦ (hlacks.refused htarget hs).2⟩

/-- Order 1 is filled by order 2, which rests with what is left. -/
private def filled : List OrderEvent :=
  [.newOrder ⟨{ id := 1, side := .sell, price := 100, quantity := 5 }⟩,
    .newOrder ⟨{ id := 2, price := 101, quantity := 9 }⟩]

private def asksAgain : List OrderEvent :=
  [.newOrder ⟨{ id := 3, side := .sell, price := 101, quantity := 2 }⟩,
    .modifyOrder { orderId := 1, newQuantity := 3 }, .replaceOrder ⟨1, { id := 4, price := 100 }⟩]

theorem departed_for_good_filled : ∃ (s s' : Engine (OrderBook PriceLevel))
    (rs' : List MatchResult), Continues Lands s asksAgain s' rs' ∧
      (rs'.flatMap MatchResult.trades).length = 1 ∧ s'.Lacks 1 := by
  obtain ⟨s, rs, hrun, hgone, hwaits, hone⟩ := Run.exists_of_play (B := OrderBook PriceLevel)
    KeepsPlace 50 filled (fun s rs ↦ s.book.findOrder 1 = none ∧ s.pendingStops = [] ∧
      (rs.flatMap MatchResult.trades).length = 1) (by decide +kernel)
  obtain ⟨s', rs₁, hrun', htwo⟩ := Run.exists_of_play (B := OrderBook PriceLevel) KeepsPlace 50
    (filled ++ asksAgain) (fun _ rs ↦ (rs.flatMap MatchResult.trades).length = 2)
    (by decide +kernel)
  have hlands {es : List OrderEvent} {s : Engine (OrderBook PriceLevel)} {rs : List MatchResult}
      (h : Run KeepsPlace es s rs) : Run Lands es s rs := h.mono fun _ _ ↦ .of_keepsPlace
  obtain ⟨s₀, rs₀, rs', hrun₀, hcont, rfl⟩ := (hlands hrun').split
  obtain ⟨rfl, rfl⟩ := hrun₀.unique hrun
  rw [List.flatMap_append, List.length_append, hone] at htwo
  have hlacks : s₀.Lacks 1 := ⟨hgone, by simp [hwaits]⟩
  obtain ⟨hlater, -⟩ := departed_for_good hrun₀ hcont (by decide) (by decide) hlacks
  exact ⟨s₀, s', rs', hcont, by omega, hlater⟩

end LobEngine
