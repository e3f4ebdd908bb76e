import LobEngine.Properties.Stops
import LobEngine.Refinement.Runs

/-!
# What becomes of an order

An order is submitted, may wait as a stop, trades in a match loop and may come to rest. Until
it leaves the engine it is outstanding or in the book, and it keeps its identifier, side, type,
price and peak.
-/

namespace LobEngine

open BookOps Engine

namespace Order

/-- The order with which `process_new_order` starts to match, or would once it is triggered. -/
def entering (o : Order) : Order :=
  match o.type with
  | .limit | .market => o
  | .iceberg => splitIceberg o
  | .stop | .stopLimit => o.converted

theorem entering_id (o : Order) : o.entering.id = o.id := by
  rw [entering]
  split
  · rfl
  · rfl
  · rfl
  · exact converted_id o
  · exact converted_id o

/-- A new status is no change. -/
theorem descends_status (o : Order) (st : OrderStatus) : { o with status := st }.Descends o :=
  ⟨rfl, rfl, rfl, rfl, rfl, Nat.le_refl _⟩

end Order

theorem markFilled_descends (o : Order) : (markFilled o).Descends o := by
  unfold markFilled
  split
  · exact o.descends_status _
  · exact .refl o

/-- With distinct identifiers the first order with an identifier is the only one. -/
theorem eraseP_eq_filter {os : List Order} (h : (os.map Order.id).Nodup) (id : OrderId) :
    os.eraseP (·.id == id) = os.filter (·.id != id) := by
  induction os with
  | nil => rfl
  | cons o os ih =>
    rw [List.map_cons, List.nodup_cons] at h
    by_cases ho : o.id = id
    · rw [List.eraseP_cons_of_pos (by simp [ho]), List.filter_cons_of_neg (by simp [ho]),
        List.filter_eq_self.mpr]
      intro x hx
      rw [bne_iff_ne]
      exact fun he ↦ h.1 (ho ▸ he ▸ List.mem_map_of_mem hx)
    · rw [List.eraseP_cons_of_neg (by simp [ho]), List.filter_cons_of_pos (by simp [ho]), ih h.2]

/-! ### Outstanding orders -/

section Outstanding

variable {B : Type} [BookOps B]

omit [BookOps B] in
@[simp] theorem outstanding_matching (s : Engine B) (a : Order) (K : List Frame) :
    s.outstanding (.matching a :: K) = a :: s.outstanding K := rfl

omit [BookOps B] in
@[simp] theorem outstanding_evaluated (s : Engine B) (p : Price) (K : List Frame) :
    s.outstanding (.triggers p [] :: K) = s.outstanding K := rfl

omit [BookOps B] in
@[simp] theorem outstanding_triggers (s : Engine B) (p : Price) (stop : Order)
    (working : List Order) (K : List Frame) : s.outstanding (.triggers p (stop :: working) :: K) =
      stop.converted :: s.outstanding (.triggers p working :: K) := rfl

omit [BookOps B] in
/-- A stop that is kept goes behind the pending ones. -/
theorem outstanding_kept (s : Engine B) (stop : Order) (K : List Frame) :
    List.Perm ({ s with pendingStops := s.pendingStops ++ [stop] }.outstanding K)
      (stop.converted :: s.outstanding K) := by
  simp only [Engine.outstanding, List.map_append, List.map_cons, List.map_nil]
  rw [← List.append_assoc]
  exact List.perm_append_singleton _ _

/-- Starting an evaluation only moves the stops. -/
theorem outstanding_evaluate (c : Config B) :
    List.Perm ((Config.evaluate c).engine.outstanding (Config.evaluate c).stack)
      (c.engine.outstanding c.stack) := by
  rw [Config.evaluate]
  split
  · exact .refl _
  · split
    · exact .refl _
    · simp only [Engine.outstanding, List.map_nil, List.append_nil]
      exact List.perm_append_comm

@[simp] theorem evaluate_book (c : Config B) : (Config.evaluate c).engine.book = c.engine.book := by
  rw [Config.evaluate]
  split
  · rfl
  · split <;> rfl

@[simp] theorem evaluate_result (c : Config B) : (Config.evaluate c).result = c.result := by
  rw [Config.evaluate]
  split
  · rfl
  · split <;> rfl

@[simp] theorem enter_result (s : Engine B) (o : Order) (K : List Frame) (r : MatchResult) :
    (Config.enter s o K r).result = r := by
  simp only [Config.enter]
  split
  · rfl
  · rfl
  · rfl
  · split <;> rfl
  · split <;> rfl

@[simp] theorem enter_book (s : Engine B) (o : Order) (K : List Frame) (r : MatchResult) :
    (Config.enter s o K r).engine.book = s.book := by
  simp only [Config.enter]
  split
  · rfl
  · rfl
  · rfl
  · split <;> rfl
  · split <;> rfl

/-- A limit or market order starts its match loop. -/
theorem start_direct {s : Engine B} {o : Order} (ht : o.type = .limit ∨ o.type = .market) :
    Config.start s (.newOrder ⟨o⟩) =
      ⟨{ s with sequence := s.sequence + 1 }, [.matching o.accepted], {}⟩ := by
  have hne {ty : OrderType} (h : o.type = ty) : ty = .limit ∨ ty = .market := h ▸ ht
  simp only [Config.start, Config.enter]
  split
  · rfl
  · rfl
  · next h => exact absurd (hne h) (by decide)
  · next h => exact absurd (hne h) (by decide)
  · next h => exact absurd (hne h) (by decide)

/-- An iceberg starts its match loop with its peak. -/
theorem start_iceberg {s : Engine B} {o : Order} (ht : o.type = .iceberg) :
    Config.start s (.newOrder ⟨o⟩) =
      ⟨{ s with sequence := s.sequence + 1 }, [.matching (splitIceberg o.accepted)], {}⟩ := by
  have hne {ty : OrderType} (h : o.type = ty) : ty = .iceberg := h ▸ ht
  simp only [Config.start, Config.enter]
  split
  · next h => exact absurd (hne h) (by decide)
  · next h => exact absurd (hne h) (by decide)
  · rfl
  · next h => exact absurd (hne h) (by decide)
  · next h => exact absurd (hne h) (by decide)

/-- No trade comes before the first match loop. -/
theorem start_trades (s : Engine B) (e : OrderEvent) : (Config.start s e).result.trades = [] := by
  have hstart := Config.starts s e
  generalize Config.start s e = c at hstart
  cases hstart with
  | newOrder | replaced => rw [enter_result]
  | unmodified hr => exact hr
  | stopCancelled | orderCancelled | cancelRejected | requeued | reduced | replaceRejected => rfl

/-- A settled order is in the book or gone. -/
theorem outstanding_settle (s : Engine B) (a : Order) (K : List Frame) :
    (Config.settle s a).outstanding K = s.outstanding K := by
  rcases Config.settle_eq s a with h | h
  · rw [h]
  · rw [h]
    rfl

/-- A submitted order becomes outstanding. -/
theorem outstanding_enter (s : Engine B) (o : Order) (K : List Frame) (r : MatchResult) :
    ∃ st, List.Perm ((Config.enter s o K r).engine.outstanding (Config.enter s o K r).stack)
      ({ o.entering with status := st } :: s.outstanding K) := by
  have hwait {stop : Order} (he : stop.converted = { o.entering with status := .triggered }) :
      List.Perm ({ s with pendingStops := s.pendingStops ++ [stop] }.outstanding K)
        ({ o.entering with status := .triggered } :: s.outstanding K) :=
    he ▸ outstanding_kept s stop K
  have hstop (ht : o.type = .stop ∨ o.type = .stopLimit) : ({ o with status := .resting } :
      Order).converted = { o.entering with status := .triggered } := by
    rcases ht with ht | ht <;> simp [Order.entering, Order.converted, ht]
  simp only [Config.enter]
  split
  · next ht => exact ⟨.resting, by simp only [Order.entering, ht]; exact .refl _⟩
  · next ht => exact ⟨.resting, by simp only [Order.entering, ht]; exact .refl _⟩
  · next ht => exact ⟨.resting, by simp only [Order.entering, ht, splitIceberg]; exact .refl _⟩
  · next ht =>
    split
    · refine ⟨.resting, ?_⟩
      have he := hstop (.inl ht)
      simp only [Config.enterConverted, outstanding_matching, he]
      exact .refl _
    · exact ⟨.triggered, hwait (hstop (.inl ht))⟩
  · next ht =>
    split
    · refine ⟨.resting, ?_⟩
      have he := hstop (.inr ht)
      simp only [Config.enterConverted, outstanding_matching, he]
      exact .refl _
    · exact ⟨.triggered, hwait (hstop (.inr ht))⟩

/-- An order that is outstanding after a move was outstanding before. -/
theorem Config.Moves.outstanding {c d : Config B} (h : Config.Moves c d) {o : Order}
    (ho : o ∈ d.engine.outstanding d.stack) :
    ∃ x ∈ c.engine.outstanding c.stack, o.Descends x := by
  cases h with
  | filled =>
    rw [outstanding_settle] at ho
    exact ⟨o, List.mem_cons_of_mem _ ho, .refl o⟩
  | uncrossed =>
    rw [outstanding_settle] at ho
    exact ⟨o, List.mem_cons_of_mem _ ho, .refl o⟩
  | unopposed =>
    rw [outstanding_settle] at ho
    exact ⟨o, List.mem_cons_of_mem _ ho, .refl o⟩
  | exhausted => exact ⟨o, List.mem_cons_of_mem _ ho, .refl o⟩
  | @fill s a passive K r p key book book' q =>
    rcases List.mem_cons.mp ((outstanding_evaluate _).mem_iff.mp ho) with rfl | ho
    · exact ⟨a, List.mem_cons_self, ⟨rfl, rfl, rfl, rfl, rfl, Nat.le_refl _⟩⟩
    · exact ⟨o, List.mem_cons_of_mem _ ho, .refl o⟩
  | evaluated => exact ⟨o, ho, .refl o⟩
  | @triggered s p stop working K r ht =>
    rcases List.mem_cons.mp ho with rfl | ho
    · exact ⟨stop.converted, List.mem_cons_self, Order.descends_status _ _⟩
    · exact ⟨o, List.mem_cons_of_mem _ ho, .refl o⟩
  | @kept s p stop working K r ht =>
    exact ⟨o, (outstanding_kept s stop _).mem_iff.mp ho, .refl o⟩

/-- Reports come only from cancels, which make no moves. -/
theorem Config.Moves.reports {c d : Config B} (h : Config.Moves c d) :
    d.result.reports = c.result.reports := by
  cases h with
  | fill =>
    rw [evaluate_result]
    rfl
  | filled | uncrossed | unopposed | exhausted | evaluated | triggered | kept => rfl

/-- A move rejects nothing but exhausted market orders. -/
theorem Config.Moves.rejections {c d : Config B} (h : Config.Moves c d) :
    d.result.rejections = c.result.rejections ∨
      ∃ a, d.result.rejections = c.result.rejections ++ [exhaustion a] := by
  cases h with
  | @exhausted s a => exact .inr ⟨a, rfl⟩
  | fill =>
    left
    rw [evaluate_result]
    rfl
  | filled | uncrossed | unopposed | evaluated | triggered | kept => exact .inl rfl

theorem Submits.reports {s s' : Engine B} {e : OrderEvent} {r : MatchResult}
    (h : Submits s e s' r) : r.reports = (Config.start s e).result.reports :=
  h.preserves (P := fun c ↦ c.result.reports = (Config.start s e).result.reports)
    (fun _ _ hc hstep ↦ (Config.moves_of_step hstep).reports.trans hc) rfl

theorem Submits.rejections {s s' : Engine B} {e : OrderEvent} {r : MatchResult}
    (h : Submits s e s' r) : ∀ rej ∈ r.rejections,
      rej ∈ (Config.start s e).result.rejections ∨ rej.reason = .marketExhausted := by
  refine h.preserves (P := fun c ↦ ∀ rej ∈ c.result.rejections,
    rej ∈ (Config.start s e).result.rejections ∨ rej.reason = .marketExhausted)
    (fun c d hc hstep rej hrej ↦ ?_) fun rej hrej ↦ .inl hrej
  rcases (Config.moves_of_step hstep).rejections with he | ⟨a, he⟩
  · exact hc rej (he ▸ hrej)
  · rw [he, List.mem_append, List.mem_singleton] at hrej
    rcases hrej with hrej | rfl
    · exact hc rej hrej
    · exact .inr rfl

/-- A move brings no new stops. -/
theorem Config.Moves.line {c d : Config B} (h : Config.Moves c d) {stop : Order}
    (hstop : stop ∈ d.line) : stop ∈ c.line := by
  have hsettle {s : Engine B} {a : Order} {K : List Frame} {r : MatchResult}
      (hstop : stop ∈ Config.line ⟨settle s a, K, r⟩) : stop ∈ Config.line ⟨s, K, r⟩ := by
    rcases settle_eq s a with h | h
    · rwa [h] at hstop
    · rw [h] at hstop
      exact hstop
  cases h with
  | filled | uncrossed | unopposed => exact hsettle hstop
  | fill =>
    rw [line_evaluate] at hstop
    exact hstop
  | exhausted | evaluated => exact hstop
  | @triggered s p x working K r =>
    rcases List.mem_append.mp hstop with hstop | hstop
    · exact List.mem_append_left _ hstop
    · exact List.mem_append_right _ (List.mem_cons_of_mem _ hstop)
  | @kept s p x working K r =>
    have heq : Config.line ⟨{ s with pendingStops := s.pendingStops ++ [x] },
        .triggers p working :: K, r⟩ = Config.line ⟨s, .triggers p (x :: working) :: K, r⟩ := by
      simp only [Config.line, waiting_triggers, List.append_assoc, List.cons_append,
        List.nil_append]
    rwa [heq] at hstop

/-- The stops at the start of an event were pending or are the order it submits. -/
theorem line_start_cases {s : Engine B} {e : OrderEvent} {stop : Order}
    (hstop : stop ∈ (Config.start s e).line) :
    stop ∈ s.pendingStops ∨ ∃ o, handed s e = some o ∧ stop.id = o.id := by
  have henter (s' : Engine B) {o : Order} (hp : s'.pendingStops = s.pendingStops)
      (ho : handed s e = some o) (hstop : stop ∈ (Config.enter s' o [] {}).line) :
      stop ∈ s.pendingStops ∨ ∃ o, handed s e = some o ∧ stop.id = o.id := by
    have hwaits (hstop : stop ∈ Config.line (if s'.immediatelyTriggered o.accepted then
        .enterConverted s' o.accepted [] {}
        else ⟨{ s' with pendingStops := s'.pendingStops ++ [o.accepted] }, [], {}⟩)) :
        stop ∈ s.pendingStops ∨ ∃ o, handed s e = some o ∧ stop.id = o.id := by
      split at hstop
      · exact .inl (hp ▸ (by simpa [Config.line, Config.enterConverted, Engine.log] using hstop))
      · simp only [Config.line, waiting_nil, List.append_nil, List.mem_append,
          List.mem_singleton] at hstop
        rcases hstop with hstop | rfl
        · exact .inl (hp ▸ hstop)
        · exact .inr ⟨o, ho, rfl⟩
    simp only [Config.enter] at hstop
    split at hstop
    · exact .inl (hp ▸ (by simpa [Config.line] using hstop))
    · exact .inl (hp ▸ (by simpa [Config.line] using hstop))
    · exact .inl (hp ▸ (by simpa [Config.line] using hstop))
    · exact hwaits hstop
    · exact hwaits hstop
  have hstart := Config.starts s e
  generalize Config.start s e = c at hstart hstop
  have hidle {os : List Order} (hstop : stop ∈ os ++ waiting []) : stop ∈ os := by
    simpa only [waiting_nil, List.append_nil] using hstop
  cases hstart with
  | @newOrder e => exact henter { s with sequence := s.sequence + 1 } rfl rfl hstop
  | @replaced e h =>
    exact henter { s with sequence := s.sequence + 1
                          book := cancelOrder s.book e.oldOrderId } rfl
      (by simp [handed, h]) hstop
  | stopCancelled => exact .inl (List.mem_of_mem_eraseP (hidle hstop))
  | orderCancelled | cancelRejected | requeued | reduced | unmodified | replaceRejected =>
    exact .inl (hidle hstop)

/-- What is outstanding when an event starts was pending before or is the order it submits. -/
theorem outstanding_start {s : Engine B} {e : OrderEvent} {o : Order}
    (ho : o ∈ (Config.start s e).engine.outstanding (Config.start s e).stack) :
    o ∈ s.outstanding [] ∨
      ∃ x st, handed s e = some x ∧ o = { x.entering with status := st } := by
  have hstart := Config.starts s e
  generalize Config.start s e = c at hstart ho
  have henter (s' : Engine B) {x : Order} (hp : s'.pendingStops = s.pendingStops)
      (hx : handed s e = some x) (ho : o ∈ (Config.enter s' x [] {}).engine.outstanding
        (Config.enter s' x [] {}).stack) : o ∈ s.outstanding [] ∨
      ∃ x st, handed s e = some x ∧ o = { x.entering with status := st } := by
    obtain ⟨st, hperm⟩ := outstanding_enter s' x [] {}
    rcases List.mem_cons.mp (hperm.mem_iff.mp ho) with rfl | ho
    · exact .inr ⟨x, st, hx, rfl⟩
    · rw [Engine.outstanding, hp] at ho
      exact .inl ho
  cases hstart with
  | @newOrder e =>
    exact henter { s with sequence := s.sequence + 1 } rfl rfl ho
  | @replaced e h =>
    exact henter { s with sequence := s.sequence + 1
                          book := cancelOrder s.book e.oldOrderId } rfl
      (by simp [handed, h]) ho
  | stopCancelled => exact .inl ((List.eraseP_sublist.map Order.converted).subset ho)
  | orderCancelled | cancelRejected | requeued | reduced | unmodified | replaceRejected =>
    exact .inl ho

end Outstanding

/-! ### Orders of the book -/

/-- A settled order comes to rest only if it is a limit order or an iceberg. -/
theorem mem_settle {s : Engine ReferenceBook} {a o : Order}
    (h : o ∈ (Config.settle s a).book.allOrders) :
    o ∈ s.book.allOrders ∨ o = a ∧ (a.type = .limit ∨ a.type = .iceberg) := by
  unfold Config.settle at h
  split at h
  · next ht =>
    split at h
    · rcases ReferenceBook.mem_insertOrder.mp h with rfl | h
      · exact .inr ⟨rfl, .inl ht⟩
      · exact .inl h
    · exact .inl h
  · next ht =>
    split at h
    · rcases ReferenceBook.mem_insertOrder.mp h with rfl | h
      · exact .inr ⟨rfl, .inr ht⟩
      · exact .inl h
    · exact .inl h
  · exact .inl h

/-- An order that rests after a move rested or was outstanding before. -/
theorem Config.Moves.resting {c d : Config ReferenceBook} (h : Config.Moves c d)
    (hd : c.engine.book.Distinct) {o : Order} (ho : o ∈ d.engine.book.allOrders) :
    ∃ x, (x ∈ c.engine.book.allOrders ∨ x ∈ c.engine.outstanding c.stack) ∧ o.Descends x := by
  cases h with
  | @filled s a K r =>
    rcases mem_settle ho with ho | ⟨rfl, -⟩
    · exact ⟨o, .inl ho, .refl o⟩
    · exact ⟨a, .inr List.mem_cons_self, markFilled_descends a⟩
  | uncrossed =>
    rcases mem_settle ho with ho | ⟨rfl, -⟩
    · exact ⟨o, .inl ho, .refl o⟩
    · exact ⟨o, .inr List.mem_cons_self, .refl o⟩
  | unopposed =>
    rcases mem_settle ho with ho | ⟨rfl, -⟩
    · exact ⟨o, .inl ho, .refl o⟩
    · exact ⟨o, .inr List.mem_cons_self, .refl o⟩
  | exhausted => exact ⟨o, .inl ho, .refl o⟩
  | @fill s a passive K r p key book book' q _ _ _ hp _ hs =>
    obtain ⟨rfl, rfl, ⟨rest, hrest⟩, -⟩ := hd.of_pickPassive hp
    have hmem := (ReferenceBook.mem_of_head hrest).1
    rw [evaluate_book] at ho
    obtain ⟨x, hx, hox⟩ := (hd.filled hmem hs).descends hmem ho
    exact ⟨x, .inl hx, hox⟩
  | evaluated | triggered | kept => exact ⟨o, .inl ho, .refl o⟩

/-- A move trades nothing, or once: the innermost active order with an order of the book, at
a price that its match loop accepts. -/
theorem Config.Moves.newTrade {c d : Config ReferenceBook} (h : Config.Moves c d)
    (hd : c.engine.book.Distinct) : d.result.trades = c.result.trades ∨
      ∃ s a K r passive q, c = ⟨s, .matching a :: K, r⟩ ∧ passive ∈ s.book.allOrders ∧
        passive.side = a.side.opposite ∧ Config.trades a passive.price = true ∧
        d.result.trades = r.trades ++ [fillTrade a passive q] := by
  cases h with
  | @fill s a passive K r p key book book' q _ hb ht hp =>
    obtain ⟨-, -, ⟨rest, hrest⟩, hbest⟩ := hd.of_pickPassive hp
    obtain rfl := Option.some.inj (hb.symm.trans hbest)
    obtain ⟨hmem, hside⟩ := ReferenceBook.mem_of_head hrest
    refine .inr ⟨s, a, K, r, passive, q, rfl, hmem, hside, ht, ?_⟩
    rw [evaluate_result]
    rfl
  | filled | uncrossed | unopposed | exhausted | evaluated | triggered | kept => exact .inl rfl

end LobEngine
