import LobEngine.Engine.Adequacy

/-!
# Events and runs

`Submits` is one call of `submit` that returns, given enough fuel; it holds exactly where
the machine halts. `Run` is a stream of events given to a new engine.
-/

namespace LobEngine

open BookOps Engine Stepper

variable {B : Type} [BookOps B]

/-- `submit` follows the machine. -/
private theorem submit_follows (fuel : Nat) (s : Engine B) (e : OrderEvent) :
    Follows fuel 4 0 (.start s e) (fun _ ↦ True) (fun a ↦ ⟨a.1, [], a.2⟩) (s.submit fuel e) := by
  have hnew := (adequate (B := B) fuel).newOrder
  cases e with
  | newOrder e =>
    have h := hnew { s with sequence := s.sequence + 1 } e.order [] {}
    simp only [MatchResult.empty_append] at h
    exact h
  | cancelOrder e => exact .pure trivial rfl
  | modifyOrder e => exact .pure trivial rfl
  | replaceOrder e =>
    by_cases hh : hasOrder s.book e.oldOrderId = true
    · have h := hnew { s with book := cancelOrder s.book e.oldOrderId
                              sequence := s.sequence + 1 } e.newOrder [] {}
      simp only [MatchResult.empty_append] at h
      simp only [Config.start, submit, processReplace, hh, ↓reduceIte]
      exact h
    · simp only [Config.start, submit, processReplace, hh]
      exact .pure trivial rfl

/-- A value that a computation yields is its outcome. -/
theorem eq_ok_of_toOption {ε α : Type} {x : Except ε α} {a : α} (h : a ∈ x.toOption) :
    x = .ok a := by
  cases x with
  | error f => exact absurd h (by simp [Except.toOption])
  | ok b => exact congrArg Except.ok (Option.some.inj h)

/-- One event, accepted by `submit` with some fuel. -/
def Submits (s : Engine B) (e : OrderEvent) (s' : Engine B) (r : MatchResult) : Prop :=
  ∃ fuel, s.submit fuel e = .ok (s', r)

/-- Where the machine halts, `submit` returns what the machine computed. -/
theorem submit_of_halts {s : Engine B} {e : OrderEvent} {n : Nat} {c : Config B}
    (h : Halts Config.step n (.start s e) c) {fuel : Nat} (hf : 8 * n + 4 < fuel) :
    s.submit fuel e = .ok (c.engine, c.result) := by
  have hfollow := submit_follows fuel s e
  cases hout : s.submit fuel e with
  | ok a =>
    rw [hout] at hfollow
    obtain ⟨-, m, -, hs⟩ := hfollow
    have hc := h.unique (c := ⟨a.1, [], a.2⟩) ⟨hs, rfl⟩
    rw [hc]
  | error f =>
    rw [hout] at hfollow
    cases f with
    | outOfFuel =>
      obtain ⟨m, d, hs, hm⟩ := hfollow
      have := hs.le_of_halts h
      omega
    | emptyLevel =>
      obtain ⟨m, d, hs, he⟩ := hfollow
      exact (hs.not_error_of_halts h he).elim
    | missingOrder =>
      obtain ⟨m, d, hs, he⟩ := hfollow
      exact (hs.not_error_of_halts h he).elim

/-- Where the machine halts, `submit` meets no fault but too little fuel. -/
private theorem submit_error_of_halts {s : Engine B} {e : OrderEvent} {n : Nat} {c : Config B}
    (h : Halts Config.step n (.start s e) c) {fuel : Nat} {f : Fault}
    (hf : s.submit fuel e = .error f) : f = .outOfFuel := by
  have hfollow := submit_follows fuel s e
  rw [hf] at hfollow
  cases f with
  | outOfFuel => rfl
  | emptyLevel =>
    obtain ⟨m, d, hs, he⟩ := hfollow
    exact (hs.not_error_of_halts h he).elim
  | missingOrder =>
    obtain ⟨m, d, hs, he⟩ := hfollow
    exact (hs.not_error_of_halts h he).elim

/-- An event is accepted exactly where the machine halts. -/
theorem submits_iff {s s' : Engine B} {e : OrderEvent} {r : MatchResult} :
    Submits s e s' r ↔ ∃ n, Halts Config.step n (.start s e) ⟨s', [], r⟩ := by
  constructor
  · rintro ⟨fuel, h⟩
    have hfollow := submit_follows fuel s e
    rw [h] at hfollow
    obtain ⟨-, n, -, hs⟩ := hfollow
    exact ⟨n, hs, rfl⟩
  · rintro ⟨n, h⟩
    exact ⟨8 * n + 5, submit_of_halts h (by omega)⟩

namespace Submits

variable {s s' s'' : Engine B} {e : OrderEvent} {r r' : MatchResult}

/-- The outcome of an event does not depend on the fuel. -/
theorem unique (h : Submits s e s' r) (h' : Submits s e s'' r') : s' = s'' ∧ r = r' := by
  obtain ⟨n, hn⟩ := submits_iff.mp h
  obtain ⟨m, hm⟩ := submits_iff.mp h'
  have hc := hn.unique hm
  simp only [Config.mk.injEq, true_and] at hc
  exact hc

/-- All larger amounts of fuel give the outcome. -/
theorem eventually (h : Submits s e s' r) :
    ∃ N, ∀ fuel, N < fuel → s.submit fuel e = .ok (s', r) := by
  obtain ⟨n, hn⟩ := submits_iff.mp h
  exact ⟨8 * n + 4, fun _ hf ↦ submit_of_halts hn hf⟩

/-- Where an event is accepted, no amount of fuel leads to a fault other than too little. -/
theorem error (h : Submits s e s' r) {fuel : Nat} {f : Fault} (hf : s.submit fuel e = .error f) :
    f = .outOfFuel := by
  obtain ⟨n, hn⟩ := submits_iff.mp h
  exact submit_error_of_halts hn hf

theorem of_toOption {fuel : Nat} {a : Engine B × MatchResult}
    (h : a ∈ (s.submit fuel e).toOption) : Submits s e a.1 a.2 :=
  ⟨fuel, eq_ok_of_toOption h⟩

/-- An event that some fuel suffices for is accepted. -/
theorem exists_of_submit (s : Engine B) (e : OrderEvent) (fuel : Nat)
    (P : Engine B → MatchResult → Prop) [∀ s r, Decidable (P s r)]
    (h : (s.submit fuel e).toOption.any (fun a ↦ decide (P a.1 a.2)) = true) :
    ∃ s' r, Submits s e s' r ∧ P s' r := by
  obtain ⟨⟨s', r⟩, ha, hprop⟩ := Option.any_eq_true _ _ |>.mp h
  exact ⟨s', r, of_toOption ha, of_decide_eq_true hprop⟩

/-- An event that starts no loop ends where it starts. -/
theorem of_idle (h : Submits s e s' r) (hidle : (Config.start s e).stack = []) :
    Config.start s e = ⟨s', [], r⟩ := by
  obtain ⟨n, hn⟩ := submits_iff.mp h
  exact Halts.unique (m := 0) ⟨.refl _, Config.step_halt.mpr hidle⟩ hn

/-- What holds when an event starts and is preserved by every step holds when it ends. -/
theorem preserves {P : Config B → Prop}
    (hP : ∀ c d, P c → c.step = .ok (some d) → P d) (h : Submits s e s' r)
    (h₀ : P (.start s e)) : P ⟨s', [], r⟩ := by
  obtain ⟨n, hn⟩ := submits_iff.mp h
  exact hn.1.preserves hP h₀

end Submits

/-- The order an event submits. -/
def OrderEvent.orders : OrderEvent → List Order
  | .newOrder e => [e.order]
  | .replaceOrder e => [e.newOrder]
  | .cancelOrder _ | .modifyOrder _ => []

/-- The orders a stream submits, first to last. -/
def submittedOrders (es : List OrderEvent) : List Order := es.flatMap OrderEvent.orders

/-- The identifiers a stream submits, first to last. -/
def submittedIds (es : List OrderEvent) : List OrderId := (submittedOrders es).map Order.id

/-- Every submitted order carries an identifier that no earlier submission used. -/
def Fresh (es : List OrderEvent) : Prop := (submittedIds es).Nodup

/-- A stream of events given to a new engine, every event allowed by `Ok` when it arrives:
the engine reached and the results returned. -/
inductive Run (Ok : Engine B → OrderEvent → Prop) :
    List OrderEvent → Engine B → List MatchResult → Prop
  | nil : Run Ok [] init []
  | snoc {es : List OrderEvent} {e : OrderEvent} {s s' : Engine B} {rs : List MatchResult}
      {r : MatchResult} : Run Ok es s rs → Ok s e → Submits s e s' r →
      Run Ok (es ++ [e]) s' (rs ++ [r])

/-- A stream of events given to an engine in the state `s`, every event allowed by `Ok` when it
arrives: the engine reached and the results returned. -/
inductive Continues (Ok : Engine B → OrderEvent → Prop) (s : Engine B) :
    List OrderEvent → Engine B → List MatchResult → Prop
  | nil : Continues Ok s [] s []
  | snoc {es : List OrderEvent} {e : OrderEvent} {s' s'' : Engine B} {rs : List MatchResult}
      {r : MatchResult} : Continues Ok s es s' rs → Ok s' e → Submits s' e s'' r →
      Continues Ok s (es ++ [e]) s'' (rs ++ [r])

/-- Any event in any state. -/
abbrev Anything {B : Type} : Engine B → OrderEvent → Prop := fun _ _ ↦ True

/-- A modify that neither changes the price of an order nor raises its quantity. -/
def KeepsPlace (s : Engine B) : OrderEvent → Prop
  | .modifyOrder e => ∀ order, findOrder s.book e.orderId = some order → requeues e order = false
  | _ => True

instance (s : Engine B) (e : OrderEvent) : Decidable (KeepsPlace s e) :=
  match e with
  | .modifyOrder e =>
    decidable_of_iff ((findOrder s.book e.orderId).all (requeues e · == false) = true) (by
      rw [Option.all_eq_true]
      simp only [beq_iff_eq]
      rfl)
  | .newOrder _ | .cancelOrder _ | .replaceOrder _ => .isTrue trivial

instance (es : List OrderEvent) : Decidable (Fresh es) :=
  inferInstanceAs (Decidable (submittedIds es).Nodup)

/-- Submit a stream, with `fuel` for every event, as long as `ok` allows the next one. -/
def play (ok : Engine B → OrderEvent → Bool) (fuel : Nat) :
    List OrderEvent → Engine B → Option (Engine B × List MatchResult)
  | [], s => some (s, [])
  | e :: es, s =>
    if ok s e then
      match s.submit fuel e with
      | .error _ => none
      | .ok (s, r) => (play ok fuel es s).map fun (s, rs) ↦ (s, r :: rs)
    else none

@[simp] theorem submittedOrders_append (es fs : List OrderEvent) :
    submittedOrders (es ++ fs) = submittedOrders es ++ submittedOrders fs := List.flatMap_append

@[simp] theorem submittedOrders_singleton (e : OrderEvent) : submittedOrders [e] = e.orders :=
  List.flatMap_singleton _ e

@[simp] theorem submittedIds_append (es fs : List OrderEvent) :
    submittedIds (es ++ fs) = submittedIds es ++ submittedIds fs := by
  simp [submittedIds]

@[simp] theorem submittedIds_singleton (e : OrderEvent) :
    submittedIds [e] = e.orders.map Order.id := by
  simp [submittedIds]

/-- A prefix of a fresh stream is fresh. -/
theorem Fresh.left {es fs : List OrderEvent} (h : Fresh (es ++ fs)) : Fresh es := by
  rw [Fresh, submittedIds_append] at h
  exact (List.nodup_append.mp h).1

/-- What the last event of a fresh stream submits was not submitted before. -/
theorem Fresh.not_mem {es : List OrderEvent} {e : OrderEvent} (h : Fresh (es ++ [e]))
    {id : OrderId} (hid : id ∈ e.orders.map Order.id) : id ∉ submittedIds es := by
  rw [Fresh, submittedIds_append, submittedIds_singleton] at h
  intro hmem
  exact (List.nodup_append.mp h).2.2 id hmem id hid rfl

namespace Run

variable {Ok Ok' : Engine B → OrderEvent → Prop} {es : List OrderEvent} {s : Engine B}
  {rs : List MatchResult}

theorem mono (hOk : ∀ s e, Ok s e → Ok' s e) (h : Run Ok es s rs) : Run Ok' es s rs := by
  induction h with
  | nil => exact .nil
  | snoc _ hok hs ih => exact .snoc ih (hOk _ _ hok) hs

/-- The stream determines the run. -/
theorem unique {s' : Engine B} {rs' : List MatchResult} (h : Run Ok es s rs)
    (h' : Run Ok' es s' rs') : s = s' ∧ rs = rs' := by
  induction h generalizing s' rs' with
  | nil =>
    generalize hnil : ([] : List OrderEvent) = fs at h'
    cases h' with
    | nil => exact ⟨rfl, rfl⟩
    | snoc => exact absurd hnil (by simp)
  | @snoc es e s s₁ rs r hrun _ hs ih =>
    generalize hsnoc : es ++ [e] = fs at h'
    cases h' with
    | nil => exact absurd hsnoc (by simp)
    | snoc hrun' _ hs' =>
      obtain ⟨rfl, he⟩ := List.append_inj' hsnoc rfl
      obtain rfl := List.singleton_inj.mp he
      obtain ⟨rfl, rfl⟩ := ih hrun'
      obtain ⟨rfl, rfl⟩ := hs.unique hs'
      exact ⟨rfl, rfl⟩

/-- A run is a run of the first part of its stream, continued by the rest. -/
theorem split {es₁ es₂ : List OrderEvent} (h : Run Ok (es₁ ++ es₂) s rs) :
    ∃ s₁ rs₁ rs₂, Run Ok es₁ s₁ rs₁ ∧ Continues Ok s₁ es₂ s rs₂ ∧ rs = rs₁ ++ rs₂ := by
  induction es₂ using List.reverseRecOn generalizing s rs with
  | nil =>
    rw [List.append_nil] at h
    exact ⟨s, rs, [], h, .nil, (List.append_nil rs).symm⟩
  | append_singleton es₂ e ih =>
    rw [← List.append_assoc] at h
    generalize hes : es₁ ++ es₂ ++ [e] = es at h
    cases h with
    | nil => exact absurd hes (by simp)
    | @snoc es e' s₀ s' rs r hrun hok hs =>
      obtain ⟨rfl, he⟩ := List.append_inj' hes rfl
      obtain rfl := List.singleton_inj.mp he
      obtain ⟨s₁, rs₁, rs₂, h₁, h₂, rfl⟩ := ih hrun
      exact ⟨s₁, rs₁, rs₂ ++ [r], h₁, h₂.snoc hok hs, List.append_assoc _ _ _⟩

/-- There is one result for each event. -/
theorem length (h : Run Ok es s rs) : rs.length = es.length := by
  induction h with
  | nil => rfl
  | snoc _ _ _ ih => rw [List.length_append, List.length_append, ih, List.length_singleton,
      List.length_singleton]

/-- The last event of a run. -/
theorem last {e : OrderEvent} {r : MatchResult} (h : Run Ok (es ++ [e]) s (rs ++ [r])) :
    ∃ s₁, Run Ok es s₁ rs ∧ Ok s₁ e ∧ Submits s₁ e s r := by
  generalize hes : es ++ [e] = fs at h
  generalize hrs : rs ++ [r] = qs at h
  cases h with
  | nil => exact absurd hes (by simp)
  | @snoc _ _ s₁ _ _ _ hrun hok hs =>
    obtain ⟨rfl, he⟩ := List.append_inj' hes rfl
    obtain ⟨rfl, hr⟩ := List.append_inj' hrs rfl
    obtain rfl := List.singleton_inj.mp he
    obtain rfl := List.singleton_inj.mp hr
    exact ⟨s₁, hrun, hok, hs⟩

/-- The first and the second part of a run, with their results. -/
theorem split_at {es' : List OrderEvent} {rs' : List MatchResult}
    (h : Run Ok (es ++ es') s (rs ++ rs')) (hl : rs.length = es.length) :
    ∃ s₁, Run Ok es s₁ rs ∧ Continues Ok s₁ es' s rs' := by
  obtain ⟨s₁, rs₁, rs₂, h₁, h₂, hrs⟩ := h.split
  obtain ⟨rfl, rfl⟩ := List.append_inj hrs (hl.trans h₁.length.symm)
  exact ⟨s₁, h₁, h₂⟩

/-- A run and its continuation are one run. -/
theorem append {es' : List OrderEvent} {s' : Engine B} {rs' : List MatchResult}
    (h : Run Ok es s rs) (hc : Continues Ok s es' s' rs') : Run Ok (es ++ es') s' (rs ++ rs') := by
  induction hc with
  | nil => simpa only [List.append_nil] using h
  | snoc _ hok hs ih =>
    rw [← List.append_assoc, ← List.append_assoc]
    exact ih.snoc hok hs

/-- Playing a stream continues a run. -/
theorem play {ok : Engine B → OrderEvent → Bool} (hok : ∀ s e, ok s e = true → Ok s e)
    {fuel : Nat} {fs : List OrderEvent} {s' : Engine B} {rs' : List MatchResult}
    (h : Run Ok es s rs) (hp : play ok fuel fs s = some (s', rs')) :
    Run Ok (es ++ fs) s' (rs ++ rs') := by
  induction fs generalizing es s rs rs' with
  | nil =>
    obtain ⟨rfl, rfl⟩ := Prod.mk.inj (Option.some.inj hp)
    simpa only [List.append_nil] using h
  | cons e fs ih =>
    rw [LobEngine.play] at hp
    split at hp
    · next he =>
      split at hp
      · exact absurd hp (by simp)
      · next s₁ r hs =>
        obtain ⟨⟨s₂, rs₂⟩, hp', heq⟩ := Option.map_eq_some_iff.mp hp
        obtain ⟨rfl, rfl⟩ := Prod.mk.inj heq
        have hrun := ih (h.snoc (hok s e he) ⟨fuel, hs⟩) hp'
        simpa only [List.append_assoc, List.singleton_append] using hrun
    · exact absurd hp (by simp)

/-- A played stream is a run. -/
theorem exists_of_play (Ok : Engine B → OrderEvent → Prop) [∀ s e, Decidable (Ok s e)]
    (fuel : Nat) (fs : List OrderEvent) (P : Engine B → List MatchResult → Prop)
    [∀ s rs, Decidable (P s rs)]
    (h : (LobEngine.play (fun s e ↦ decide (Ok s e)) fuel fs init).any
      (fun a ↦ decide (P a.1 a.2)) = true) : ∃ s rs, Run Ok fs s rs ∧ P s rs := by
  obtain ⟨⟨s, rs⟩, hp, hprop⟩ := Option.any_eq_true _ _ |>.mp h
  exact ⟨s, rs, Run.nil.play (fun _ _ ↦ of_decide_eq_true) hp, of_decide_eq_true hprop⟩

end Run

/-- A stream is played part by part. -/
private theorem play_append (ok : Engine B → OrderEvent → Bool) (fuel : Nat)
    (es fs : List OrderEvent)
    (s : Engine B) : play ok fuel (es ++ fs) s = (play ok fuel es s).bind fun out ↦
      (play ok fuel fs out.1).map fun out' ↦ (out'.1, out.2 ++ out'.2) := by
  induction es generalizing s with
  | nil => simp [play]
  | cons e es ih =>
    rw [List.cons_append, play, play]
    split
    · split
      · rfl
      · rw [ih, Option.map_bind, Option.bind_map]
        simp only [Option.map_map, Function.comp_def, List.cons_append]
    · rfl

namespace Continues

variable {Ok : Engine B → OrderEvent → Prop} {es : List OrderEvent} {s s' : Engine B}
  {rs : List MatchResult}

/-- A run continues from a new engine. -/
theorem of_run (h : Run Ok es s rs) : Continues Ok init es s rs := by
  induction h with
  | nil => exact .nil
  | snoc _ hok hs ih => exact ih.snoc hok hs

/-- A played stream continues from its engine. -/
theorem of_play {ok : Engine B → OrderEvent → Bool} (hok : ∀ s e, ok s e = true → Ok s e)
    {fuel : Nat} (h : play ok fuel es s = some (s', rs)) : Continues Ok s es s' rs := by
  induction es using List.reverseRecOn generalizing s' rs with
  | nil =>
    obtain ⟨rfl, rfl⟩ := Prod.mk.inj (Option.some.inj h)
    exact .nil
  | append_singleton es e ih =>
    rw [play_append] at h
    obtain ⟨⟨s₁, rs₁⟩, h₁, hlast⟩ := Option.bind_eq_some_iff.mp h
    obtain ⟨⟨s₂, rs₂⟩, h₂, heq⟩ := Option.map_eq_some_iff.mp hlast
    obtain ⟨rfl, rfl⟩ := Prod.mk.inj heq
    rw [play] at h₂
    split at h₂
    · next he =>
      split at h₂
      · exact absurd h₂ (by simp)
      · next s₃ r hs =>
        obtain ⟨rfl, rfl⟩ := Prod.mk.inj (Option.some.inj h₂)
        exact (ih h₁).snoc (hok s₁ e he) ⟨fuel, hs⟩
    · exact absurd h₂ (by simp)

/-- A stream that an engine accepts can be played with enough fuel. -/
theorem eventually (h : Continues Ok s es s' rs) :
    ∃ N, ∀ fuel, N < fuel → play (fun _ _ ↦ true) fuel es s = some (s', rs) := by
  induction h with
  | nil => exact ⟨0, fun _ _ ↦ rfl⟩
  | @snoc es e s₁ s₂ rs r _ _ hs ih =>
    obtain ⟨N, hN⟩ := ih
    obtain ⟨M, hM⟩ := hs.eventually
    refine ⟨max N M, fun fuel hfuel ↦ ?_⟩
    rw [play_append, hN fuel (lt_of_le_of_lt (Nat.le_max_left N M) hfuel), Option.bind_some, play,
      if_pos rfl, hM fuel (lt_of_le_of_lt (Nat.le_max_right N M) hfuel)]
    rfl

end Continues

end LobEngine
