import LobEngine.Properties.Live
import Mathlib.Data.List.ReduceOption

/-!
# Runs, step by step

A walk follows a run through the loops of the engine: it takes the steps of the machine one by
one, and the next event of the stream when no loop is active. Properties of the whole future of
a step are stated over walks.
-/

namespace LobEngine

open BookOps Engine Stepper

variable {B : Type} [BookOps B]

/-- From `c`, given the events of the stream, the machine takes the steps of the path. -/
inductive Walk (Ok : OrderEvent → Prop) (c : Config B) :
    List OrderEvent → List (Config B × Config B) → Config B → Prop
  | nil : Walk Ok c [] [] c
  | move {es : List OrderEvent} {path : List (Config B × Config B)} {d d' : Config B} :
      Walk Ok c es path d → d.step = .ok (some d') → Walk Ok c es (path ++ [(d, d')]) d'
  | event {es : List OrderEvent} {path : List (Config B × Config B)} {d : Config B}
      {e : OrderEvent} : Walk Ok c es path d → d.stack = [] → Ok e →
      Walk Ok c (es ++ [e]) (path ++ [(d, .start d.engine e)]) (.start d.engine e)

/-- A new engine, before its first event. -/
def Config.init : Config B := ⟨Engine.init, [], {}⟩

/-- The step appends a trade to the result. -/
def Config.Adds (c d : Config B) (t : Trade) : Prop := d.result.trades = c.result.trades ++ [t]

/-- Follow a schedule: the start of each event that it names, and one step for each `none`. -/
def Config.follow : List (Option OrderEvent) → Config B → Option (Config B)
  | [], c => some c
  | some e :: as, c => if c.stack.isEmpty then follow as (.start c.engine e) else none
  | none :: as, c =>
    match c.step with
    | .ok (some d) => follow as d
    | .ok none | .error _ => none

variable {Ok : OrderEvent → Prop} {c d d' : Config B} {es : List OrderEvent}
  {path : List (Config B × Config B)}

/-- A move appends at most one trade. -/
theorem Config.Moves.adds (h : Config.Moves c d) :
    d.result.trades = c.result.trades ∨ ∃ t, c.Adds d t := by
  cases h with
  | @fill s a passive K r p key book book' q =>
    right
    refine ⟨fillTrade a passive q, ?_⟩
    rw [Config.Adds, Config.evaluate]
    split
    · rfl
    · split <;> rfl
  | filled | uncrossed | exhausted | unopposed | evaluated | triggered | kept => exact .inl rfl

theorem Config.step_of_follow (h : c.follow [none] = some d) : c.step = .ok (some d) := by
  rw [Config.follow] at h
  split at h
  · next hstep =>
    rw [hstep, ← Option.some.inj h]
  · exact absurd h (by simp)
  · exact absurd h (by simp)

/-- What follows a schedule is a walk. -/
theorem Walk.follow {as : List (Option OrderEvent)} (h : Walk Ok c es path d)
    (hok : ∀ e ∈ as.reduceOption, Ok e) (hd : d.follow as = some d') :
    ∃ path', Walk Ok c (es ++ as.reduceOption) (path ++ path') d' := by
  induction as generalizing es path d with
  | nil =>
    obtain rfl := Option.some.inj hd
    exact ⟨[], by rwa [List.reduceOption_nil, List.append_nil, List.append_nil]⟩
  | cons a as ih =>
    cases a with
    | none =>
      rw [Config.follow] at hd
      split at hd
      · next hstep =>
        obtain ⟨path', hw⟩ := ih (h.move hstep) hok hd
        exact ⟨_, by rwa [List.append_assoc] at hw⟩
      · exact absurd hd (by simp)
      · exact absurd hd (by simp)
    | some e =>
      rw [List.reduceOption_cons_of_some] at hok ⊢
      rw [Config.follow] at hd
      split at hd
      · next hs =>
        have hw := h.event (List.isEmpty_iff.mp hs) (hok e List.mem_cons_self)
        obtain ⟨path', hw'⟩ := ih hw (fun e he ↦ hok e (List.mem_cons_of_mem _ he)) hd
        rw [List.append_assoc, List.append_assoc] at hw'
        exact ⟨_, hw'⟩
      · exact absurd hd (by simp)

/-- A walk goes on along the steps of the machine; what they trade is appended by one of them. -/
theorem Walk.steps (h : Walk Ok c es path d) {n : Nat} (hs : Steps Config.step n d d') :
    ∃ path', Walk Ok c es (path ++ path') d' ∧
      ∀ t ∈ d'.result.trades, t ∈ d.result.trades ∨ ∃ p ∈ path', p.1.Adds p.2 t := by
  induction hs generalizing path with
  | refl => exact ⟨[], by rwa [List.append_nil], fun t ht ↦ .inl ht⟩
  | @head n d d₁ d' hstep _ ih =>
    obtain ⟨path', hw, htrades⟩ := ih (h.move hstep)
    refine ⟨(d, d₁) :: path', by rwa [List.append_assoc] at hw, fun t ht ↦ ?_⟩
    rcases htrades t ht with ht | ⟨p, hp, hadds⟩
    · rcases (Config.moves_of_step hstep).adds with hsame | ⟨t', hadds⟩
      · exact .inl (hsame ▸ ht)
      · rcases List.mem_append.mp (hadds ▸ ht) with ht | ht
        · exact .inl ht
        · obtain rfl := List.mem_singleton.mp ht
          exact .inr ⟨_, List.mem_cons_self, hadds⟩
    · exact .inr ⟨p, List.mem_cons_of_mem _ hp, hadds⟩

/-- Every run can be walked, and every trade that it returns is appended in one of the steps. -/
theorem Run.walk {s : Engine B} {rs : List MatchResult} (h : Run (fun _ ↦ Ok) es s rs) :
    ∃ path r, Walk Ok .init es path ⟨s, [], r⟩ ∧
      ∀ t ∈ rs.flatMap MatchResult.trades, ∃ p ∈ path, p.1.Adds p.2 t := by
  induction h with
  | nil => exact ⟨[], {}, .nil, fun t ht ↦ absurd ht List.not_mem_nil⟩
  | @snoc es e s s' rs r _ hok hs ih =>
    obtain ⟨path, r₀, hw, htrades⟩ := ih
    obtain ⟨n, hn⟩ := submits_iff.mp hs
    obtain ⟨path', hw', htrades'⟩ := (hw.event rfl hok).steps hn.1
    refine ⟨_, _, hw', fun t ht ↦ ?_⟩
    rw [List.flatMap_append, List.flatMap_singleton] at ht
    rcases List.mem_append.mp ht with ht | ht
    · obtain ⟨p, hp, hadds⟩ := htrades t ht
      exact ⟨p, List.mem_append_left _ (List.mem_append_left _ hp), hadds⟩
    · rcases htrades' t ht with ht | ⟨p, hp, hadds⟩
      · rw [start_trades] at ht
        exact absurd ht List.not_mem_nil
      · exact ⟨p, List.mem_append_right _ hp, hadds⟩

end LobEngine
