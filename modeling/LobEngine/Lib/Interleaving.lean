import Mathlib.Order.WellFounded

/-!
# Interleaved steps

A system of threads as a partial function: it says what a step of one thread does, and is
undefined where the thread cannot take the step. A path takes steps in any order.
-/

universe u v w

namespace Interleaving

variable {σ : Type u} {α : Type v} {τ : Type w}

/-- The steps lead from `s` to the last state. -/
inductive Path (step : σ → α → Option σ) (s : σ) : List α → σ → Prop
  | nil : Path step s [] s
  | snoc {as : List α} {a : α} {t u : σ} :
      Path step s as t → step t a = some u → Path step s (as ++ [a]) u

/-- Take the steps one after the other. -/
def run (step : σ → α → Option σ) : List α → σ → Option σ
  | [], s => some s
  | a :: as, s => (step s a).bind (run step as)

variable {step : σ → α → Option σ} {s t u : σ} {as bs : List α}

/-- The invariant rule. -/
theorem Path.preserves {P : σ → Prop} (hP : ∀ t a u, P t → step t a = some u → P u)
    (h : Path step s as t) (hs : P s) : P t := by
  induction h with
  | nil => exact hs
  | snoc _ hstep ih => exact hP _ _ _ ih hstep

theorem Path.trans (h : Path step s as t) (h' : Path step t bs u) : Path step s (as ++ bs) u := by
  induction h' with
  | nil => rwa [List.append_nil]
  | snoc _ hstep ih =>
    rw [← List.append_assoc]
    exact ih.snoc hstep

theorem Path.run (h : Path step s as t) (hr : run step bs t = some u) :
    Path step s (as ++ bs) u := by
  induction bs generalizing as t with
  | nil =>
    obtain rfl := Option.some.inj hr
    rwa [List.append_nil]
  | cons b bs ih =>
    obtain ⟨v, hb, hbs⟩ := Option.bind_eq_some_iff.mp hr
    have hrest := ih (h.snoc hb) hbs
    rwa [List.append_assoc] at hrest

/-- A system inside another one: its paths are paths of the larger system. -/
theorem Path.lift {β : Type*} {step' : τ → β → Option τ} (e : σ → τ) (f : α → β)
    (h : Path step s as t) (he : ∀ s a t, step s a = some t → step' (e s) (f a) = some (e t)) :
    Path step' (e s) (as.map f) (e t) := by
  induction h with
  | nil => exact .nil
  | snoc _ hstep ih =>
    rw [List.map_append]
    exact ih.snoc (he _ _ _ hstep)

/-- The progress rule: if in every state short of the goal some step keeps the invariant and
falls in rank, the goal can be reached. -/
theorem exists_path {β : Type*} {below : β → β → Prop} (hwf : WellFounded below) (rank : σ → β)
    (P Q : σ → Prop) (hstep : ∀ s, P s → ¬Q s → ∃ a t, step s a = some t ∧ P t ∧
      below (rank t) (rank s)) (hs : P s) : ∃ as t, Path step s as t ∧ P t ∧ Q t := by
  induction hr : rank s using hwf.induction generalizing s with
  | _ x ih =>
    by_cases hQ : Q s
    · exact ⟨[], s, .nil, hs, hQ⟩
    · obtain ⟨a, t, ha, ht, hlt⟩ := hstep s hs hQ
      rw [hr] at hlt
      obtain ⟨as, u, hpath, hu⟩ := ih (rank t) hlt ht rfl
      exact ⟨[a] ++ as, u, (Path.nil.snoc ha).trans hpath, hu⟩

/-- Pairs that fall in the first number, or keep it and fall in the second one. -/
abbrev Falls : Nat × Nat → Nat × Nat → Prop := Prod.Lex (· < ·) (· < ·)

theorem falls_wf : WellFounded Falls := Nat.lt_wfRel.wf.prod_lex Nat.lt_wfRel.wf

theorem falls_of_eq {a b c d : Nat} (h : a = b) (hlt : c < d) : Falls (a, c) (b, d) := by
  subst h
  exact .right _ hlt

/-- The simulation rule: where every defined step of one system is a step of the other between
related states, so is every defined run. -/
theorem run_simulates {spec : τ → α → Option τ} {R : σ → τ → Prop} {x y : τ}
    (hR : ∀ s x a y, R s x → spec x a = some y → ∃ t, step s a = some t ∧ R t y)
    (h : R s x) (hr : Interleaving.run spec as x = some y) :
    ∃ t, Interleaving.run step as s = some t ∧ R t y := by
  induction as generalizing s x with
  | nil =>
    obtain rfl := Option.some.inj hr
    exact ⟨s, rfl, h⟩
  | cons a as ih =>
    obtain ⟨z, ha, has⟩ := Option.bind_eq_some_iff.mp hr
    obtain ⟨u, hu, hz⟩ := hR s x a z h ha
    obtain ⟨t, ht, hy⟩ := ih hz has
    exact ⟨t, by rw [Interleaving.run, hu, Option.bind_some, ht], hy⟩

end Interleaving
