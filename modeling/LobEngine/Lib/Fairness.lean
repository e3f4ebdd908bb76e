import LobEngine.Lib.Interleaving

/-!
# Fair executions

An execution goes on for ever: in each moment one thread takes a step, or nothing happens. It is
fair to a thread that again and again takes a step or cannot take one. Such a thread gets to its
goal if its own steps bring a rank down and those of the others leave the rank alone.
-/

universe u v w

namespace Interleaving

variable {σ : Type u} {α : Type v} {β : Type w} {step : σ → α → Option σ} {mine : α → Prop}
  {st : ℕ → σ}

/-- In each moment a thread takes a step, or nothing happens. -/
def Execution (step : σ → α → Option σ) (st : ℕ → σ) : Prop :=
  ∀ n, st (n + 1) = st n ∨ ∃ a, step (st n) a = some (st (n + 1))

/-- The thread whose steps are `mine` takes a step again and again, or cannot take one. -/
def WeaklyFair (step : σ → α → Option σ) (mine : α → Prop) (st : ℕ → σ) : Prop :=
  ∀ n, ∃ m, n ≤ m ∧
    ((∃ a, mine a ∧ step (st m) a = some (st (m + 1))) ∨ ∀ a, mine a → step (st m) a = none)

/-- After every moment in which `P` holds there is one in which `Q` does. -/
def LeadsTo (st : ℕ → σ) (P Q : σ → Prop) : Prop := ∀ n, P (st n) → ∃ m, n ≤ m ∧ Q (st m)

/-- What steps keep, given what holds all along, holds from then on. -/
theorem Execution.preserves_of {I P : σ → Prop} (h : Execution step st) (hI : ∀ n, I (st n))
    (hP : ∀ s a t, I s → P s → step s a = some t → P t) {m n : ℕ} (hmn : m ≤ n)
    (hm : P (st m)) : P (st n) := by
  induction hmn with
  | refl => exact hm
  | @step n _ ih =>
    rcases h n with hstill | ⟨a, ha⟩
    · rw [hstill]
      exact ih
    · exact hP _ a _ (hI n) ih ha

/-- What steps keep holds from then on. -/
theorem Execution.preserves {P : σ → Prop} (h : Execution step st)
    (hP : ∀ s a t, P s → step s a = some t → P t) {m n : ℕ} (hmn : m ≤ n) (hm : P (st m)) :
    P (st n) :=
  h.preserves_of (I := fun _ ↦ True) (fun _ ↦ trivial) (fun s a t _ ↦ hP s a t) hmn hm

/-- The progress rule: from `P` on, as long as the goal is not reached, the thread can take a
step, its steps bring the rank down, and those of the others do so or leave the rank alone. -/
theorem WeaklyFair.leadsTo {below : β → β → Prop} (hwf : WellFounded below) (rank : σ → β)
    {I P Q : σ → Prop} (hfair : WeaklyFair step mine st) (hexec : Execution step st)
    (hI : ∀ n, I (st n)) (hkeep : ∀ s a t, I s → P s → step s a = some t → P t)
    (hcan : ∀ s, I s → P s → ¬Q s → ∃ a, mine a ∧ (step s a).isSome)
    (hfall : ∀ s a t, I s → P s → ¬Q s → step s a = some t →
      below (rank t) (rank s) ∨ rank t = rank s ∧ ¬mine a) : LeadsTo st P Q := by
  intro n hn
  induction hr : rank (st n) using hwf.induction generalizing n with
  | _ x ih =>
    by_contra hnever
    have hnot (m : ℕ) (hnm : n ≤ m) : ¬Q (st m) := fun hm ↦ hnever ⟨m, hnm, hm⟩
    have hP (d : ℕ) : P (st (n + d)) := hexec.preserves_of hI hkeep (Nat.le_add_right n d) hn
    -- once the rank has fallen the goal is reached
    have hhigh (d : ℕ) : ¬below (rank (st (n + d))) x := by
      intro hlow
      obtain ⟨m, hdm, hm⟩ := ih _ hlow (n + d) (hP d) rfl
      exact hnot m ((Nat.le_add_right n d).trans hdm) hm
    have hsame (d : ℕ) : rank (st (n + d)) = x := by
      induction d with
      | zero => exact hr
      | succ d ihd =>
        rcases hexec (n + d) with hstill | ⟨a, ha⟩
        · rw [← Nat.add_assoc, hstill]
          exact ihd
        · rcases hfall _ a _ (hI _) (hP d) (hnot _ (Nat.le_add_right n d)) ha with hlow | ⟨heq, -⟩
          · rw [ihd] at hlow
            exact absurd hlow (hhigh (d + 1))
          · exact heq.trans ihd
    obtain ⟨m, hnm, hm⟩ := hfair n
    obtain ⟨d, rfl⟩ := Nat.exists_eq_add_of_le hnm
    have hgoal := hnot _ hnm
    rcases hm with ⟨a, hmine, ha⟩ | hstuck
    · rcases hfall _ a _ (hI _) (hP d) hgoal ha with hlow | ⟨-, hother⟩
      · rw [hsame d] at hlow
        exact hhigh (d + 1) hlow
      · exact hother hmine
    · obtain ⟨a, hmine, ha⟩ := hcan _ (hI _) (hP d) hgoal
      rw [hstuck a hmine] at ha
      exact absurd ha (by simp)

/-- A run to a state in which no thread can move goes on as a fair execution. -/
theorem exists_execution {as : List α} {s t : σ} (hr : run step as s = some t)
    (hend : ∀ a, step t a = none) :
    ∃ st : ℕ → σ, st 0 = s ∧ (∀ n, as.length ≤ n → st n = t) ∧ Execution step st ∧
      ∀ mine, WeaklyFair step mine st := by
  suffices h : ∃ st : ℕ → σ, st 0 = s ∧ (∀ n, as.length ≤ n → st n = t) ∧ Execution step st by
    obtain ⟨st, hfirst, hlast, hexec⟩ := h
    refine ⟨st, hfirst, hlast, hexec, fun mine n ↦ ?_⟩
    refine ⟨n + as.length, Nat.le_add_right _ _, .inr fun a _ ↦ ?_⟩
    rw [hlast _ (Nat.le_add_left _ _)]
    exact hend a
  induction as generalizing s with
  | nil =>
    obtain rfl := Option.some.inj hr
    exact ⟨fun _ ↦ s, rfl, fun _ _ ↦ rfl, fun _ ↦ .inl rfl⟩
  | cons a as ih =>
    obtain ⟨u, ha, has⟩ := Option.bind_eq_some_iff.mp hr
    obtain ⟨st, hfirst, hlast, hexec⟩ := ih has
    refine ⟨fun n ↦ n.casesOn s st, rfl, ?_, ?_⟩
    · intro n hn
      cases n with
      | zero => exact absurd hn (by simp)
      | succ n => exact hlast n (Nat.le_of_succ_le_succ hn)
    · intro n
      cases n with
      | zero =>
        refine .inr ⟨a, ?_⟩
        show step s a = some (st 0)
        rw [hfirst]
        exact ha
      | succ n => exact hexec n

end Interleaving
