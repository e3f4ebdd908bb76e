import Mathlib.Logic.Relation

/-!
# Deterministic machines

A machine is a step function that moves on, halts or faults. Exact-length paths,
the invariant rule, lockstep simulation between two machines, and termination from
a rank that falls on every step taken inside an invariant.
-/

namespace Stepper

universe u v w

variable {σ : Type u} {τ : Type v} {ε : Type w}

/-- One step: `.ok (some b)` moves to `b`, `.ok none` halts, `.error e` faults. -/
abbrev Machine (ε : Type w) (σ : Type u) := σ → Except ε (Option σ)

/-- `Steps M n a b`: exactly `n` moves lead from `a` to `b`. -/
inductive Steps (M : Machine ε σ) : Nat → σ → σ → Prop
  | refl (a : σ) : Steps M 0 a a
  | head {n : Nat} {a b c : σ} : M a = .ok (some b) → Steps M n b c → Steps M (n + 1) a c

/-- `Halts M n a b`: the machine started in `a` stops in `b` after `n` moves. -/
def Halts (M : Machine ε σ) (n : Nat) (a b : σ) : Prop := Steps M n a b ∧ M b = .ok none

namespace Steps

variable {M : Machine ε σ} {N : Machine ε τ} {m n : Nat} {a b c : σ}

theorem single (h : M a = .ok (some b)) : Steps M 1 a b := head h (refl b)

theorem trans (h₁ : Steps M m a b) (h₂ : Steps M n b c) : Steps M (m + n) a c := by
  induction h₁ with
  | refl a => rwa [Nat.zero_add]
  | head hstep _ ih =>
    rw [Nat.add_right_comm]
    exact head hstep (ih h₂)

/-- The invariant rule: what every move preserves holds along every path. -/
theorem preserves {P : σ → Prop} (hP : ∀ a b, P a → M a = .ok (some b) → P b)
    (h : Steps M n a b) (ha : P a) : P b := by
  induction h with
  | refl a => exact ha
  | head hstep _ ih => exact ih (hP _ _ ha hstep)

/-- Amortised cost: where a move that lets `debt` rise or stay is paid for by a rise of `paid`, a
path is no longer than what is paid on it and the fall of `debt`. -/
theorem amortised {P : σ → Prop} {debt paid : σ → Nat}
    (hP : ∀ a b, P a → M a = .ok (some b) → P b)
    (hM : ∀ a b, P a → M a = .ok (some b) → 1 + debt b + paid a ≤ debt a + paid b)
    (h : Steps M n a b) (ha : P a) : n + debt b + paid a ≤ debt a + paid b := by
  induction h with
  | refl a => omega
  | @head n a c b hstep _ ih =>
    have hrest := ih (hP _ _ ha hstep)
    have hmove := hM _ _ ha hstep
    omega

/-- Paths from one state are prefixes of one another. -/
theorem split (h₁ : Steps M m a b) (h₂ : Steps M n a c) (hmn : m ≤ n) :
    Steps M (n - m) b c := by
  induction h₁ generalizing n with
  | refl a => exact h₂
  | head hstep _ ih =>
    cases h₂ with
    | refl => omega
    | head hstep' htail =>
      obtain rfl : _ = _ := Option.some.inj (Except.ok.inj (hstep.symm.trans hstep'))
      rw [Nat.succ_sub_succ]
      exact ih htail (by omega)

/-- No path is longer than the one that halts. -/
theorem le_of_halts (h : Steps M m a b) (hh : Halts M n a c) : m ≤ n := by
  apply Nat.le_of_not_lt
  intro hlt
  have hrest := hh.1.split h (by omega)
  obtain ⟨k, hk⟩ : ∃ k, m - n = k + 1 := ⟨m - n - 1, by omega⟩
  rw [hk] at hrest
  cases hrest with
  | head hstep _ =>
    rw [hh.2] at hstep
    exact absurd (Except.ok.inj hstep) (by simp)

/-- A fault cannot be reached where the machine halts. -/
theorem not_error_of_halts {e : ε} (h : Steps M m a b) (hh : Halts M n a c)
    (he : M b = .error e) : False := by
  have hle := h.le_of_halts hh
  have hrest := h.split hh.1 hle
  generalize n - m = k at hrest
  cases hrest with
  | refl => exact absurd (he.symm.trans hh.2) (by simp)
  | head hstep _ => exact absurd (he.symm.trans hstep) (by simp)

end Steps

namespace Halts

variable {M : Machine ε σ} {m n : Nat} {a b c : σ}

/-- The halting state is unique. -/
theorem unique (h₁ : Halts M m a b) (h₂ : Halts M n a c) : b = c := by
  have hle₁ := h₁.1.le_of_halts h₂
  have hle₂ := h₂.1.le_of_halts h₁
  have hrest := h₁.1.split h₂.1 hle₁
  rw [Nat.sub_eq_zero_of_le hle₂] at hrest
  cases hrest
  rfl

/-- Prefix a path to a halting run. -/
theorem of_steps (h₁ : Steps M m a b) (h₂ : Halts M n b c) : Halts M (m + n) a c :=
  ⟨h₁.trans h₂.1, h₂.2⟩

end Halts

/-- Inside `P`, every state either halts or moves to a smaller rank inside `P`. -/
structure Ranked {ρ : Type v} (lt : ρ → ρ → Prop) (M : Machine ε σ) (P : σ → Prop)
    (rank : σ → ρ) : Prop where
  safe : ∀ a e, P a → M a ≠ .error e
  preserves : ∀ a b, P a → M a = .ok (some b) → P b
  falls : ∀ a b, P a → M a = .ok (some b) → lt (rank b) (rank a)

/-- A ranked machine halts, inside the invariant. -/
theorem Ranked.halts {ρ : Type v} {lt : ρ → ρ → Prop} {M : Machine ε σ} {P : σ → Prop}
    {rank : σ → ρ} (h : Ranked lt M P rank) (wf : WellFounded lt) (a : σ) (ha : P a) :
    ∃ n b, Halts M n a b ∧ P b := by
  induction hr : rank a using wf.induction generalizing a with
  | _ r ih =>
    cases hstep : M a with
    | error e => exact absurd hstep (h.safe a e ha)
    | ok next =>
      cases next with
      | none => exact ⟨0, a, ⟨Steps.refl a, hstep⟩, ha⟩
      | some b =>
        obtain ⟨n, c, hn, hc⟩ :=
          ih (rank b) (hr ▸ h.falls a b ha hstep) b (h.preserves a b ha hstep) rfl
        exact ⟨1 + n, c, Halts.of_steps (Steps.single hstep) hn, hc⟩

/-- What `M` does in a state `N` does in every related state. Where `M` faults nothing is said. -/
structure Simulates (M : Machine ε σ) (N : Machine ε τ) (R : σ → τ → Prop) : Prop where
  move : ∀ a b a', R a b → M a = .ok (some a') → ∃ b', N b = .ok (some b') ∧ R a' b'
  halt : ∀ a b, R a b → M a = .ok none → N b = .ok none

namespace Simulates

variable {M : Machine ε σ} {N : Machine ε τ} {R : σ → τ → Prop} {n : Nat}

/-- A path on one side is matched, move by move, on the other. -/
theorem steps (h : Simulates M N R) {a a' : σ} {b : τ} (hs : Steps M n a a') (hab : R a b) :
    ∃ b', Steps N n b b' ∧ R a' b' := by
  induction hs generalizing b with
  | refl a => exact ⟨b, Steps.refl b, hab⟩
  | head hstep _ ih =>
    obtain ⟨c, hc, hr⟩ := h.move _ b _ hab hstep
    obtain ⟨b', hs', hr'⟩ := ih hr
    exact ⟨b', Steps.head hc hs', hr'⟩

/-- Halting runs are matched by halting runs of the same length. -/
theorem halts (h : Simulates M N R) {a a' : σ} {b : τ} (hh : Halts M n a a') (hab : R a b) :
    ∃ b', Halts N n b b' ∧ R a' b' := by
  obtain ⟨b', hs, hr⟩ := h.steps hh.1 hab
  exact ⟨b', ⟨hs, h.halt a' b' hr hh.2⟩, hr⟩

/-- A simulation that also keeps faults goes both ways. -/
theorem symm (h : Simulates M N R)
    (hf : ∀ a b e, R a b → M a = .error e → ∃ e', N b = .error e') :
    Simulates N M (fun b a ↦ R a b) where
  move b a b' hab hstep := by
    cases hM : M a with
    | error e =>
      obtain ⟨e', he'⟩ := hf a b e hab hM
      exact absurd (he'.symm.trans hstep) (by simp)
    | ok next =>
      cases next with
      | none => exact absurd ((h.halt a b hab hM).symm.trans hstep) (by simp)
      | some a' =>
        obtain ⟨c, hc, hr⟩ := h.move a b a' hab hM
        obtain rfl := Option.some.inj (Except.ok.inj (hc.symm.trans hstep))
        exact ⟨a', rfl, hr⟩
  halt b a hab hstep := by
    cases hM : M a with
    | error e =>
      obtain ⟨e', he'⟩ := hf a b e hab hM
      exact absurd (he'.symm.trans hstep) (by simp)
    | ok next =>
      cases next with
      | none => rfl
      | some a' =>
        obtain ⟨c, hc, -⟩ := h.move a b a' hab hM
        exact absurd (hc.symm.trans hstep) (by simp)

end Simulates

/-- Two step outcomes agree: both halt, or both move to related states. -/
inductive Agree (R : σ → τ → Prop) : Except ε (Option σ) → Except ε (Option τ) → Prop
  | halt : Agree R (.ok none) (.ok none)
  | move {a : σ} {b : τ} : R a b → Agree R (.ok (some a)) (.ok (some b))

/-- `R` relates states whose steps agree again in `R`. -/
def Lockstep (M : Machine ε σ) (N : Machine ε τ) (R : σ → τ → Prop) : Prop :=
  ∀ a b, R a b → Agree R (M a) (N b)

namespace Lockstep

variable {M : Machine ε σ} {N : Machine ε τ} {R : σ → τ → Prop} {n : Nat}

theorem symm (h : Lockstep M N R) : Lockstep N M (fun b a ↦ R a b) := by
  intro b a hab
  have hagree := h a b hab
  generalize M a = o at hagree ⊢
  generalize N b = o' at hagree ⊢
  cases hagree with
  | halt => exact .halt
  | move hr => exact .move hr

/-- Related states do not fault. -/
theorem safe (h : Lockstep M N R) {a : σ} {b : τ} (hab : R a b) (e : ε) : M a ≠ .error e := by
  intro he
  have hagree := h a b hab
  rw [he] at hagree
  generalize N b = o at hagree
  cases hagree

/-- Machines in lockstep simulate one another. -/
theorem simulates (h : Lockstep M N R) : Simulates M N R where
  move a b a' hab hstep := by
    have hagree := h a b hab
    rw [hstep] at hagree
    generalize N b = o at hagree ⊢
    cases hagree with
    | move hr => exact ⟨_, rfl, hr⟩
  halt a b hab hstep := by
    have hagree := h a b hab
    rw [hstep] at hagree
    generalize N b = o at hagree ⊢
    cases hagree
    rfl

theorem steps (h : Lockstep M N R) {a a' : σ} {b : τ} (hs : Steps M n a a') (hab : R a b) :
    ∃ b', Steps N n b b' ∧ R a' b' := h.simulates.steps hs hab

theorem halts (h : Lockstep M N R) {a a' : σ} {b : τ} (hh : Halts M n a a') (hab : R a b) :
    ∃ b', Halts N n b b' ∧ R a' b' := h.simulates.halts hh hab

end Lockstep

/-- Where every move on one side is matched by at most one move on the other, a path is matched
by a path. -/
theorem Steps.stutter {M : Machine ε σ} {N : Machine ε τ} {R : σ → τ → Prop}
    (hmove : ∀ a b a', R a b → M a = .ok (some a') →
      R a' b ∨ ∃ b', N b = .ok (some b') ∧ R a' b')
    {n : Nat} {a a' : σ} {b : τ} (hs : Steps M n a a') (hab : R a b) :
    ∃ m b', Steps N m b b' ∧ R a' b' := by
  induction hs generalizing b with
  | refl a => exact ⟨0, b, .refl b, hab⟩
  | head hstep _ ih =>
    rcases hmove _ b _ hab hstep with hr | ⟨c, hc, hr⟩
    · exact ih hr
    · obtain ⟨m, b', hs', hr'⟩ := ih hr
      exact ⟨m + 1, b', .head hc hs', hr'⟩

/-! ### The total function of a machine -/

/-- `b` comes right after `a`. -/
def Next (M : Machine ε σ) (b a : σ) : Prop := M a = .ok (some b)

/-- On the states from which every path is finite the moves are well-founded. -/
theorem next_wf (M : Machine ε σ) :
    WellFounded fun b a : { a // Acc (Next M) a } ↦ Next M b.1 a.1 :=
  ⟨fun a ↦ InvImage.accessible Subtype.val a.2⟩

/-- Run the machine to its end. The recursion is on the moves to come. -/
def outcome (M : Machine ε σ) (a : { a // Acc (Next M) a }) : Except ε σ :=
  match hM : M a.1 with
  | .error e => .error e
  | .ok none => .ok a.1
  | .ok (some b) => outcome M ⟨b, a.2.inv hM⟩
termination_by (next_wf M).wrap a

/-- Where the machine halts, all paths are finite. -/
theorem Halts.acc {M : Machine ε σ} {n : Nat} {a b : σ} (h : Halts M n a b) : Acc (Next M) a := by
  induction n generalizing a with
  | zero =>
    apply Acc.intro
    intro c hc
    cases h.1
    exact absurd (h.2.symm.trans hc) (by simp)
  | succ n ih =>
    apply Acc.intro
    intro c hc
    cases h.1 with
    | head hstep hrest =>
      obtain rfl := Option.some.inj (Except.ok.inj (hstep.symm.trans hc))
      exact ih ⟨hrest, h.2⟩

/-- The outcome is the state in which the machine halts. -/
theorem Halts.outcome {M : Machine ε σ} {n : Nat} {a b : σ} (h : Halts M n a b)
    (hacc : Acc (Next M) a) : Stepper.outcome M ⟨a, hacc⟩ = .ok b := by
  induction n generalizing a with
  | zero =>
    cases h.1
    rw [Stepper.outcome]
    split
    · next hM => exact absurd (h.2.symm.trans hM) (by simp)
    · rfl
    · next hM => exact absurd (h.2.symm.trans hM) (by simp)
  | succ n ih =>
    cases h.1 with
    | head hstep hrest =>
      rw [Stepper.outcome]
      split
      · next hM => exact absurd (hstep.symm.trans hM) (by simp)
      · next hM => exact absurd (hstep.symm.trans hM) (by simp)
      · next hM =>
        obtain rfl := Option.some.inj (Except.ok.inj (hstep.symm.trans hM))
        exact ih ⟨hrest, h.2⟩ _

end Stepper
