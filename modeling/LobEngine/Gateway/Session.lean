import LobEngine.Engine.Run
import LobEngine.Gateway.ExchangeManager

/-!
# Sessions of the exchange manager

A session is a sequence of messages given to a new manager, with any fuel and any readings of
the clock. A message for a known symbol is one event of that symbol's engine and leaves the
other engines alone.
-/

namespace LobEngine

open Engine

/-- Messages given to a new manager, every message allowed by `Ok` when it arrives: the manager
reached and the answers. -/
inductive Session (Ok : ExchangeManager → OrderMessage → Prop) :
    List OrderMessage → ExchangeManager → List (List ExchangeEvent) → Prop
  | nil : Session Ok [] .init []
  | snoc {msgs : List OrderMessage} {msg : OrderMessage} {m m' : ExchangeManager}
      {outs : List (List ExchangeEvent)} {out : List ExchangeEvent} {fuel : Nat}
      {now ts : Timestamp} : Session Ok msgs m outs → Ok m msg →
      m.process fuel now ts msg = .ok (m', out) → Session Ok (msgs ++ [msg]) m' (outs ++ [out])

theorem Session.length_eq {Ok : ExchangeManager → OrderMessage → Prop} {msgs : List OrderMessage}
    {m : ExchangeManager} {outs : List (List ExchangeEvent)} (h : Session Ok msgs m outs) :
    outs.length = msgs.length := by
  induction h with
  | nil => rfl
  | snoc _ _ _ ih => rw [List.length_append, List.length_append, ih]; rfl

namespace ExchangeManager

theorem engineAt_setEngine (m : ExchangeManager) (i j : Fin instrumentCount)
    (engine : Engine (OrderBook PriceLevel)) :
    (m.setEngine j engine).engineAt i = if j = i then engine else m.engineAt i := by
  unfold engineAt setEngine
  by_cases hij : j = i
  · subst hij
    simp
  · have hne : j.val ≠ i.val := fun he ↦ hij (Fin.ext he)
    simp [Vector.getElem_set_ne _ _ hne, hij]

variable {m m' : ExchangeManager} {msg : OrderMessage} {out : List ExchangeEvent} {fuel : Nat}
  {now ts : Timestamp}

/-- A message for a known symbol is one event of its engine. -/
theorem process_known {i : Fin instrumentCount} (hi : m.index[msg.symbol]? = some i) :
    m.process fuel now ts msg = ((m.engineAt i).submit fuel (msg.event now)).map fun a ↦
      (m.setEngine i a.1, translateResult ts msg a.2 a.1.book) := by
  simp only [process, hi]
  cases (m.engineAt i).submit fuel (msg.event now) <;> rfl

/-- What processing a message does to the engines. -/
theorem process_ok (h : m.process fuel now ts msg = .ok (m', out)) :
    m.index[msg.symbol]? = none ∧ m' = m ∧ out = [] ∨
      ∃ i s' r, m.index[msg.symbol]? = some i ∧
        (m.engineAt i).submit fuel (msg.event now) = .ok (s', r) ∧
        m' = m.setEngine i s' ∧ out = translateResult ts msg r s'.book := by
  cases hi : m.index[msg.symbol]? with
  | none =>
    simp only [process, hi] at h
    obtain ⟨rfl, rfl⟩ := Prod.mk.inj (Except.ok.inj h)
    exact .inl ⟨rfl, rfl, rfl⟩
  | some i =>
    rw [process_known hi] at h
    cases hs : (m.engineAt i).submit fuel (msg.event now) with
    | error f =>
      rw [hs] at h
      exact absurd h (by simp [Except.map])
    | ok a =>
      rw [hs] at h
      obtain ⟨rfl, rfl⟩ := Prod.mk.inj (Except.ok.inj h)
      exact .inr ⟨i, a.1, a.2, rfl, hs, rfl, rfl⟩

/-- A fault of `process` is a fault of the engine of the symbol. -/
theorem process_error {f : Fault} (h : m.process fuel now ts msg = .error f) :
    ∃ i, m.index[msg.symbol]? = some i ∧
      (m.engineAt i).submit fuel (msg.event now) = .error f := by
  cases hi : m.index[msg.symbol]? with
  | none =>
    simp only [process, hi] at h
    exact absurd h (by simp)
  | some i =>
    refine ⟨i, rfl, ?_⟩
    rw [process_known hi] at h
    cases hs : (m.engineAt i).submit fuel (msg.event now) with
    | error f' =>
      rw [hs] at h
      rw [Except.error.inj h]
    | ok a =>
      rw [hs] at h
      exact absurd h (by simp [Except.map])

/-- Where the engine of the symbol accepts, so does `process`. -/
theorem process_of_submit {i : Fin instrumentCount} {s' : Engine (OrderBook PriceLevel)}
    {r : MatchResult} (hi : m.index[msg.symbol]? = some i)
    (hs : (m.engineAt i).submit fuel (msg.event now) = .ok (s', r)) :
    ∃ m', m.process fuel now ts msg = .ok (m', translateResult ts msg r s'.book) := by
  rw [process_known hi, hs]
  exact ⟨_, rfl⟩

end ExchangeManager

/-- What a new engine satisfies and what every message preserves in the engine of its symbol
holds of every engine of a session. -/
theorem Session.engine_induction {Ok : ExchangeManager → OrderMessage → Prop}
    {P : Engine (OrderBook PriceLevel) → Prop} (h₀ : P Engine.init)
    (hstep : ∀ {m : ExchangeManager} {msg : OrderMessage} {i : Fin instrumentCount}
      {now : Timestamp} {s' : Engine (OrderBook PriceLevel)} {r : MatchResult}, Ok m msg →
      m.index[msg.symbol]? = some i → P (m.engineAt i) →
      Submits (m.engineAt i) (msg.event now) s' r → P s')
    {msgs : List OrderMessage} {m : ExchangeManager} {outs : List (List ExchangeEvent)}
    (h : Session Ok msgs m outs) (i : Fin instrumentCount) : P (m.engineAt i) := by
  induction h with
  | nil => simpa [ExchangeManager.engineAt, ExchangeManager.init] using h₀
  | @snoc msgs msg m m' outs out fuel now ts _ hok hp ih =>
    rcases ExchangeManager.process_ok hp with ⟨-, rfl, -⟩ | ⟨j, s', r, hj, hs, rfl, -⟩
    · exact ih
    · rw [ExchangeManager.engineAt_setEngine]
      split
      · next hij =>
        subst hij
        exact hstep hok hj ih ⟨fuel, hs⟩
      · exact ih

/-- Process messages with the clock at zero, as long as `ok` allows the next one. -/
def serve (ok : ExchangeManager → OrderMessage → Bool) (fuel : Nat) :
    List OrderMessage → ExchangeManager → Option ExchangeManager
  | [], m => some m
  | msg :: msgs, m =>
    if ok m msg then
      match m.process fuel 0 0 msg with
      | .error _ => none
      | .ok (m, _) => serve ok fuel msgs m
    else none

/-- Messages that are served continue a session. -/
theorem Session.serve {Ok : ExchangeManager → OrderMessage → Prop}
    [∀ m msg, Decidable (Ok m msg)] {fuel : Nat} {msgs msgs' : List OrderMessage}
    {m m' : ExchangeManager} {outs : List (List ExchangeEvent)} (h : Session Ok msgs m outs)
    (hs : serve (fun m msg ↦ decide (Ok m msg)) fuel msgs' m = some m') :
    ∃ outs', Session Ok (msgs ++ msgs') m' outs' := by
  induction msgs' generalizing msgs m outs with
  | nil =>
    obtain rfl := Option.some.inj hs
    exact ⟨outs, by simpa only [List.append_nil] using h⟩
  | cons msg msgs' ih =>
    rw [LobEngine.serve] at hs
    split at hs
    · next hok =>
      split at hs
      · exact absurd hs (by simp)
      · next m₁ out hp =>
        obtain ⟨outs', hrun⟩ := ih (h.snoc (of_decide_eq_true hok) hp) hs
        exact ⟨outs', by simpa only [List.append_assoc, List.singleton_append] using hrun⟩
    · exact absurd hs (by simp)

/-- Messages that are served are a session. -/
theorem Session.exists_of_serve (Ok : ExchangeManager → OrderMessage → Prop)
    [∀ m msg, Decidable (Ok m msg)] (fuel : Nat) (msgs : List OrderMessage)
    (P : ExchangeManager → Prop) [DecidablePred P]
    (h : (LobEngine.serve (fun m msg ↦ decide (Ok m msg)) fuel msgs .init).any
      (fun m ↦ decide (P m)) = true) : ∃ m outs, Session Ok msgs m outs ∧ P m := by
  obtain ⟨m, hm, hP⟩ := Option.any_eq_true _ _ |>.mp h
  obtain ⟨outs, hrun⟩ := Session.nil.serve hm
  exact ⟨m, outs, hrun, of_decide_eq_true hP⟩

end LobEngine
