import LobEngine.Gateway.Dealing
import LobEngine.Refinement.Runs

/-!
# Sessions refine runs of the reference engine

Messages submit and cancel only, so with distinct identifiers the engine of every symbol refines
the reference engine, and every message is answered.
-/

namespace LobEngine

open Engine

variable {msgs : List OrderMessage} {msg : OrderMessage} {m : ExchangeManager}
  {outs : List (List ExchangeEvent)} {i : Fin instrumentCount}

namespace ExchangeManager

/-- With enough fuel a message is answered with this manager and these events, and with no
amount of fuel otherwise. -/
structure Answers (m : ExchangeManager) (now ts : Timestamp) (msg : OrderMessage)
    (m' : ExchangeManager) (out : List ExchangeEvent) : Prop where
  eventually : ∃ N, ∀ fuel, N < fuel → m.process fuel now ts msg = .ok (m', out)
  only : ∀ fuel a, m.process fuel now ts msg = .ok a → a = (m', out)

/-- Where the engine of the symbol accepts the event, the message is answered. -/
theorem answers_of_submits (hi : m.index[msg.symbol]? = some i) {now : Timestamp}
    {s' : Engine (OrderBook PriceLevel)} {r : MatchResult}
    (hs : Submits (m.engineAt i) (msg.event now) s' r) (ts : Timestamp) :
    m.Answers now ts msg (m.setEngine i s') (translateResult ts msg r s'.book) where
  eventually := by
    obtain ⟨N, hN⟩ := hs.eventually
    refine ⟨N, fun fuel hfuel ↦ ?_⟩
    rw [process_known hi, hN fuel hfuel]
    rfl
  only fuel a ha := by
    rw [process_known hi] at ha
    cases hout : (m.engineAt i).submit fuel (msg.event now) with
    | error f =>
      rw [hout] at ha
      exact absurd ha (by simp [Except.map])
    | ok b =>
      rw [hout] at ha
      have hsub : Submits (m.engineAt i) (msg.event now) b.1 b.2 := ⟨fuel, hout⟩
      obtain ⟨rfl, rfl⟩ := hsub.unique hs
      exact (Except.ok.inj ha).symm

/-- A message for an unknown symbol is answered with nothing. -/
theorem answers_unknown (hi : m.index[msg.symbol]? = none) {now ts : Timestamp} :
    m.Answers now ts msg m [] := by
  have hnone (fuel : Nat) : m.process fuel now ts msg = .ok (m, []) := by
    simp only [process, hi]
  constructor
  · exact ⟨0, fun fuel _ ↦ hnone fuel⟩
  · intro fuel a ha
    exact (Except.ok.inj ((hnone fuel).symm.trans ha)).symm

/-- A message that some fuel suffices for is answered. -/
theorem answers_of_process {fuel : Nat} {now ts : Timestamp} {m' : ExchangeManager}
    {out : List ExchangeEvent} (h : m.process fuel now ts msg = .ok (m', out)) :
    m.Answers now ts msg m' out := by
  rcases process_ok h with ⟨hnone, rfl, rfl⟩ | ⟨i, s', r, hi, hs, rfl, rfl⟩
  · exact answers_unknown hnone
  · exact answers_of_submits hi ⟨fuel, hs⟩ ts

end ExchangeManager

/-- A part of messages with distinct identifiers. -/
theorem DistinctIds.sublist {msgs' : List OrderMessage} (h : DistinctIds msgs')
    (hsub : msgs.Sublist msgs') : DistinctIds msgs :=
  fun sym ↦ (h sym).sublist (((hsub.filter _).filter _).map _)

theorem DistinctIds.left {msgs' : List OrderMessage} (h : DistinctIds (msgs ++ msgs')) :
    DistinctIds msgs := h.sublist (List.sublist_append_left msgs msgs')

/-- A message for a symbol adds to the messages for it. -/
theorem DistinctIds.fresh (hd : DistinctIds (msgs ++ [msg])) {es : List OrderEvent}
    (hes : EventsOf (messagesFor msg.symbol msgs) es) (now : Timestamp) :
    Fresh (es ++ [msg.event now]) := by
  have hnodup := hd msg.symbol
  rw [messagesFor_append, if_pos rfl] at hnodup
  rw [Fresh, (hes.snoc msg now).submittedIds_eq]
  exact hnodup

/-- The engine of the symbol of the next message refines the reference engine, on the events of
the messages for that symbol. -/
theorem Session.refines {Ok : ExchangeManager → OrderMessage → Prop} (h : Session Ok msgs m outs)
    (hd : DistinctIds (msgs ++ [msg])) (hi : m.index[msg.symbol]? = some i) (now : Timestamp) :
    ∃ es rs t, Run (fun _ ↦ FromMessage) es t rs ∧ Refines es (m.engineAt i) t ∧
      Fresh (es ++ [msg.event now]) ∧ EventsOf (messagesFor msg.symbol msgs) es := by
  obtain ⟨answers, hdeal, -⟩ := h.dealing hi
  obtain ⟨es, rs, hrun, hes⟩ := hdeal.run
  have hf := hd.fresh hes now
  obtain ⟨t, ht, href⟩ := hrun.refines (E := FromMessage)
    (fun _ hm ↦ .of_keepsPlace (hm.keepsPlace _)) (fun hm ↦ hm) hf.left
  exact ⟨es, rs, t, ht, href, hf, hes⟩

/-- The next message is an event of a run of the reference engine as well. -/
theorem Refines.answers {es : List OrderEvent} {t : Engine ReferenceBook}
    (href : Refines es (m.engineAt i) t) {now : Timestamp} (hf : Fresh (es ++ [msg.event now]))
    (hi : m.index[msg.symbol]? = some i) (ts : Timestamp) : ∃ s' t' r,
      Submits (m.engineAt i) (msg.event now) s' r ∧ Submits t (msg.event now) t' r ∧
      Refines (es ++ [msg.event now]) s' t' ∧ m.Answers now ts msg (m.setEngine i s')
        (ExchangeManager.translateResult ts msg r s'.book) := by
  obtain ⟨s', t', r, hs, ht, href'⟩ := href.submits hf
    (.of_keepsPlace (FromMessage.keepsPlace ⟨msg, now, rfl⟩ _))
  exact ⟨s', t', r, hs, ht, href', ExchangeManager.answers_of_submits hi hs ts⟩

end LobEngine
