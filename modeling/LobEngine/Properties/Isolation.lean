import LobEngine.Gateway.Untimed
import LobEngine.Refinement.Sessions

/-!
# Instruments are isolated

What is served for a symbol depends on the messages for that symbol only, without their
timestamps and whatever the clock reads. So other symbols, known or unknown, and the order in
which messages for different symbols arrive leave no trace.
-/

namespace LobEngine

open Engine

/-- A message with the two readings of the clock that `process` makes for it. -/
structure Arrival where
  msg : OrderMessage
  now : Timestamp := 0
  ts : Timestamp := 0
  deriving DecidableEq, Repr

/-- Arrivals given to a new manager with enough fuel: the manager reached and the answers. -/
inductive Served : List Arrival → ExchangeManager → List (List ExchangeEvent) → Prop
  | nil : Served [] .init []
  | snoc {as : List Arrival} {a : Arrival} {m m' : ExchangeManager}
      {outs : List (List ExchangeEvent)} {out : List ExchangeEvent} :
      Served as m outs → m.Answers a.now a.ts a.msg m' out → Served (as ++ [a]) m' (outs ++ [out])

/-- The messages for a symbol among arrivals, without their timestamps. -/
def heardBy (sym : String) (as : List Arrival) : List OrderMessage :=
  (messagesFor sym (as.map Arrival.msg)).map OrderMessage.untimed

/-- Two outcomes agree on a symbol, apart from timestamps: in the events about it and in the book
and pending stops of its engine, if it has one. -/
structure SameOutcome (sym : String) (m : ExchangeManager) (outs : List (List ExchangeEvent))
    (m' : ExchangeManager) (outs' : List (List ExchangeEvent)) : Prop where
  events : (eventsFor sym outs).map ExchangeEvent.untimed =
    (eventsFor sym outs').map ExchangeEvent.untimed
  engines : Option.Rel Engine.Alike (m.engine? sym) (m'.engine? sym)

variable {as bs : List Arrival} {m m' : ExchangeManager} {outs outs' : List (List ExchangeEvent)}
  {sym : String}

/-- Arrivals that are served are a session. -/
theorem Served.session (h : Served as m outs) :
    Session (fun _ _ ↦ True) (as.map Arrival.msg) m outs := by
  induction h with
  | nil => exact .nil
  | snoc _ hans ih =>
    obtain ⟨N, hN⟩ := hans.eventually
    rw [List.map_append]
    exact ih.snoc trivial (hN (N + 1) (Nat.lt_succ_self N))

/-- No event is about an unknown symbol. -/
private theorem Session.eventsFor_unknown {Ok : ExchangeManager → OrderMessage → Prop}
    {msgs : List OrderMessage} (h : Session Ok msgs m outs) (hi : m.index[sym]? = none) :
    eventsFor sym outs = [] := by
  induction h with
  | nil => rfl
  | @snoc msgs msg m m' outs out fuel now ts hrun _ hp ih =>
    rcases ExchangeManager.process_ok hp with ⟨-, rfl, rfl⟩ | ⟨j, s', r, hj, -, rfl, rfl⟩
    · have hnil : ∀ ev ∈ ([] : List ExchangeEvent), ev.symbol = sym := by simp
      rw [eventsFor_append sym outs hnil, if_pos rfl, ih hi, List.append_nil]
    · have hne : ¬msg.symbol = sym := by
        rintro rfl
        exact absurd (hj.symm.trans hi) (by simp)
      rw [eventsFor_append sym outs fun _ ↦ ExchangeManager.symbol_of_mem_translateResult,
        if_neg hne, ih hi, List.append_nil]

/-- Two services in which a symbol hears the same messages agree on the symbol. -/
private theorem Served.sameOutcome (h : Served as m outs) (h' : Served bs m' outs')
    (hsym : heardBy sym as = heardBy sym bs) : SameOutcome sym m outs m' outs' := by
  have hindex : m'.index = m.index := h'.session.index.trans h.session.index.symm
  cases hi : m.index[sym]? with
  | none =>
    have hi' : m'.index[sym]? = none := hindex ▸ hi
    constructor
    · rw [h.session.eventsFor_unknown hi, h'.session.eventsFor_unknown hi']
    · rw [ExchangeManager.engine?, ExchangeManager.engine?, hi, hi']
      exact .none
  | some i =>
    have hi' : m'.index[sym]? = some i := hindex ▸ hi
    obtain ⟨answers, hdeal, hev⟩ := h.session.dealing hi
    obtain ⟨answers', hdeal', hev'⟩ := h'.session.dealing hi'
    obtain ⟨halike, hanswers⟩ := hdeal.alike hdeal' hsym
    constructor
    · rw [hev, hev', List.map_flatten, List.map_flatten, hanswers]
    · rw [ExchangeManager.engine?, ExchangeManager.engine?, hi, hi']
      exact .some halike

/-- Arrivals in which no symbol hears anything else than it heard in a service are served. -/
private theorem Served.exists_of_prefix (h : Served as m outs) :
    ∀ bs, (∀ sym, heardBy sym bs <+: heardBy sym as) → ∃ m' outs', Served bs m' outs' := by
  intro bs hbs
  induction bs using List.reverseRecOn with
  | nil => exact ⟨_, _, .nil⟩
  | append_singleton bs b ih =>
    have hsplit (sym : String) : heardBy sym (bs ++ [b]) =
        heardBy sym bs ++
          (if b.msg.symbol = sym then [b.msg] else []).map OrderMessage.untimed := by
      rw [heardBy, List.map_append, List.map_singleton, messagesFor_append, List.map_append]
      rfl
    obtain ⟨m', outs', h'⟩ := ih fun sym ↦
      (hsplit sym ▸ List.prefix_append _ _ : heardBy sym bs <+: _).trans (hbs sym)
    cases hi : m'.index[b.msg.symbol]? with
    | none => exact ⟨_, _, h'.snoc (ExchangeManager.answers_unknown hi)⟩
    | some i =>
      have hindex : m.index = m'.index := h.session.index.trans h'.session.index.symm
      obtain ⟨answers, hdeal, -⟩ := h.session.dealing (hindex ▸ hi)
      obtain ⟨answers', hdeal', -⟩ := h'.session.dealing hi
      have hpre := hbs b.msg.symbol
      rw [hsplit, if_pos rfl, heardBy, ← List.map_append] at hpre
      obtain ⟨t', q, ht⟩ := hdeal.next hdeal' hpre b.now
      exact ⟨_, _, h'.snoc (ExchangeManager.answers_of_submits hi ht b.ts)⟩

/-- The messages for a symbol are heard by that symbol alone. -/
private theorem heardBy_of_heard (hbs : bs.map (fun b ↦ b.msg.untimed) = heardBy sym as)
    (sym' : String) : heardBy sym' bs = if sym = sym' then heardBy sym as else [] := by
  have hsym : ∀ b ∈ bs, b.msg.symbol = sym := by
    intro b hb
    have hmem : b.msg.untimed ∈ heardBy sym as := hbs ▸ List.mem_map_of_mem hb
    obtain ⟨x, hx, he⟩ := List.mem_map.mp hmem
    have hx' : x.symbol = sym := eq_of_beq (List.mem_filter.mp hx).2
    have hsymbol : b.msg.untimed.symbol = x.symbol := by rw [← he]; rfl
    exact hsymbol.trans hx'
  unfold heardBy messagesFor at hbs ⊢
  split
  · next he =>
    subst he
    rw [← hbs, List.filter_eq_self.mpr, List.map_map]
    · rfl
    · intro x hx
      obtain ⟨b, hb, rfl⟩ := List.mem_map.mp hx
      rw [hsym b hb, beq_self_eq_true]
  · next hne =>
    rw [List.filter_eq_nil_iff.mpr, List.map_nil]
    intro x hx he
    obtain ⟨b, hb, rfl⟩ := List.mem_map.mp hx
    exact hne ((hsym b hb).symm.trans (eq_of_beq he))

/-- Any two services in which a symbol hears the same messages, at whatever times, agree on the
symbol; its messages alone are served, with any timestamps and clock readings, and so is any
interleaving of what the symbols hear; and a message for an unknown symbol is answered with
nothing and changes nothing. -/
theorem instruments_isolated (h : Served as m outs) :
    (∀ sym bs m' outs', Served bs m' outs' → heardBy sym bs = heardBy sym as →
      SameOutcome sym m outs m' outs') ∧
    (∀ sym bs, bs.map (fun b ↦ b.msg.untimed) = heardBy sym as →
      heardBy sym bs = heardBy sym as ∧ ∃ m' outs', Served bs m' outs') ∧
    (∀ bs, (∀ sym, heardBy sym bs = heardBy sym as) → ∃ m' outs', Served bs m' outs') ∧
    ∀ msg now ts, m.hasSymbol msg.symbol = false → m.Answers now ts msg m [] := by
  refine ⟨?_, ?_, ?_, ?_⟩
  · intro sym bs m' outs' h' hsym
    exact h.sameOutcome h' hsym.symm
  · intro sym bs hbs
    have hheard := heardBy_of_heard hbs
    constructor
    · rw [hheard, if_pos rfl]
    · apply h.exists_of_prefix
      intro sym'
      rw [hheard]
      split
      · next he => exact he ▸ List.prefix_rfl
      · exact List.nil_prefix
  · intro bs hbs
    apply h.exists_of_prefix
    intro sym
    rw [hbs]
  · intro msg now ts hsym
    apply ExchangeManager.answers_unknown
    apply Std.ExtTreeMap.getElem?_eq_none
    intro hmem
    rw [ExchangeManager.hasSymbol, Std.ExtTreeMap.mem_iff_contains.mp hmem] at hsym
    exact absurd hsym (by decide)

/-- Two orders for one instrument, with messages for another and for none in between. -/
private def interleaved : List Arrival :=
  [{ msg := { orderId := 1, symbol := "STOCK_1", side := .sell, quantity := 5, price := 100
              timestamp := 7 }, now := 70 },
    { msg := { orderId := 1, symbol := "STOCK_2", quantity := 9, price := 100 }
      now := 71, ts := 3 },
    { msg := { orderId := 2, symbol := "FX", quantity := 4, price := 100 } },
    { msg := { orderId := 2, symbol := "STOCK_1", quantity := 4, price := 100 }
      now := 72, ts := 9 }]

/-- The two orders for the first instrument, at other times. -/
private def alone : List Arrival :=
  [{ msg := { orderId := 1, symbol := "STOCK_1", side := .sell, quantity := 5, price := 100 }
     now := 99 },
    { msg := { orderId := 2, symbol := "STOCK_1", quantity := 4, price := 100, timestamp := 1 } }]

theorem instruments_isolated_interleaved : ∃ (m m' : ExchangeManager)
    (outs outs' : List (List ExchangeEvent)), Served interleaved m outs ∧ Served alone m' outs' ∧
      .tradeExecuted { timestamp := 9, symbol := "STOCK_1", buyOrderId := 2, sellOrderId := 1
                       price := 100, quantity := 4 } ∈ eventsFor "STOCK_1" outs ∧
      SameOutcome "STOCK_1" m outs m' outs' := by
  obtain ⟨a, ha, b, hb, c, hc, d, hd, htrade⟩ :
      ∃ a ∈ (ExchangeManager.init.process 50 70 0 interleaved[0].msg).toOption,
        ∃ b ∈ (a.1.process 50 71 3 interleaved[1].msg).toOption,
          ∃ c ∈ (b.1.process 50 0 0 interleaved[2].msg).toOption,
            ∃ d ∈ (c.1.process 50 72 9 interleaved[3].msg).toOption,
              .tradeExecuted { timestamp := 9, symbol := "STOCK_1", buyOrderId := 2
                               sellOrderId := 1, price := 100, quantity := 4 } ∈
                eventsFor "STOCK_1" [a.2, b.2, c.2, d.2] := by decide +kernel
  have hserved : Served interleaved d.1 [a.2, b.2, c.2, d.2] :=
    (((Served.nil.snoc (ExchangeManager.answers_of_process (eq_ok_of_toOption ha))).snoc
      (ExchangeManager.answers_of_process (eq_ok_of_toOption hb))).snoc
      (ExchangeManager.answers_of_process (eq_ok_of_toOption hc))).snoc
      (ExchangeManager.answers_of_process (eq_ok_of_toOption hd))
  obtain ⟨hsame, halone, -⟩ := instruments_isolated hserved
  obtain ⟨hheard, m', outs', h'⟩ := halone "STOCK_1" alone (by decide)
  exact ⟨_, m', _, outs', hserved, h', htrade, hsame _ _ _ _ h' hheard⟩

end LobEngine
