import LobEngine.Properties.FillBound

/-!
# How long an event takes

A move of the machine is one iteration of a match loop or of a trigger loop. Between two fills the
loops run down: an iteration ends a match loop or takes one stop off a trigger loop. A fill starts
at most one trigger loop, over the pending stops. So the iterations of an event are bounded by its
fills and the stops, and with the bound on the fills there is an amount of fuel, known before the
event, with which `submit` returns.
-/

namespace LobEngine

open BookOps Engine Stepper

/-! ### Moves -/

/-- The iterations that the loop has to come until the next fill. -/
def Frame.pace : Frame → Nat
  | .matching _ => 1
  | .triggers _ working => 1 + 2 * working.length

/-- The stops that the loop has taken off the pending ones. -/
def Frame.stops : Frame → Nat
  | .matching _ => 0
  | .triggers _ working => working.length

namespace Config

variable {B : Type} [BookOps B] {c d : Config B}

def pace (c : Config B) : Nat := (c.stack.map Frame.pace).sum

/-- The stops that wait, pending or in a trigger loop. -/
def stops (c : Config B) : Nat := c.engine.pendingStops.length + (c.stack.map Frame.stops).sum

/-- The iterations that a fill can cause, its own among them, if there are `n` stops. -/
def perFill (n : Nat) : Nat := 2 * n + 2

private theorem settle_pendingStops (s : Engine B) (a : Order) :
    (settle s a).pendingStops = s.pendingStops := by
  rcases settle_eq s a with h | h
  · rw [h]
  · rw [h]
    rfl

/-- Starting an evaluation moves the stops into a trigger loop. -/
private theorem stops_evaluate (c : Config B) : (evaluate c).stops = c.stops := by
  unfold evaluate
  split
  · rfl
  · split
    · rfl
    · simp only [stops, List.map_cons, List.sum_cons, Frame.stops, List.length_nil]
      omega

private theorem pace_evaluate (c : Config B) : (evaluate c).pace ≤ 1 + 2 * c.stops + c.pace := by
  unfold evaluate
  split
  · omega
  · split
    · omega
    · simp only [stops, pace, List.map_cons, List.sum_cons, Frame.pace]
      omega

/-- A stop is triggered or kept, never added. -/
theorem Moves.stops (h : Moves c d) : d.stops ≤ c.stops := by
  cases h with
  | filled | uncrossed | unopposed =>
    simp only [Config.stops, settle_pendingStops, List.map_cons, List.sum_cons, Frame.stops]
    omega
  | exhausted =>
    simp only [Config.stops, Engine.log, List.map_cons, List.sum_cons, Frame.stops]
    omega
  | fill =>
    rw [stops_evaluate]
    simp only [Config.stops, Engine.log, List.map_cons, List.sum_cons, Frame.stops]
    exact Nat.le_refl _
  | evaluated =>
    simp only [Config.stops, List.map_cons, List.sum_cons, Frame.stops, List.length_nil]
    omega
  | triggered =>
    simp only [Config.stops, enterConverted, Engine.log, List.map_cons, List.sum_cons,
      Frame.stops, List.length_cons]
    omega
  | kept =>
    simp only [Config.stops, List.map_cons, List.sum_cons, Frame.stops, List.length_append,
      List.length_cons, List.length_nil]
    omega

/-- A move is paid for by a fill, or the loops run down. -/
private theorem Moves.paced (h : Moves c d) {n : Nat} (hn : c.stops ≤ n) :
    1 + d.pace + perFill n * c.result.trades.length ≤
      c.pace + perFill n * d.result.trades.length := by
  cases h with
  | filled | uncrossed | exhausted | unopposed | evaluated =>
    simp only [pace, List.map_cons, List.sum_cons, Frame.pace, MatchResult.pushRejection,
      List.length_nil]
    omega
  | @fill s a passive K r p key book book' q =>
    have hpace := pace_evaluate (⟨{ s with book := book' }.log (.fill (fillTrade a passive q)),
      .matching { a with quantity := a.quantity - q } :: K,
      r.pushTrade (fillTrade a passive q)⟩ : Config B)
    have hcount : (r.pushTrade (fillTrade a passive q)).trades.length = r.trades.length + 1 :=
      List.length_append
    rw [evaluate_result]
    simp only [hcount, Nat.mul_add, Nat.mul_one]
    simp only [Config.stops, pace, perFill, Engine.log, List.map_cons, List.sum_cons, Frame.stops,
      Frame.pace] at hn hpace ⊢
    omega
  | triggered =>
    simp only [pace, enterConverted, List.map_cons, List.sum_cons, Frame.pace, List.length_cons]
    omega
  | kept =>
    simp only [pace, List.map_cons, List.sum_cons, Frame.pace, List.length_cons]
    omega

end Config

/-! ### Events -/

/-- The stop orders among those that an event submits. -/
def OrderEvent.stops (e : OrderEvent) : Nat :=
  (e.orders.filter fun o ↦ o.type = .stop ∨ o.type = .stopLimit).length

section Event

variable {B : Type} [BookOps B] {s s' : Engine B} {e : OrderEvent} {r : MatchResult}

private theorem stops_enter (s : Engine B) (o : Order) (r : MatchResult) :
    (Config.enter s o [] r).stops ≤ s.pendingStops.length +
      ([o].filter fun o ↦ o.type = .stop ∨ o.type = .stopLimit).length := by
  have hstop (ht : o.type = .stop ∨ o.type = .stopLimit) :
      ([o].filter fun o ↦ o.type = .stop ∨ o.type = .stopLimit).length = 1 := by
    rw [List.filter_cons_of_pos (by simpa using ht)]
    rfl
  unfold Config.enter
  cases ht : o.type with
  | limit | market | iceberg => exact Nat.le_add_right _ _
  | stop =>
    rw [hstop (.inl ht)]
    simp only
    split
    · exact Nat.le_add_right _ _
    · simp [Config.stops]
  | stopLimit =>
    rw [hstop (.inr ht)]
    simp only
    split
    · exact Nat.le_add_right _ _
    · simp [Config.stops]

private theorem pace_enter (s : Engine B) (o : Order) (r : MatchResult) :
    (Config.enter s o [] r).pace ≤ 1 := by
  unfold Config.enter
  cases o.type with
  | limit | market | iceberg => exact Nat.le_refl 1
  | stop | stopLimit =>
    simp only
    split
    · exact Nat.le_refl 1
    · exact Nat.zero_le 1

private theorem stops_start (s : Engine B) (e : OrderEvent) :
    (Config.start s e).stops ≤ s.pendingStops.length + e.stops := by
  have hstart := Config.starts s e
  generalize Config.start s e = c at hstart
  cases hstart with
  | newOrder | replaced => exact stops_enter _ _ _
  | stopCancelled => exact (List.eraseP_sublist.length_le).trans (Nat.le_add_right _ _)
  | orderCancelled | cancelRejected | requeued | reduced | unmodified | replaceRejected =>
    exact Nat.le_add_right _ _

private theorem pace_start (s : Engine B) (e : OrderEvent) : (Config.start s e).pace ≤ 1 := by
  have hstart := Config.starts s e
  generalize Config.start s e = c at hstart
  cases hstart with
  | newOrder | replaced => exact pace_enter _ _ _
  | stopCancelled | orderCancelled | cancelRejected | requeued | reduced | unmodified |
    replaceRejected => exact Nat.zero_le 1

/-- Wherever an event ends, in any state, its iterations are bounded by its fills and the stops. -/
theorem iterations_bounded {m n : Nat} (h : Halts Config.step m (.start s e) ⟨s', [], r⟩)
    (hn : s.pendingStops.length + e.stops ≤ n) :
    m ≤ 1 + Config.perFill n * r.trades.length ∧ s'.pendingStops.length ≤
      s.pendingStops.length + e.stops := by
  have hstops : (Config.start s e).stops ≤ n := (stops_start s e).trans hn
  have hcost := h.1.amortised (P := fun c ↦ c.stops ≤ n)
    (fun _ _ hc hs ↦ (Config.moves_of_step hs).stops.trans hc)
    (fun _ _ hc hs ↦ (Config.moves_of_step hs).paced hc) hstops
  have hpace := pace_start s e
  have hkept := h.1.preserves (P := fun c ↦ c.stops ≤ s.pendingStops.length + e.stops)
    (fun _ _ hc hs ↦ (Config.moves_of_step hs).stops.trans hc) (stops_start s e)
  rw [start_trades] at hcost
  constructor
  · simp only [List.length_nil, Nat.mul_zero] at hcost
    omega
  · simpa [Config.stops] using hkept

end Event

/-! ### Fuel -/

section Fuel

variable {es : List OrderEvent} {s : Engine (OrderBook PriceLevel)} {rs : List MatchResult}
  {e : OrderEvent}

/-- An amount of fuel that can be read off the engine and the event. The recursion makes at most
eight nested calls for an iteration. -/
def Engine.fuelFor (s : Engine (OrderBook PriceLevel)) (e : OrderEvent) : Nat :=
  8 * (1 + Config.perFill (s.pendingStops.length + e.stops) * (s.allowance + e.allowance)) + 5

/-- In a fresh run whose modifies land `submit` returns with that much fuel, and with more it
returns the same. -/
theorem submit_within_fuel (h : Run Lands es s rs) (hf : Fresh (es ++ [e])) (hl : Lands s e) :
    ∃ s' r, ∀ fuel, s.fuelFor e ≤ fuel → s.submit fuel e = .ok (s', r) := by
  obtain ⟨t, ht, href⟩ := h.refines (E := fun _ ↦ True) (fun _ hl ↦ hl) (fun _ ↦ trivial) hf.left
  obtain ⟨s', t', r, hs, ht', -⟩ := href.submits hf hl
  have hfills := (ht.mono fun _ _ _ ↦ trivial).event_fills hf ht'
  rw [href.allowance] at hfills
  obtain ⟨n, hn⟩ := submits_iff.mp hs
  have hiterations := (iterations_bounded hn (Nat.le_refl _)).1
  have hpaid : r.trades.length ≤ s.allowance + e.allowance := by omega
  have hmul := Nat.mul_le_mul_left (Config.perFill (s.pendingStops.length + e.stops)) hpaid
  refine ⟨s', r, fun fuel hfuel ↦ submit_of_halts hn ?_⟩
  rw [fuelFor] at hfuel
  omega

/-- The last stop of a cascade of two is triggered by the trade of the first. -/
private def cascading : List OrderEvent :=
  [.newOrder ⟨{ id := 1, side := .sell, price := 100, quantity := 5 }⟩,
    .newOrder ⟨{ id := 2, side := .sell, price := 101, quantity := 10 }⟩,
    .newOrder ⟨{ id := 3, type := .stop, stopPrice := 101, quantity := 3 }⟩,
    .newOrder ⟨{ id := 4, type := .stopLimit, price := 102, stopPrice := 100, quantity := 2 }⟩]

private def cascadeStart : OrderEvent := .newOrder ⟨{ id := 5, price := 100, quantity := 4 }⟩

theorem submit_within_fuel_cascade : ∃ (s : Engine (OrderBook PriceLevel))
    (s' : Engine (OrderBook PriceLevel)) (r : MatchResult), s.fuelFor cascadeStart = 253 ∧
      s.submit 253 cascadeStart = .ok (s', r) := by
  obtain ⟨s, rs, hrun, hfuel⟩ := Run.exists_of_play (B := OrderBook PriceLevel) KeepsPlace 50
    cascading (fun s _ ↦ s.fuelFor cascadeStart = 253) (by decide +kernel)
  obtain ⟨s', r, hsubmit⟩ := submit_within_fuel (hrun.mono fun _ _ ↦ .of_keepsPlace)
    (e := cascadeStart) (by decide) trivial
  exact ⟨s, s', r, hfuel, hsubmit 253 (Nat.le_of_eq hfuel)⟩

end Fuel

/-! ### Runs -/

section Run

variable {B : Type} [BookOps B]

/-- A run with the number of its iterations. -/
inductive Run.Takes (Ok : Engine B → OrderEvent → Prop) :
    List OrderEvent → Engine B → List MatchResult → Nat → Prop
  | nil : Run.Takes Ok [] init [] 0
  | snoc {es : List OrderEvent} {e : OrderEvent} {s s' : Engine B} {rs : List MatchResult}
      {r : MatchResult} {m n : Nat} : Run.Takes Ok es s rs n → Ok s e →
      Halts Config.step m (.start s e) ⟨s', [], r⟩ →
      Run.Takes Ok (es ++ [e]) s' (rs ++ [r]) (n + m)

variable {Ok : Engine B → OrderEvent → Prop} {es : List OrderEvent} {s : Engine B}
  {rs : List MatchResult} {n : Nat}

/-- Every run has a number of iterations. -/
theorem Run.takes (h : Run Ok es s rs) : ∃ n, Run.Takes Ok es s rs n := by
  induction h with
  | nil => exact ⟨0, .nil⟩
  | snoc _ hok hs ih =>
    obtain ⟨n, hn⟩ := ih
    obtain ⟨m, hm⟩ := submits_iff.mp hs
    exact ⟨n + m, hn.snoc hok hm⟩

theorem Run.Takes.run (h : Run.Takes Ok es s rs n) : Run Ok es s rs := by
  induction h with
  | nil => exact .nil
  | snoc _ hok hm ih => exact ih.snoc hok (submits_iff.mpr ⟨_, hm⟩)

/-- The iterations of a run are bounded by its events, its fills and the stops it submits. -/
private theorem Run.Takes.bounded (h : Run.Takes Ok es s rs n) {k : Nat}
    (hk : (es.map OrderEvent.stops).sum ≤ k) :
    n ≤ es.length + Config.perFill k * (rs.flatMap MatchResult.trades).length ∧
      s.pendingStops.length ≤ (es.map OrderEvent.stops).sum := by
  induction h with
  | nil => exact ⟨Nat.zero_le _, Nat.le_refl 0⟩
  | @snoc es e s s' rs r m n _ _ hm ih =>
    rw [List.map_append, List.sum_append, List.map_singleton, List.sum_singleton] at hk ⊢
    obtain ⟨hn, hpending⟩ := ih (by omega)
    obtain ⟨hevent, hpending'⟩ := iterations_bounded hm (n := k) (by omega)
    rw [List.flatMap_append, List.flatMap_singleton, List.length_append, List.length_append,
      List.length_singleton, Nat.mul_add]
    omega

/-- The iterations of all loops in a fresh run whose modifies land: one for each event, and
`2 * k + 2` for each time that a submitted order can be emptied, where `k` stops are submitted. -/
theorem run_iterations_bounded {s : Engine (OrderBook PriceLevel)} (h : Run.Takes Lands es s rs n)
    (hf : Fresh es) : n ≤ es.length +
      Config.perFill (es.map OrderEvent.stops).sum * (es.map OrderEvent.allowance).sum := by
  have hfills := run_fills_bounded h.run hf
  have hpaid : (rs.flatMap MatchResult.trades).length ≤ (es.map OrderEvent.allowance).sum := by
    omega
  exact (h.bounded (Nat.le_refl _)).1.trans
    (Nat.add_le_add_left (Nat.mul_le_mul_left _ hpaid) _)

theorem run_iterations_bounded_cascade : ∃ (s : Engine (OrderBook PriceLevel))
    (rs : List MatchResult) (n : Nat),
    (rs.flatMap MatchResult.trades).length = 4 ∧
      Run.Takes Lands (cascading ++ [cascadeStart]) s rs n ∧ n ≤ 35 := by
  obtain ⟨s, rs, hrun, hcount⟩ := Run.exists_of_play (B := OrderBook PriceLevel) KeepsPlace 50
    (cascading ++ [cascadeStart]) (fun _ rs ↦ (rs.flatMap MatchResult.trades).length = 4)
    (by decide +kernel)
  obtain ⟨n, hn⟩ := Run.takes (hrun.mono fun _ _ ↦ Lands.of_keepsPlace)
  exact ⟨s, rs, n, hcount, hn, (run_iterations_bounded hn (by decide)).trans (by decide)⟩

end Run

end LobEngine
