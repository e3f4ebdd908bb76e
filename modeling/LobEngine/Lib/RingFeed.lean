import LobEngine.Lib.RingInvariant

/-!
# A thread that feeds a ring

The pushing thread gives the ring batches of items, one push after the other, and counts each
item that the ring refuses in a 64-bit word. `Sound` adds to the invariant of the ring that every
item of a batch is accepted or refused, in order, and that the word counts the refused ones.
-/

universe u

namespace RingProtocol

open BoundedQueue

variable {w : Nat} {α : Type u} {k : Fin w}

/-- Where the feeding thread is: between two calls, in a push with the rest of its batch to come,
about to count a refused item, or gone. -/
inductive Feeder (α : Type u) where
  | idle
  | pushing (rest : List α)
  | dropping (rest : List α)
  | finished
  deriving DecidableEq

namespace Feeder

/-- What is left of the batch. -/
def rest : Feeder α → List α
  | pushing rest | dropping rest => rest
  | idle | finished => []

/-- The number of refused items that are not counted yet. -/
def uncounted : Feeder α → UInt64
  | dropping _ => 1
  | idle | pushing _ | finished => 0

/-- The thread is in no call. -/
def Outside : Feeder α → Prop
  | idle | finished => True
  | pushing _ | dropping _ => False

instance : DecidablePred (@Outside α)
  | idle | finished => .isTrue trivial
  | pushing _ | dropping _ => .isFalse id

/-- A thread that is in no call and has not ended is idle. -/
theorem Outside.idle {p : Feeder α} (h : p.Outside) (hne : p ≠ .finished) : p = .idle := by
  cases p with
  | idle => rfl
  | finished => exact absurd rfl hne
  | pushing | dropping => exact h.elim

end Feeder

/-- The steps that a push has to come. -/
def Pusher.left : Pusher α k → Nat
  | .idle => 0
  | .storing _ _ => 1
  | .halfway _ _ => 2
  | .writing _ _ => 3
  | .loaded _ _ => 4
  | .called _ => 5

/-- A ring with its feeding thread. `offered` records the items of all batches so far. -/
structure Feed (α : Type u) (k : Fin w) where
  ring : Ring α k
  drops : UInt64
  feeder : Feeder α
  offered : List α

namespace Feed

/-- A new ring, before the first batch. -/
def init (k : Fin w) (x : α) : Feed α k where
  ring := .init k x
  drops := 0
  feeder := .idle
  offered := []

/-- The thread begins a batch. -/
def call (xs : List α) (f : Feed α k) : Option (Feed α k) :=
  match f.feeder with
  | .idle => some { f with feeder := .pushing xs, offered := f.offered ++ xs }
  | .pushing _ | .dropping _ | .finished => none

/-- The thread ends. -/
def finish (f : Feed α k) : Option (Feed α k) :=
  match f.feeder with
  | .idle => some { f with feeder := .finished }
  | .pushing _ | .dropping _ | .finished => none

/-- One step of the thread in a call. -/
def push (junk : α) (f : Feed α k) : Option (Feed α k) :=
  match f.feeder with
  | .idle | .finished => none
  | .dropping rest => some { f with drops := f.drops + 1, feeder := .pushing rest }
  | .pushing rest =>
    match f.ring.push junk with
    | some (ring, v) =>
      some { f with ring := ring, feeder := if v = .refused then .dropping rest else .pushing rest }
    | none =>
      match rest with
      | [] => some { f with feeder := .idle }
      | x :: rest => some { f with ring := f.ring.call x, feeder := .pushing rest }

/-- One step of the popping thread. -/
def pop (d : Discipline α) (f : Feed α k) : Feed α k × Result α :=
  ({ f with ring := (f.ring.pop d).1 }, (f.ring.pop d).2)

/-- The steps of the feeding thread, one constructor for each. -/
inductive Moves (f : Feed α k) : Feed α k → Prop
  | call {xs : List α} : f.feeder = .idle →
      Moves f { f with feeder := .pushing xs, offered := f.offered ++ xs }
  | finish : f.feeder = .idle → Moves f { f with feeder := .finished }
  | count {rest : List α} : f.feeder = .dropping rest →
      Moves f { f with drops := f.drops + 1, feeder := .pushing rest }
  | push {rest : List α} {ring : Ring α k} {v : Verdict} : f.feeder = .pushing rest →
      f.ring.Pushes ring v →
      Moves f
        { f with ring := ring, feeder := if v = .refused then .dropping rest else .pushing rest }
  | next {x : α} {rest : List α} : f.feeder = .pushing (x :: rest) → f.ring.pusher = .idle →
      Moves f { f with ring := f.ring.call x, feeder := .pushing rest }
  | done : f.feeder = .pushing [] → f.ring.pusher = .idle → Moves f { f with feeder := .idle }

variable {f f' : Feed α k} {xs : List α} {junk : α} {d : Discipline α} {a : Result α}

theorem call_moves (h : f.call xs = some f') : Moves f f' := by
  unfold call at h
  split at h
  · next hf =>
    obtain rfl := Option.some.inj h
    exact .call hf
  all_goals exact absurd h (by simp)

theorem finish_moves (h : f.finish = some f') : Moves f f' := by
  unfold finish at h
  split at h
  · next hf =>
    obtain rfl := Option.some.inj h
    exact .finish hf
  all_goals exact absurd h (by simp)

theorem push_moves (h : f.push junk = some f') : Moves f f' := by
  unfold push at h
  split at h
  · exact absurd h (by simp)
  · exact absurd h (by simp)
  · next hf =>
    obtain rfl := Option.some.inj h
    exact .count hf
  · next hf =>
    split at h
    · next hpush =>
      obtain rfl := Option.some.inj h
      exact .push hf (Ring.push_pushes hpush)
    · next hnone =>
      have hidle := Ring.push_eq_none hnone
      split at h
      · obtain rfl := Option.some.inj h
        exact .done hf hidle
      · obtain rfl := Option.some.inj h
        exact .next hf hidle

/-- In a call the thread can take a step. -/
theorem push_isSome (junk : α) (h : ¬f.feeder.Outside) : (f.push junk).isSome := by
  unfold push
  split
  · next hf =>
    rw [hf] at h
    exact absurd trivial h
  · next hf =>
    rw [hf] at h
    exact absurd trivial h
  · rfl
  · split
    · rfl
    · split
      · rfl
      · rfl

/-- Outside the calls a thread that has not ended can begin one, or end. -/
theorem call_isSome (xs : List α) (h : f.feeder = .idle) : (f.call xs).isSome := by
  rw [call, h]
  rfl

theorem finish_isSome (h : f.feeder = .idle) : f.finish.isSome := by
  rw [finish, h]
  rfl

theorem call_offered (h : f.call xs = some f') : f'.offered = f.offered ++ xs := by
  unfold call at h
  split at h
  · obtain rfl := Option.some.inj h
    rfl
  all_goals exact absurd h (by simp)

theorem finish_offered (h : f.finish = some f') : f'.offered = f.offered := by
  unfold finish at h
  split at h
  · obtain rfl := Option.some.inj h
    rfl
  all_goals exact absurd h (by simp)

/-- In a call the thread does not end. -/
theorem call_open (h : f.call xs = some f') : f'.feeder ≠ .finished := by
  unfold call at h
  split at h
  · obtain rfl := Option.some.inj h
    exact fun hf ↦ nomatch hf
  all_goals exact absurd h (by simp)

theorem push_open (h : f.push junk = some f') : f'.feeder ≠ .finished := by
  cases push_moves h with
  | call | count | next | done => exact fun hf ↦ nomatch hf
  | @push rest ring v _ _ =>
    show (if v = .refused then Feeder.dropping rest else .pushing rest) ≠ .finished
    split
    · exact fun hf ↦ nomatch hf
    · exact fun hf ↦ nomatch hf
  | finish hf =>
    unfold push at h
    rw [hf] at h
    exact absurd h (by simp)

theorem finish_feeder (h : f.finish = some f') : f'.feeder = .finished := by
  unfold finish at h
  split at h
  · obtain rfl := Option.some.inj h
    rfl
  all_goals exact absurd h (by simp)

theorem push_offered (h : f.push junk = some f') : f'.offered = f.offered := by
  unfold push at h
  split at h
  · exact absurd h (by simp)
  · exact absurd h (by simp)
  · obtain rfl := Option.some.inj h
    rfl
  · split at h
    · obtain rfl := Option.some.inj h
      rfl
    · split at h
      · obtain rfl := Option.some.inj h
        rfl
      · obtain rfl := Option.some.inj h
        rfl

/-! ### The invariant -/

/-- The ring keeps its invariant, and every offered item is accounted for. -/
structure Sound (f : Feed α k) : Prop where
  holds : ∃ q, f.ring.Holds q
  offered : f.offered =
    (offers f.ring.history).map Prod.fst ++ f.ring.pusher.inHand ++ f.feeder.rest
  drops : f.drops + f.feeder.uncounted = UInt64.ofNat f.ring.refused.length
  quiet : (∀ rest, f.feeder ≠ .pushing rest) → f.ring.pusher.inHand = []

theorem Sound.init (k : Fin w) (x : α) : (init k x).Sound where
  holds := ⟨[], .init k x⟩
  offered := rfl
  drops := rfl
  quiet _ := rfl

/-- A refused item is counted in the next step. -/
theorem Sound.push {rest : List α} {ring : Ring α k} {v : Verdict} (h : f.Sound)
    (hf : f.feeder = .pushing rest) (hs : f.ring.Pushes ring v) :
    ({ f with ring := ring, feeder := if v = .refused then .dropping rest else .pushing rest } :
      Feed α k).Sound := by
  obtain ⟨q, hq⟩ := h.holds
  obtain ⟨x, hx, hhistory, hhand⟩ := hs.settles
  have hoffered := h.offered
  have hdrops := h.drops
  rw [hf, hx] at hoffered
  rw [hf] at hdrops
  have hrefused : ring.refused = f.ring.refused ++ (v.op x).flatMap Op.refused := by
    rw [Ring.refused, hhistory, BoundedQueue.refused, List.flatMap_append]
    rfl
  constructor
  · exact hq.push hs
  · simp only
    rw [hhistory, offers, List.flatMap_append, List.map_append, hhand, hoffered]
    cases v with
    | pending => simp [Verdict.op, Feeder.rest, offers]
    | accepted | refused => simp [Verdict.op, Op.offer, Feeder.rest, offers]
  · simp only
    rw [hrefused]
    cases v with
    | pending | accepted =>
      show f.drops + 0 = UInt64.ofNat (f.ring.refused ++ []).length
      rw [List.append_nil]
      exact hdrops
    | refused =>
      show f.drops + 1 = UInt64.ofNat (f.ring.refused ++ [x]).length
      rw [List.length_append, List.length_singleton, UInt64.ofNat_add, ← hdrops]
      show _ = f.drops + 0 + 1
      rw [UInt64.add_zero]
  · intro hquiet
    simp only at hquiet ⊢
    cases v with
    | pending | accepted => exact absurd rfl (hquiet rest)
    | refused =>
      rw [hhand]
      rfl

/-- Every step of the feeding thread keeps the invariant. -/
theorem Sound.move (h : f.Sound) (hs : f.Moves f') : f'.Sound := by
  have hoffered := h.offered
  have hdrops := h.drops
  have hquiet := h.quiet
  cases hs with
  | push hf hpush => exact h.push hf hpush
  | call hf =>
    rw [hf] at hoffered hdrops hquiet
    constructor
    · exact h.holds
    · simp only [hoffered, Feeder.rest, List.append_nil]
    · exact hdrops
    · exact fun hne ↦ absurd rfl (hne _)
  | finish hf =>
    rw [hf] at hoffered hdrops hquiet
    constructor
    · exact h.holds
    · exact hoffered
    · exact hdrops
    · exact fun _ ↦ hquiet (by simp)
  | count hf =>
    rw [hf] at hoffered hdrops
    constructor
    · exact h.holds
    · exact hoffered
    · show f.drops + 1 + 0 = _
      rw [UInt64.add_zero]
      exact hdrops
    · exact fun hne ↦ absurd rfl (hne _)
  | @next x rest hf hidle =>
    rw [hf, hidle] at hoffered
    rw [hf] at hdrops
    obtain ⟨q, hq⟩ := h.holds
    constructor
    · exact ⟨q, hq.call x⟩
    · rw [hoffered]
      show _ ++ [] ++ _ = _ ++ [x] ++ _
      rw [List.append_nil, List.append_assoc]
      rfl
    · exact hdrops
    · exact fun hne ↦ absurd rfl (hne _)
  | done hf hidle =>
    rw [hf] at hoffered hdrops
    constructor
    · exact h.holds
    · exact hoffered
    · exact hdrops
    · intro _
      simp only
      rw [hidle]
      rfl

/-- Every step of the popping thread keeps the invariant. -/
theorem Sound.pop {ring : Ring α k} (h : f.Sound) (hs : f.ring.Pops d ring a) :
    ({ f with ring := ring } : Feed α k).Sound := by
  obtain ⟨q, hq⟩ := h.holds
  obtain ⟨hpusher, hoffers⟩ := hs.frame
  constructor
  · exact hq.pop hs
  · show f.offered = (offers ring.history).map Prod.fst ++ ring.pusher.inHand ++ f.feeder.rest
    rw [hoffers, hpusher]
    exact h.offered
  · show f.drops + f.feeder.uncounted = UInt64.ofNat (BoundedQueue.refused ring.history).length
    rw [refused_eq_offers, hoffers, ← refused_eq_offers]
    exact h.drops
  · intro hne
    show ring.pusher.inHand = []
    rw [hpusher]
    exact h.quiet hne

/-- The accepted items are offered ones, in order. -/
theorem Sound.accepted_sublist (h : f.Sound) : f.ring.accepted.Sublist f.offered := by
  rw [h.offered, List.append_assoc, Ring.accepted, accepted_eq_offers]
  apply List.Sublist.trans _ (List.sublist_append_left _ _)
  exact List.filter_sublist.map _

/-- What was accepted was offered. -/
theorem Sound.mem_offered {x : α} (h : f.Sound) (hx : x ∈ f.ring.accepted) : x ∈ f.offered :=
  h.accepted_sublist.mem hx

/-- The thread hands out nothing. -/
theorem Moves.delivered (hs : f.Moves f') : f'.ring.delivered = f.ring.delivered := by
  cases hs with
  | push _ hpush => exact hpush.delivered
  | call | finish | count | next | done => rfl

theorem Moves.readOut (hs : f.Moves f') : f'.ring.readOut = f.ring.readOut := by
  cases hs with
  | push _ hpush => exact hpush.readOut
  | call | finish | count | next | done => rfl

theorem Moves.accepted_prefix (hs : f.Moves f') : f.ring.accepted <+: f'.ring.accepted := by
  cases hs with
  | push _ hpush => exact hpush.accepted_prefix
  | call | finish | count | next | done => exact List.prefix_rfl

theorem Moves.popper (hs : f.Moves f') : f'.ring.popper = f.ring.popper := by
  cases hs with
  | push _ hpush => exact hpush.frame.1
  | call | finish | count | next | done => rfl

/-- The thread does nothing after its end. -/
theorem Moves.not_finished (hs : f.Moves f') : f.feeder ≠ .finished := by
  intro hf
  cases hs with
  | call h | finish h | count h | push h | next h | done h =>
    exact absurd (h.symm.trans hf) (by simp)

/-- Outside the calls every offered item has its answer, and the refused ones are counted. -/
theorem Sound.outside (h : f.Sound) (hf : f.feeder.Outside) :
    f.offered = (offers f.ring.history).map Prod.fst ∧
      f.drops = UInt64.ofNat f.ring.refused.length := by
  have hoffered := h.offered
  have hdrops := h.drops
  have hquiet := h.quiet
  cases hfeeder : f.feeder with
  | idle | finished =>
    rw [hfeeder] at hoffered hdrops hquiet
    rw [hquiet (by simp)] at hoffered
    constructor
    · simpa only [Feeder.rest, List.append_nil] using hoffered
    · rw [← hdrops]
      exact (UInt64.add_zero _).symm
  | pushing | dropping =>
    rw [hfeeder] at hf
    exact hf.elim

/-! ### Calls end -/

/-- A bound on the steps that a call has to come. -/
def left (f : Feed α k) : Nat :=
  match f.feeder with
  | .idle | .finished => 0
  | .pushing rest => 1 + 6 * rest.length + f.ring.pusher.left
  | .dropping rest => 2 + 6 * rest.length + f.ring.pusher.left

theorem push_left (h : f.push junk = some f') : f'.left < f.left := by
  unfold push at h
  split at h
  · exact absurd h (by simp)
  · exact absurd h (by simp)
  · next hf =>
    obtain rfl := Option.some.inj h
    simp only [left, hf]
    omega
  · next rest hf =>
    split at h
    · next ring v hpush =>
      obtain rfl := Option.some.inj h
      cases Ring.push_pushes hpush with
      | refuse hloaded =>
        simp only [left, hf, hloaded, Pusher.left, ↓reduceIte]
        omega
      | load hp | room hp | scribble _ hp | write hp | store hp =>
        simp only [left, hf, hp, Pusher.left, reduceCtorEq, ↓reduceIte]
        omega
    · next hnone =>
      have hidle := Ring.push_eq_none hnone
      split at h
      · obtain rfl := Option.some.inj h
        simp only [left, hf]
        omega
      · obtain rfl := Option.some.inj h
        simp only [left, hf, hidle, Ring.call, Pusher.left, List.length_cons]
        omega

/-- Outside the calls nothing is to come, and only there. -/
theorem left_eq_zero : f.left = 0 ↔ f.feeder.Outside := by
  unfold left
  cases f.feeder with
  | idle | finished => exact iff_of_true rfl trivial
  | pushing | dropping =>
    refine iff_of_false ?_ id
    simp only
    omega

/-- Pops leave the calls alone. -/
theorem left_pops {ring : Ring α k} (hs : f.ring.Pops d ring a) :
    ({ f with ring := ring } : Feed α k).left = f.left := by
  unfold left
  rw [hs.frame.1]

end Feed

end RingProtocol
