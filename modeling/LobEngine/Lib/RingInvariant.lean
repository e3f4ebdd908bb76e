import LobEngine.Lib.RingProtocol

/-!
# A ring between two threads is a queue

`Holds` is the invariant of the protocol. It ties the cursors to the numbers of items that were
accepted and taken, and says for every point of the two threads which slots they may touch. One
slot stays free; that is why a slot that was released before it was read is not written again
until it has been read.
-/

universe u

namespace RingProtocol

open BoundedQueue

variable {w : Nat} {α : Type u} {k : Fin w}

/-- Where a pushing thread can be while the ring holds `q`. Once it has found room, it keeps it. -/
def Pusher.Fits (r : Ring α k) (q : List α) : Pusher α k → Prop
  | .idle | .called _ => True
  | .loaded _ tail => tail = r.tail
  | .writing _ tail | .halfway _ tail => tail = r.tail ∧ q.length + 1 < 2 ^ k.val
  | .storing x tail => tail = r.tail ∧ q.length + 1 < 2 ^ k.val ∧ r.read tail = x

/-- Where a popping thread can be while the ring holds `q`. What it has released and not read is
still in the slot. -/
def Popper.Fits (r : Ring α k) (q : List α) : Popper α k → Prop
  | .idle => True
  | .loaded head => head = r.head
  | .found head => head = r.head ∧ q ≠ []
  | .holding head x => head = r.head ∧ ∃ q', q = x :: q'
  | .released head => ∃ xs, r.taken = xs ++ [r.read head] ∧ head = .ofCount k xs.length

/-- The number of items that have been read and not released. -/
def Popper.ahead : Popper α k → Nat
  | .holding _ _ => 1
  | .idle | .loaded _ | .found _ | .released _ => 0

theorem Popper.ahead_le_one (p : Popper α k) : p.ahead ≤ 1 := by
  cases p with
  | holding => exact Nat.le_refl 1
  | idle | loaded | found | released => exact Nat.zero_le 1

/-- A popping thread relies on the cursor, on what was taken and on the slot it has released. -/
theorem Popper.Fits.frame {r r' : Ring α k} {q : List α} {p : Popper α k} (h : p.Fits r q)
    (hhead : r'.head = r.head) (htaken : r'.taken = r.taken)
    (hread : ∀ head, p = .released head → r'.read head = r.read head) : p.Fits r' q := by
  cases p with
  | idle => trivial
  | loaded head => exact h.trans hhead.symm
  | found head => exact ⟨h.1.trans hhead.symm, h.2⟩
  | holding head x => exact ⟨h.1.trans hhead.symm, h.2⟩
  | released head =>
    obtain ⟨xs, hxs, hcount⟩ := h
    refine ⟨xs, ?_, hcount⟩
    rw [htaken, hread head rfl, hxs]

/-- An item behind the others does not concern it. -/
theorem Popper.Fits.append {r : Ring α k} {q : List α} {p : Popper α k} (h : p.Fits r q) (x : α) :
    p.Fits r (q ++ [x]) := by
  cases p with
  | idle => trivial
  | loaded head => exact h
  | found head => exact ⟨h.1, by simp⟩
  | holding head y =>
    obtain ⟨hhead, q', rfl⟩ := h
    exact ⟨hhead, q' ++ [x], rfl⟩
  | released head => exact h

/-- The ring is a bounded queue that holds `q`. -/
structure Ring.Holds (r : Ring α k) (q : List α) : Prop where
  run : Run (2 ^ k.val - 1) r.history q
  head : r.head = .ofCount k r.taken.length
  tail : r.tail = .ofCount k r.accepted.length
  slots : ∀ i x, q[i]? = some x → r.popper.ahead ≤ i →
    r.read (.ofCount k (r.taken.length + i)) = x
  pusher : r.pusher.Fits r q
  popper : r.popper.Fits r q

namespace Ring.Holds

variable {r r' : Ring α k} {q : List α} {x junk : α} {tail head : Cursor k}

theorem init (k : Fin w) (x : α) : (Ring.init k x).Holds [] where
  run := .nil
  head := rfl
  tail := rfl
  slots _ _ h := absurd h (by simp)
  pusher := trivial
  popper := trivial

theorem length_accepted (h : r.Holds q) : r.accepted.length = r.taken.length + q.length :=
  h.run.length_eq

theorem held_eq (h : r.Holds q) : r.held = q.length := by
  rw [Ring.held, h.length_accepted, Nat.add_sub_cancel_left]

/-- One slot stays free. -/
theorem length_lt (h : r.Holds q) : q.length < 2 ^ k.val := by
  have hle := h.run.length_le
  have hpos : 0 < 2 ^ k.val := Nat.two_pow_pos k
  omega

/-- The test of a push for a full ring. -/
theorem full_iff (h : r.Holds q) : r.tail.next = r.head ↔ q.length = 2 ^ k.val - 1 := by
  have hlt := h.length_lt
  rw [h.tail, h.head, h.length_accepted, Cursor.next_ofCount]
  constructor
  · intro he
    by_contra hroom
    exact Cursor.ofCount_ne (by omega) (by omega) he.symm
  · intro hfull
    have hround : r.taken.length + q.length + 1 = r.taken.length + 2 ^ k.val := by omega
    rw [hround, Cursor.ofCount_add_round]

/-- The test of a pop for an empty ring. -/
theorem empty_iff (h : r.Holds q) : r.head = r.tail ↔ q = [] := by
  have hlt := h.length_lt
  rw [h.tail, h.head, h.length_accepted]
  constructor
  · intro he
    rw [← List.length_eq_zero_iff]
    by_contra hne
    exact Cursor.ofCount_ne (by omega) (by omega) he
  · rintro rfl
    rfl

/-- The slot behind the last item is none of those that hold items. -/
theorem ne_tail (h : r.Holds q) {i : Nat} (hi : i < q.length) :
    r.tail ≠ .ofCount k (r.taken.length + i) := by
  have hlt := h.length_lt
  rw [h.tail, h.length_accepted]
  exact (Cursor.ofCount_ne (by omega) (by omega)).symm

/-- With room for two it is not the slot released last either. -/
theorem ne_released (h : r.Holds q) (hroom : q.length + 1 < 2 ^ k.val) {xs : List α}
    (htaken : r.taken = xs ++ [x]) : r.tail ≠ .ofCount k xs.length := by
  have hlen := congrArg List.length htaken
  rw [List.length_append, List.length_singleton] at hlen
  rw [h.tail, h.length_accepted]
  exact (Cursor.ofCount_ne (by omega) (by omega)).symm

/-- A write behind the last item leaves the items, and what the popping thread is at. -/
theorem write_tail (h : r.Holds q) (hroom : q.length + 1 < 2 ^ k.val) (x : α) {p : Pusher α k}
    (hp : p.Fits (r.write r.tail x) q) :
    ({ r.write r.tail x with pusher := p } : Ring α k).Holds q := by
  have hreleased (head : Cursor k) (hpop : r.popper = .released head) :
      (r.write r.tail x).read head = r.read head := by
    have hfits := h.popper
    rw [hpop] at hfits
    obtain ⟨xs, htaken, rfl⟩ := hfits
    exact Ring.read_write_of_ne (h.ne_released hroom htaken)
  constructor
  · exact h.run
  · exact h.head
  · exact h.tail
  · intro i y hy hi
    have hlt : i < q.length := (List.getElem?_eq_some_iff.mp hy).1
    exact (Ring.read_write_of_ne (h.ne_tail hlt)).trans (h.slots i y hy hi)
  · exact hp
  · exact Popper.Fits.frame h.popper rfl rfl hreleased

/-- A call that fails changes nothing. -/
theorem fail (op : Op α) (h : r.Holds q) (hrun : Run (2 ^ k.val - 1) (r.history ++ [op]) q)
    (haccepted : op.accepted = []) (htaken : op.taken = []) : (r.log op).Holds q := by
  have hsame : (r.log op).taken = r.taken := by rw [Ring.taken_log, htaken, List.append_nil]
  constructor
  · exact hrun
  · rw [hsame]
    exact h.head
  · rw [Ring.accepted_log, haccepted, List.append_nil]
    exact h.tail
  · rw [hsame]
    exact h.slots
  · exact h.pusher
  · exact h.popper.frame rfl hsame fun _ _ ↦ rfl

/-- The last store of a push. -/
theorem store (h : r.Holds q) (hroom : q.length + 1 < 2 ^ k.val) (hread : r.read r.tail = x) :
    ({ r.log (.accept x) with tail := r.tail.next, pusher := .idle } : Ring α k).Holds
      (q ++ [x]) := by
  have hsame : (r.log (.accept x)).taken = r.taken := (Ring.taken_log _ _).trans (List.append_nil _)
  constructor
  · exact h.run.accept (by omega)
  · exact h.head.trans (by rw [← hsame]; rfl)
  · show r.tail.next = .ofCount k (r.log (.accept x)).accepted.length
    rw [h.tail, Cursor.next_ofCount, Ring.accepted_log, List.length_append]
    rfl
  · intro i y hy hi
    show r.read (.ofCount k ((r.log (.accept x)).taken.length + i)) = y
    rw [hsame]
    by_cases hlt : i < q.length
    · rw [List.getElem?_append_left hlt] at hy
      exact h.slots i y hy hi
    · obtain ⟨hbound, -⟩ := List.getElem?_eq_some_iff.mp hy
      rw [List.length_append, List.length_singleton] at hbound
      obtain rfl : i = q.length := by omega
      rw [List.getElem?_concat_length] at hy
      rw [← h.length_accepted, ← h.tail, hread]
      exact Option.some.inj hy
  · trivial
  · apply Popper.Fits.append
    exact h.popper.frame rfl hsame fun _ _ ↦ rfl

theorem call (h : r.Holds q) (x : α) : (r.call x).Holds q :=
  { h with pusher := trivial }

/-- A step of a push. -/
theorem push {v : Verdict} (h : r.Holds q) (hs : r.Pushes r' v) : ∃ q', r'.Holds q' := by
  have hfits := h.pusher
  cases hs with
  | load => exact ⟨q, { h with pusher := rfl }⟩
  | @refuse x tail hpush hfull =>
    rw [hpush] at hfits
    obtain rfl : tail = r.tail := hfits
    have hrefuse := h.fail (.refuse x) (h.run.refuse (h.full_iff.mp hfull)) rfl rfl
    exact ⟨q, { hrefuse with pusher := trivial }⟩
  | room hpush hroom =>
    rw [hpush] at hfits
    obtain rfl : _ = r.tail := hfits
    have hlen : q.length ≠ 2 ^ k.val - 1 := fun hlen ↦ hroom (h.full_iff.mpr hlen)
    have hlt := h.length_lt
    exact ⟨q, { h with pusher := ⟨rfl, by omega⟩ }⟩
  | scribble junk hpush =>
    rw [hpush] at hfits
    obtain ⟨rfl, hroom⟩ := hfits
    exact ⟨q, h.write_tail hroom junk ⟨rfl, hroom⟩⟩
  | write hpush =>
    rw [hpush] at hfits
    obtain ⟨rfl, hroom⟩ := hfits
    exact ⟨q, h.write_tail hroom _ ⟨rfl, hroom, Ring.read_write_self _ _ _⟩⟩
  | store hpush =>
    rw [hpush] at hfits
    obtain ⟨rfl, hroom, hread⟩ := hfits
    exact ⟨_, h.store hroom hread⟩

/-- The first item is where the reader's cursor is. -/
theorem read_head (h : r.Holds (x :: q)) (hahead : r.popper.ahead = 0) : r.read r.head = x := by
  rw [h.head]
  exact h.slots 0 x rfl (Nat.le_of_eq hahead)

/-- A pop that has found an item is at the first one. -/
theorem found (h : r.Holds q) (hpop : r.popper = .found head) :
    head = r.head ∧ ∃ x q', q = x :: q' ∧ r.read r.head = x := by
  have hfits := h.popper
  rw [hpop] at hfits
  obtain ⟨rfl, hne⟩ := hfits
  obtain ⟨x, q', rfl⟩ := List.exists_cons_of_ne_nil hne
  exact ⟨rfl, x, q', rfl, h.read_head (by rw [hpop]; rfl)⟩

/-- Reading the first slot may change it. -/
theorem take_copy (h : r.Holds (x :: q)) (hahead : r.popper.ahead = 0) (y : α) :
    ({ r.write r.head y with popper := .holding r.head x } : Ring α k).Holds (x :: q) := by
  have hlt := h.length_lt
  rw [List.length_cons] at hlt
  constructor
  · exact h.run
  · exact h.head
  · exact h.tail
  · intro i z hz hi
    obtain ⟨hbound, -⟩ := List.getElem?_eq_some_iff.mp hz
    rw [List.length_cons] at hbound
    have hpos : 1 ≤ i := hi
    have hne : r.head ≠ .ofCount k (r.taken.length + i) := by
      rw [h.head]
      exact Cursor.ofCount_ne (by omega) (by omega)
    exact (Ring.read_write_of_ne hne).trans (h.slots i z hz (by omega))
  · have hfits := h.pusher
    show r.pusher.Fits _ _
    cases hpush : r.pusher with
    | idle | called => trivial
    | loaded | writing | halfway =>
      rw [hpush] at hfits
      exact hfits
    | storing z tail =>
      rw [hpush] at hfits
      obtain ⟨rfl, hroom, hread⟩ := hfits
      have hne : r.head ≠ r.tail := by
        rw [ne_eq, h.empty_iff]
        exact List.cons_ne_nil x q
      exact ⟨rfl, hroom, (Ring.read_write_of_ne hne).trans hread⟩
  · exact ⟨rfl, q, rfl⟩

/-- The store that releases the first slot. -/
theorem release (h : r.Holds (x :: q)) {p : Popper α k}
    (hp : p.Fits { r.log (.take x) with head := r.head.next } q) :
    ({ r.log (.take x) with head := r.head.next, popper := p } : Ring α k).Holds q := by
  have hlen : (r.log (.take x)).taken.length = r.taken.length + 1 := by
    rw [Ring.taken_log, List.length_append]
    rfl
  constructor
  · exact h.run.take
  · show r.head.next = .ofCount k (r.log (.take x)).taken.length
    rw [h.head, Cursor.next_ofCount, hlen]
  · show r.tail = .ofCount k (r.log (.take x)).accepted.length
    rw [Ring.accepted_log, h.tail]
    show _ = Cursor.ofCount k (r.accepted ++ []).length
    rw [List.append_nil]
  · intro i y hy hi
    show r.read (.ofCount k ((r.log (.take x)).taken.length + i)) = y
    rw [hlen, Nat.add_assoc, Nat.add_comm 1 i]
    exact h.slots (i + 1) y hy ((Popper.ahead_le_one _).trans (Nat.le_add_left 1 i))
  · have hfits := h.pusher
    have hshort : q.length < (x :: q).length := Nat.lt_succ_self _
    show r.pusher.Fits _ _
    cases hpush : r.pusher with
    | idle | called => trivial
    | loaded =>
      rw [hpush] at hfits
      exact hfits
    | writing | halfway =>
      rw [hpush] at hfits
      obtain ⟨htail, hroom⟩ := hfits
      exact ⟨htail, by omega⟩
    | storing z tail =>
      rw [hpush] at hfits
      obtain ⟨htail, hroom, hread⟩ := hfits
      exact ⟨htail, by omega, hread⟩
  · exact hp

/-- A step of a pop. -/
theorem pop {d : Discipline α} {a : Result α} (h : r.Holds q) (hs : r.Pops d r' a) :
    ∃ q', r'.Holds q' := by
  have hfits := h.popper
  have hslots := h.slots
  cases hs with
  | load hpop =>
    rw [hpop] at hslots
    exact ⟨q, { h with slots := hslots, popper := rfl }⟩
  | miss hpop hempty =>
    rw [hpop] at hfits
    obtain rfl : _ = r.head := hfits
    obtain rfl := h.empty_iff.mp hempty
    have hmiss := h.fail .empty h.run.empty rfl rfl
    exact ⟨[], { hmiss with slots := fun i y hy ↦ absurd hy (by simp), popper := trivial }⟩
  | find hpop hne =>
    rw [hpop] at hfits hslots
    obtain rfl : _ = r.head := hfits
    exact ⟨q, { h with slots := hslots, popper := ⟨rfl, fun hq ↦ hne (h.empty_iff.mpr hq)⟩ }⟩
  | copy hpop =>
    obtain ⟨rfl, x, q, rfl, hread⟩ := h.found hpop
    rw [hread]
    exact ⟨_, h.take_copy (by rw [hpop]; rfl) _⟩
  | release hpop =>
    obtain ⟨rfl, x, q, rfl, hread⟩ := h.found hpop
    rw [hread]
    refine ⟨q, h.release ⟨r.taken, ?_, h.head⟩⟩
    show (r.log (.take x)).taken = r.taken ++ [r.read r.head]
    rw [Ring.taken_log, hread]
    rfl
  | store hpop =>
    rw [hpop] at hfits
    obtain ⟨rfl, q, rfl⟩ := hfits
    exact ⟨q, h.release trivial⟩
  | read hpop =>
    rw [hpop] at hslots
    exact ⟨q, { h with slots := hslots, popper := trivial }⟩

end Ring.Holds

/-! ### What the invariant says -/

/-- The slot that a push writes. -/
def Pusher.target : Pusher α k → Option (Cursor k)
  | .writing _ tail | .halfway _ tail => some tail
  | .idle | .called _ | .loaded _ _ | .storing _ _ => none

/-- The slot that a pop reads. -/
def Popper.source : Popper α k → Option (Cursor k)
  | .found head | .released head => some head
  | .idle | .loaded _ | .holding _ _ => none

/-- The ring is a queue of at most `2 ^ k - 1` items: its operations, each counted at one of its
steps, are those of such a queue, and what a pop reads is whole at every step of the reading. -/
structure Ring.Fifo (r : Ring α k) : Prop where
  refines : Run (2 ^ k.val - 1) r.history (r.accepted.drop r.taken.length)
  taken_prefix : r.taken <+: r.accepted
  held_le : r.held ≤ 2 ^ k.val - 1
  refused_full : ∀ junk r', r.push junk = some (r', .refused) → r.held = 2 ^ k.val - 1
  apart : ∀ c ∈ r.pusher.target, c ∉ r.popper.source
  found_whole : ∀ head, r.popper = .found head →
    r.accepted[r.taken.length]? = some (r.read head)
  released_whole : ∀ head, r.popper = .released head → r.taken.getLast? = some (r.read head)

namespace Ring

variable {r r' : Ring α k} {q : List α} {junk : α}

/-- The thread that writes a slot and the thread that reads one are at different slots. -/
theorem Holds.apart (h : r.Holds q) {c : Cursor k} (hc : c ∈ r.pusher.target) :
    c ∉ r.popper.source := by
  have htail : c = r.tail ∧ q.length + 1 < 2 ^ k.val := by
    have hfits := h.pusher
    cases hpush : r.pusher with
    | writing | halfway =>
      rw [hpush] at hc hfits
      obtain rfl := Option.some.inj hc
      exact hfits
    | idle | called | loaded | storing =>
      rw [hpush] at hc
      exact absurd hc (by simp [Pusher.target])
  obtain ⟨rfl, hroom⟩ := htail
  intro hsource
  have hfits := h.popper
  cases hpop : r.popper with
  | found head =>
    rw [hpop] at hsource hfits
    obtain rfl := Option.some.inj hsource
    exact hfits.2 (h.empty_iff.mp hfits.1.symm)
  | released head =>
    rw [hpop] at hsource hfits
    obtain rfl := Option.some.inj hsource
    obtain ⟨xs, htaken, htail⟩ := hfits
    exact h.ne_released hroom htaken htail
  | idle | loaded | holding =>
    rw [hpop] at hsource
    exact absurd hsource (by simp [Popper.source])

theorem Holds.fifo (h : r.Holds q) : r.Fifo := by
  constructor
  · have hrun := h.run
    rw [hrun.eq_drop] at hrun
    exact hrun
  · exact h.run.taken_prefix
  · rw [h.held_eq]
    exact h.run.length_le
  · intro junk r' hs
    rw [h.held_eq]
    have hfits := h.pusher
    cases push_pushes hs with
    | refuse hpush hfull =>
      rw [hpush] at hfits
      obtain rfl : _ = r.tail := hfits
      exact h.full_iff.mp hfull
  · exact fun c hc ↦ h.apart hc
  · intro head hpop
    obtain ⟨rfl, x, q, rfl, hread⟩ := h.found hpop
    have hacc : r.accepted = r.taken ++ x :: q := h.run.accepted_eq
    rw [hread, hacc, List.getElem?_append_right (Nat.le_refl _), Nat.sub_self]
    rfl
  · intro head hpop
    have hfits := h.popper
    rw [hpop] at hfits
    obtain ⟨xs, htaken, -⟩ := hfits
    rw [htaken, List.getLast?_concat]

end Ring

/-! ### What a caller sees -/

/-- The item that a push has not settled yet. -/
def Pusher.inHand : Pusher α k → List α
  | .idle => []
  | .called x | .loaded x _ | .writing x _ | .halfway x _ | .storing x _ => [x]

/-- The answer that a step of a push gives, for the item that it settles. -/
def Verdict.op (x : α) : Verdict → List (Op α)
  | .pending => []
  | .accepted => [.accept x]
  | .refused => [.refuse x]

/-- The item that a pop hands out. -/
def Result.items : Result α → List α
  | .item x => [x]
  | .pending | .empty => []

/-- The items that pop has handed out. -/
def Ring.delivered (r : Ring α k) : List α :=
  match r.popper with
  | .released _ => r.taken.dropLast
  | .idle | .loaded _ | .found _ | .holding _ _ => r.taken

/-- What a pop has copied from its slot and not released. -/
def Popper.inHand : Popper α k → List α
  | .holding _ x => [x]
  | .idle | .loaded _ | .found _ | .released _ => []

/-- The items that have been copied from their slots. -/
def Ring.readOut (r : Ring α k) : List α := r.taken ++ r.popper.inHand

namespace Ring

variable {r r' : Ring α k} {q : List α} {d : Discipline α} {a : Result α} {v : Verdict}

/-- A step of a push settles the item in hand or keeps it. -/
theorem Pushes.settles (h : r.Pushes r' v) : ∃ x, r.pusher.inHand = [x] ∧
    r'.history = r.history ++ v.op x ∧ r'.pusher.inHand = if v = .pending then [x] else [] := by
  cases h with
  | @load x hpush | @room x tail hpush | @scribble x tail junk hpush | @write x tail hpush =>
    exact ⟨x, by rw [hpush]; rfl, (List.append_nil _).symm, rfl⟩
  | @refuse x tail hpush | @store x tail hpush => exact ⟨x, by rw [hpush]; rfl, rfl, rfl⟩

/-- A push leaves the popping thread alone. -/
theorem Pushes.frame (h : r.Pushes r' v) : r'.popper = r.popper ∧ r'.taken = r.taken := by
  cases h with
  | load | room | scribble | write => exact ⟨rfl, rfl⟩
  | refuse | store => exact ⟨rfl, (Ring.taken_log r _).trans (List.append_nil _)⟩

theorem Pushes.delivered (h : r.Pushes r' v) : r'.delivered = r.delivered := by
  rw [Ring.delivered, Ring.delivered, h.frame.1, h.frame.2]

/-- What a step of a pop leaves alone. -/
theorem Pops.frame (h : r.Pops d r' a) :
    r'.pusher = r.pusher ∧ offers r'.history = offers r.history := by
  have hlog {op : Op α} (hop : op.offer = []) : offers (r.history ++ [op]) = offers r.history := by
    rw [offers_concat, hop, List.append_nil]
  cases h with
  | load | find | copy | read => exact ⟨rfl, rfl⟩
  | miss | release | store => exact ⟨rfl, hlog rfl⟩

/-- A push adds to the accepted items. -/
theorem Pushes.accepted_prefix (h : r.Pushes r' v) : r.accepted <+: r'.accepted := by
  obtain ⟨x, -, hhistory, -⟩ := h.settles
  rw [accepted, accepted, hhistory, BoundedQueue.accepted, BoundedQueue.accepted,
    List.flatMap_append]
  exact List.prefix_append _ _

/-- A pop accepts nothing. -/
theorem Pops.accepted (h : r.Pops d r' a) : r'.accepted = r.accepted := by
  rw [Ring.accepted, Ring.accepted, accepted_eq_offers, accepted_eq_offers, h.frame.2]

/-- A pop that releases its slot first never holds an item. -/
theorem Pops.not_holding (h : r.Pops .releaseFirst r' a) (head : Cursor k) (x : α) :
    r'.popper ≠ .holding head x := by
  cases h with
  | load | miss | find | release | store | read => simp

/-- A pop hands out the items in the order in which they were taken. -/
theorem Holds.pop_delivered (h : r.Holds q) (hs : r.Pops d r' a) :
    r'.delivered = r.delivered ++ a.items := by
  have hfits := h.popper
  unfold delivered
  cases hs with
  | load hpop | find hpop | copy hpop =>
    rw [hpop]
    exact (List.append_nil _).symm
  | miss hpop =>
    rw [hpop]
    exact Ring.taken_log r .empty
  | @release head hpop =>
    rw [hpop]
    show (r.log (.take (r.read head))).taken.dropLast = r.taken ++ []
    rw [Ring.taken_log, List.append_nil]
    exact List.dropLast_concat
  | @store _ head x hpop =>
    rw [hpop]
    exact Ring.taken_log r (.take x)
  | @read _ head hpop =>
    rw [hpop] at hfits ⊢
    obtain ⟨xs, htaken, -⟩ := hfits
    show r.taken = r.taken.dropLast ++ [r.read head]
    rw [htaken, List.dropLast_concat]

/-- When a pop finds the ring empty, everything accepted has been handed out. -/
theorem Holds.pop_empty (h : r.Holds q) (hs : r.Pops d r' .empty) : r'.delivered = r'.accepted := by
  have hfits := h.popper
  cases hs with
  | miss hpop hempty =>
    rw [hpop] at hfits
    obtain rfl : _ = r.head := hfits
    obtain rfl := h.empty_iff.mp hempty
    have hall := h.run.accepted_eq
    rw [List.append_nil] at hall
    show (r.log .empty).taken = (r.log .empty).accepted
    rw [Ring.taken_log, Ring.accepted_log]
    exact congrArg (· ++ []) hall.symm

/-- Steps of a push read nothing out. -/
theorem Pushes.readOut (h : r.Pushes r' v) : r'.readOut = r.readOut := by
  rw [Ring.readOut, Ring.readOut, h.frame.1, h.frame.2]

/-- Only the step that copies a slot reads an item out. -/
theorem Pops.readOut {left : α → α} (h : r.Pops (.readFirst left) r' a) :
    r'.readOut = r.readOut ++ match r.popper with
      | .found head => [r.read head]
      | .idle | .loaded _ | .holding _ _ | .released _ => [] := by
  unfold Ring.readOut
  cases h with
  | load hpop | find hpop | read hpop =>
    rw [hpop]
    exact (List.append_nil _).symm
  | miss hpop =>
    rw [hpop]
    show (r.log .empty).taken ++ [] = r.taken ++ [] ++ []
    rw [Ring.taken_log]
    rfl
  | @copy _ head hpop =>
    rw [hpop]
    show r.taken ++ [r.read head] = r.taken ++ [] ++ [r.read head]
    rw [List.append_nil]
  | @store _ head x hpop =>
    rw [hpop]
    show (r.log (.take x)).taken ++ [] = r.taken ++ [x] ++ []
    rw [Ring.taken_log]
    rfl

theorem Holds.readOut_prefix (h : r.Holds q) : r.readOut <+: r.accepted := by
  have hfits := h.popper
  rw [accepted, h.run.accepted_eq]
  apply List.prefix_append_right_inj _ |>.mpr
  cases hpop : r.popper with
  | holding head x =>
    rw [hpop] at hfits
    obtain ⟨-, q', rfl⟩ := hfits
    exact ⟨q', rfl⟩
  | idle | loaded | found | released => exact List.nil_prefix

/-- When a pop finds the ring empty, everything accepted has been read out. -/
theorem Holds.readOut_eq (h : r.Holds q) (hempty : r.head = r.tail) : r.readOut = r.accepted := by
  obtain rfl := h.empty_iff.mp hempty
  apply List.IsPrefix.eq_of_length_le h.readOut_prefix
  rw [h.length_accepted, readOut, List.length_append]
  exact Nat.le_add_right _ _

theorem Holds.delivered_prefix (h : r.Holds q) : r.delivered <+: r.accepted := by
  have htaken : r.taken <+: r.accepted := h.run.taken_prefix
  unfold delivered
  cases r.popper with
  | released => exact (List.dropLast_prefix _).trans htaken
  | idle | loaded | found | holding => exact htaken

end Ring

/-! ### Pops end -/

/-- The steps that a pop has to come; a slot that is released and not read comes before all. -/
def Popper.left : Popper α k → Nat
  | .holding _ _ => 0
  | .found _ => 1
  | .loaded _ => 2
  | .idle => 3
  | .released _ => 5

theorem Popper.left_le (p : Popper α k) : p.left ≤ 5 := by
  cases p <;> simp [Popper.left]

/-- A step of a pop takes an item from the ring, or brings the pop nearer to its end. -/
theorem Ring.Holds.pop_falls {r r' : Ring α k} {q : List α} {d : Discipline α} {a : Result α}
    (h : r.Holds q) (hs : r.Pops d r' a) :
    r'.held < r.held ∨ r'.held = r.held ∧ (a = .empty ∨ r'.popper.left < r.popper.left) := by
  obtain ⟨q', h'⟩ := h.pop hs
  have hlength := h'.length_accepted
  cases hs with
  | load hp | find hp | copy hp | read hp =>
    refine .inr ⟨rfl, .inr ?_⟩
    simp [hp, Popper.left]
  | miss =>
    refine .inr ⟨?_, .inl rfl⟩
    simp [held, accepted, taken, Ring.log, BoundedQueue.Op.accepted, BoundedQueue.Op.taken]
  | release | store =>
    left
    simp only [held, accepted, taken, Ring.log, BoundedQueue.accepted_concat,
      BoundedQueue.taken_concat, BoundedQueue.Op.accepted, BoundedQueue.Op.taken, List.append_nil,
      List.length_append, List.length_singleton] at hlength ⊢
    omega

/-- The steps that a pop has to come before it hands out an item, if there is one. -/
def Popper.wait : Popper α k → Nat
  | .idle => 4
  | .loaded _ => 3
  | .found _ => 2
  | .holding _ _ | .released _ => 1

theorem Popper.wait_le (p : Popper α k) : p.wait ≤ 4 := by
  cases p <;> simp [Popper.wait]

/-- A step of a pop that neither fails nor hands out an item brings it nearer to one. -/
theorem Ring.Pops.pending_nearer {r r' : Ring α k} {d : Discipline α}
    (h : r.Pops d r' .pending) : r'.popper.wait < r.popper.wait := by
  cases h with
  | load hp | find hp | copy hp | release hp => simp [hp, Popper.wait]

end RingProtocol
