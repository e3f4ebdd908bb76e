import LobEngine.Lib.BoundedQueue
import Mathlib.Data.Nat.Bitwise

/-!
# The steps of a ring between two threads

A ring of `2 ^ k` slots whose two cursors are words of `w` bits that wrap under a mask, with one
thread that pushes and one that pops. Every load and store of a cursor and every access to a slot
is a step of its own, and the steps of the two threads come in any order. A pop reads its slot
before it releases it, or releases it first.
-/

universe u

namespace RingProtocol

open BoundedQueue

variable {w : Nat}

/-! ### Cursors -/

/-- The position of a slot. -/
structure Cursor (k : Fin w) where
  word : BitVec w
  lt : word.toNat < 2 ^ k.val
  deriving DecidableEq

namespace Cursor

variable {k : Fin w}

/-- The number below which the words under the mask of a ring are. -/
theorem toNat_and_mask (k : Fin w) (i : BitVec w) :
    (i &&& BitVec.ofNat w (2 ^ k.val - 1)).toNat = i.toNat % 2 ^ k.val := by
  have hpos : 0 < 2 ^ k.val := Nat.two_pow_pos k
  have hpow : 2 ^ k.val ≤ 2 ^ w := Nat.pow_le_pow_right (by decide) k.isLt.le
  have hmask : (BitVec.ofNat w (2 ^ k.val - 1)).toNat = 2 ^ k.val - 1 := by
    rw [BitVec.toNat_ofNat]
    apply Nat.mod_eq_of_lt
    omega
  rw [BitVec.toNat_and, hmask, Nat.and_two_pow_sub_one_eq_mod]

/-- `(i + 1) & mask`. -/
def next (c : Cursor k) : Cursor k where
  word := (c.word + 1#w) &&& BitVec.ofNat w (2 ^ k.val - 1)
  lt := by
    rw [toNat_and_mask]
    exact Nat.mod_lt _ (Nat.two_pow_pos k)

/-- The position of the item with a number. -/
def ofCount (k : Fin w) (n : Nat) : Cursor k where
  word := BitVec.ofNat w (n % 2 ^ k.val)
  lt := by
    rw [BitVec.toNat_ofNat]
    exact (Nat.mod_le _ _).trans_lt (Nat.mod_lt _ (Nat.two_pow_pos k))

theorem toNat_ofCount (k : Fin w) (n : Nat) : (ofCount k n).word.toNat = n % 2 ^ k.val := by
  have hpow : 2 ^ k.val ≤ 2 ^ w := Nat.pow_le_pow_right (by decide) k.isLt.le
  have hlt : n % 2 ^ k.val < 2 ^ k.val := Nat.mod_lt _ (Nat.two_pow_pos k)
  show (BitVec.ofNat w (n % 2 ^ k.val)).toNat = _
  rw [BitVec.toNat_ofNat]
  apply Nat.mod_eq_of_lt
  omega

theorem ext {c d : Cursor k} (h : c.word.toNat = d.word.toNat) : c = d := by
  cases c
  cases d
  congr 1
  exact BitVec.eq_of_toNat_eq h

@[simp] theorem next_ofCount (n : Nat) : (ofCount k n).next = ofCount k (n + 1) := by
  apply ext
  have hdvd : 2 ^ k.val ∣ 2 ^ w := Nat.pow_dvd_pow 2 k.isLt.le
  have hone : (1#w).toNat = 1 % 2 ^ w := BitVec.toNat_ofNat 1 w
  show ((ofCount k n).word + 1#w &&& BitVec.ofNat w (2 ^ k.val - 1)).toNat = _
  rw [toNat_and_mask, BitVec.toNat_add, toNat_ofCount, toNat_ofCount, hone,
    Nat.mod_mod_of_dvd _ hdvd, Nat.add_mod, Nat.mod_mod, Nat.mod_mod_of_dvd _ hdvd,
    ← Nat.add_mod]

/-- A round further is the same position. -/
theorem ofCount_add_round (n : Nat) : ofCount k (n + 2 ^ k.val) = ofCount k n := by
  apply ext
  rw [toNat_ofCount, toNat_ofCount, Nat.add_mod_right]

/-- Less than a round apart, different items have different positions. -/
theorem ofCount_ne {m n : Nat} (hlt : m < n) (hround : n < m + 2 ^ k.val) :
    ofCount k m ≠ ofCount k n := by
  intro he
  have hmod : n % 2 ^ k.val = m % 2 ^ k.val := by
    rw [← toNat_ofCount k n, ← toNat_ofCount k m, he]
  have hzero := Nat.sub_mod_eq_zero_of_mod_eq hmod
  rw [Nat.mod_eq_of_lt (by omega)] at hzero
  omega

end Cursor

/-! ### The ring and its two threads -/

/-- Where the pushing thread is. Between `writing` and `storing` the slot holds neither the old
item nor the new one. -/
inductive Pusher (α : Type u) (k : Fin w) where
  | idle
  | called (x : α)
  | loaded (x : α) (tail : Cursor k)
  | writing (x : α) (tail : Cursor k)
  | halfway (x : α) (tail : Cursor k)
  | storing (x : α) (tail : Cursor k)

/-- Where the popping thread is: it has read its slot and not released it in `holding`, and
released it and not read it in `released`. -/
inductive Popper (α : Type u) (k : Fin w) where
  | idle
  | loaded (head : Cursor k)
  | found (head : Cursor k)
  | holding (head : Cursor k) (x : α)
  | released (head : Cursor k)

/-- The memory that the threads share, where they are, and the operations so far. An operation
counts when its last store is done, or when the load that decides on its failure is. -/
structure Ring (α : Type u) (k : Fin w) where
  buffer : Vector α (2 ^ k.val)
  head : Cursor k
  tail : Cursor k
  pusher : Pusher α k
  popper : Popper α k
  history : List (Op α)

/-- What a step of a push comes to. -/
inductive Verdict where
  | pending
  | accepted
  | refused
  deriving DecidableEq

/-- What a step of a pop comes to. -/
inductive Result (α : Type u) where
  | pending
  | empty
  | item (x : α)

/-- How a pop treats its slot: it reads the slot, which leaves there what `left` says, and then
releases it, or the other way round. -/
inductive Discipline (α : Type u) where
  | readFirst (left : α → α)
  | releaseFirst

namespace Ring

variable {α : Type u} {k : Fin w}

/-- A new ring. -/
def init (k : Fin w) (x : α) : Ring α k where
  buffer := Vector.replicate _ x
  head := .ofCount k 0
  tail := .ofCount k 0
  pusher := .idle
  popper := .idle
  history := []

def read (r : Ring α k) (c : Cursor k) : α := r.buffer.get ⟨c.word.toNat, c.lt⟩

def write (r : Ring α k) (c : Cursor k) (x : α) : Ring α k :=
  { r with buffer := r.buffer.set c.word.toNat x c.lt }

/-- The operation counts. -/
def log (r : Ring α k) (op : Op α) : Ring α k := { r with history := r.history ++ [op] }

/-- The thread calls push. -/
def call (r : Ring α k) (x : α) : Ring α k := { r with pusher := .called x }

/-- One step of a push. A write passes through a slot with contents `junk`. -/
def push (junk : α) (r : Ring α k) : Option (Ring α k × Verdict) :=
  match r.pusher with
  | .idle => none
  | .called x => some ({ r with pusher := .loaded x r.tail }, .pending)
  | .loaded x tail =>
    if tail.next = r.head then
      some ({ r.log (.refuse x) with pusher := .idle }, .refused)
    else some ({ r with pusher := .writing x tail }, .pending)
  | .writing x tail => some ({ r.write tail junk with pusher := .halfway x tail }, .pending)
  | .halfway x tail => some ({ r.write tail x with pusher := .storing x tail }, .pending)
  | .storing x tail =>
    some ({ r.log (.accept x) with tail := tail.next, pusher := .idle }, .accepted)

/-- One step of a pop. -/
def pop (d : Discipline α) (r : Ring α k) : Ring α k × Result α :=
  match r.popper with
  | .idle => ({ r with popper := .loaded r.head }, .pending)
  | .loaded head =>
    if head = r.tail then ({ r.log .empty with popper := .idle }, .empty)
    else ({ r with popper := .found head }, .pending)
  | .found head =>
    match d with
    | .readFirst left =>
      ({ r.write head (left (r.read head)) with popper := .holding head (r.read head) }, .pending)
    | .releaseFirst =>
      ({ r.log (.take (r.read head)) with head := head.next, popper := .released head }, .pending)
  | .holding head x => ({ r.log (.take x) with head := head.next, popper := .idle }, .item x)
  | .released head => ({ r with popper := .idle }, .item (r.read head))

/-- The items for which push has returned true. -/
def accepted (r : Ring α k) : List α := BoundedQueue.accepted r.history

/-- The items for which push has returned false. -/
def refused (r : Ring α k) : List α := BoundedQueue.refused r.history

/-- The items taken out. -/
def taken (r : Ring α k) : List α := BoundedQueue.taken r.history

/-- The number of items in the ring. -/
def held (r : Ring α k) : Nat := r.accepted.length - r.taken.length

variable {r r' : Ring α k} {c d : Cursor k} {x : α}

@[simp] theorem read_write_self (r : Ring α k) (c : Cursor k) (x : α) :
    (r.write c x).read c = x :=
  Vector.getElem_set_self c.lt

@[simp] theorem accepted_log (r : Ring α k) (op : Op α) :
    (r.log op).accepted = r.accepted ++ op.accepted := accepted_concat _ _

@[simp] theorem taken_log (r : Ring α k) (op : Op α) :
    (r.log op).taken = r.taken ++ op.taken := taken_concat _ _

theorem read_write_of_ne (h : c ≠ d) : (r.write c x).read d = r.read d :=
  Vector.getElem_set_ne c.lt d.lt fun he ↦ h (Cursor.ext he)

/-! ### What a step does -/

/-- The steps of a push, one constructor for each. -/
inductive Pushes (r : Ring α k) : Ring α k → Verdict → Prop
  | load {x : α} : r.pusher = .called x → Pushes r { r with pusher := .loaded x r.tail } .pending
  | refuse {x : α} {tail : Cursor k} : r.pusher = .loaded x tail → tail.next = r.head →
      Pushes r { r.log (.refuse x) with pusher := .idle } .refused
  | room {x : α} {tail : Cursor k} : r.pusher = .loaded x tail → tail.next ≠ r.head →
      Pushes r { r with pusher := .writing x tail } .pending
  | scribble {x : α} {tail : Cursor k} (junk : α) : r.pusher = .writing x tail →
      Pushes r { r.write tail junk with pusher := .halfway x tail } .pending
  | write {x : α} {tail : Cursor k} : r.pusher = .halfway x tail →
      Pushes r { r.write tail x with pusher := .storing x tail } .pending
  | store {x : α} {tail : Cursor k} : r.pusher = .storing x tail →
      Pushes r { r.log (.accept x) with tail := tail.next, pusher := .idle } .accepted

theorem push_pushes {junk : α} {v : Verdict} (h : r.push junk = some (r', v)) : Pushes r r' v := by
  unfold push at h
  split at h
  · exact absurd h (by simp)
  · next hpush =>
    obtain ⟨rfl, rfl⟩ := Prod.mk.inj (Option.some.inj h)
    exact .load hpush
  · next hpush =>
    split at h
    · next hfull =>
      obtain ⟨rfl, rfl⟩ := Prod.mk.inj (Option.some.inj h)
      exact .refuse hpush hfull
    · next hroom =>
      obtain ⟨rfl, rfl⟩ := Prod.mk.inj (Option.some.inj h)
      exact .room hpush hroom
  · next hpush =>
    obtain ⟨rfl, rfl⟩ := Prod.mk.inj (Option.some.inj h)
    exact .scribble junk hpush
  · next hpush =>
    obtain ⟨rfl, rfl⟩ := Prod.mk.inj (Option.some.inj h)
    exact .write hpush
  · next hpush =>
    obtain ⟨rfl, rfl⟩ := Prod.mk.inj (Option.some.inj h)
    exact .store hpush

/-- Only a thread that is in no call takes no step. -/
theorem push_eq_none {junk : α} (h : r.push junk = none) : r.pusher = .idle := by
  unfold push at h
  split at h
  · next hpush => exact hpush
  · exact absurd h (by simp)
  · split at h
    · exact absurd h (by simp)
    · exact absurd h (by simp)
  all_goals exact absurd h (by simp)

/-- The steps of a pop, one constructor for each. -/
inductive Pops (r : Ring α k) : Discipline α → Ring α k → Result α → Prop
  | load {d : Discipline α} : r.popper = .idle →
      Pops r d { r with popper := .loaded r.head } .pending
  | miss {d : Discipline α} {head : Cursor k} : r.popper = .loaded head → head = r.tail →
      Pops r d { r.log .empty with popper := .idle } .empty
  | find {d : Discipline α} {head : Cursor k} : r.popper = .loaded head → head ≠ r.tail →
      Pops r d { r with popper := .found head } .pending
  | copy {left : α → α} {head : Cursor k} : r.popper = .found head →
      Pops r (.readFirst left)
        { r.write head (left (r.read head)) with popper := .holding head (r.read head) } .pending
  | release {head : Cursor k} : r.popper = .found head →
      Pops r .releaseFirst
        { r.log (.take (r.read head)) with head := head.next, popper := .released head } .pending
  | store {d : Discipline α} {head : Cursor k} {x : α} : r.popper = .holding head x →
      Pops r d { r.log (.take x) with head := head.next, popper := .idle } (.item x)
  | read {d : Discipline α} {head : Cursor k} : r.popper = .released head →
      Pops r d { r with popper := .idle } (.item (r.read head))

theorem pop_pops {d : Discipline α} {a : Result α} (h : r.pop d = (r', a)) : Pops r d r' a := by
  unfold pop at h
  split at h
  · next hpop =>
    obtain ⟨rfl, rfl⟩ := Prod.mk.inj h
    exact .load hpop
  · next hpop =>
    split at h
    · next hempty =>
      obtain ⟨rfl, rfl⟩ := Prod.mk.inj h
      exact .miss hpop hempty
    · next hne =>
      obtain ⟨rfl, rfl⟩ := Prod.mk.inj h
      exact .find hpop hne
  · next hpop =>
    cases d with
    | readFirst left =>
      obtain ⟨rfl, rfl⟩ := Prod.mk.inj h
      exact .copy hpop
    | releaseFirst =>
      obtain ⟨rfl, rfl⟩ := Prod.mk.inj h
      exact .release hpop
  · next hpop =>
    obtain ⟨rfl, rfl⟩ := Prod.mk.inj h
    exact .store hpop
  · next hpop =>
    obtain ⟨rfl, rfl⟩ := Prod.mk.inj h
    exact .read hpop

theorem pop_step (d : Discipline α) (r : Ring α k) : Pops r d (r.pop d).1 (r.pop d).2 :=
  pop_pops rfl

end Ring

end RingProtocol
