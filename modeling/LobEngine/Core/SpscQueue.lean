import LobEngine.Lib.Interleaving
import LobEngine.Lib.RingInvariant

/-!
# The queue between two threads

`src/core/spsc_queue.hpp`. A cursor is a `std::size_t` of 64 bits.
-/

namespace LobEngine

open RingProtocol Interleaving

/-- `SpscQueue<T, Capacity>` with the threads that push and pop, for a capacity of `2 ^ k`. -/
abbrev SpscQueue (α : Type) (k : Fin 64) := Ring α k

/-- A step of one of the threads: a call of `push`, a step of that call, which may pass through
a slot that holds `junk`, or a step of `pop`. -/
inductive SpscQueueStep (α : Type) where
  | call (item : α)
  | push (junk : α)
  | pop

namespace SpscQueue

variable {α : Type} {k : Fin 64}

/-- `SpscQueue::push`, one step; `src/core/spsc_queue.hpp:12–20`. -/
def push (junk : α) (q : SpscQueue α k) : Option (SpscQueue α k) :=
  (Ring.push junk q).map Prod.fst

/-- `SpscQueue::pop`, one step; `src/core/spsc_queue.hpp:22–29`. The item is copied. -/
def pop (q : SpscQueue α k) : SpscQueue α k × Result α := Ring.pop (.readFirst id) q

def step (q : SpscQueue α k) : SpscQueueStep α → Option (SpscQueue α k)
  | .call item =>
    match q.pusher with
    | .idle => some (q.call item)
    | .called _ | .loaded _ _ | .writing _ _ | .halfway _ _ | .storing _ _ => none
  | .push junk => push junk q
  | .pop => some (pop q).1

variable {x : α} {as : List (SpscQueueStep α)} {q q' : SpscQueue α k} {a : SpscQueueStep α}

private theorem step_holds {items : List α} (h : q.Holds items) (hs : step q a = some q') :
    ∃ items', q'.Holds items' := by
  cases a with
  | call item =>
    simp only [step] at hs
    split at hs
    · obtain rfl := Option.some.inj hs
      exact ⟨items, h.call item⟩
    all_goals exact absurd hs (by simp)
  | push junk =>
    obtain ⟨⟨r, v⟩, hpush, rfl⟩ := Option.map_eq_some_iff.mp hs
    exact h.push (Ring.push_pushes hpush)
  | pop =>
    obtain rfl := Option.some.inj hs
    exact h.pop (Ring.pop_step _ q)

/-- In every interleaving the queue is a bounded queue. -/
theorem path_fifo (h : Path step (Ring.init k x : SpscQueue α k) as q) : q.Fifo := by
  have hholds := h.preserves (P := fun q ↦ ∃ items, Ring.Holds q items)
    (fun _ _ _ ⟨_, hq⟩ hs ↦ step_holds hq hs) ⟨[], .init k x⟩
  obtain ⟨items, hq⟩ := hholds
  exact hq.fifo

end SpscQueue

end LobEngine
