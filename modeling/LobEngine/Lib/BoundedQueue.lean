import Mathlib.Data.List.Induction

/-!
# Queues of bounded length

A queue that holds at most `n` items, as a specification: it refuses an item exactly when it
holds `n`, and hands out the item that came first. `Run` says which histories of operations it
allows, and what it holds after them.
-/

universe u

namespace BoundedQueue

/-- What a call to the queue comes to. -/
inductive Op (α : Type u) where
  | accept (x : α)
  | refuse (x : α)
  | take (x : α)
  | empty

namespace Op

variable {α : Type u}

/-- The item offered, with the answer. -/
def offer : Op α → List (α × Bool)
  | accept x => [(x, true)]
  | refuse x => [(x, false)]
  | take _ | empty => []

def accepted : Op α → List α
  | accept x => [x]
  | refuse _ | take _ | empty => []

def refused : Op α → List α
  | refuse x => [x]
  | accept _ | take _ | empty => []

def taken : Op α → List α
  | take x => [x]
  | accept _ | refuse _ | empty => []

end Op

variable {α : Type u}

/-- The offered items in order, each with the answer. -/
def offers (ops : List (Op α)) : List (α × Bool) := ops.flatMap Op.offer

/-- The accepted items, first come first. -/
def accepted (ops : List (Op α)) : List α := ops.flatMap Op.accepted

/-- The refused items. -/
def refused (ops : List (Op α)) : List α := ops.flatMap Op.refused

/-- The items handed out. -/
def taken (ops : List (Op α)) : List α := ops.flatMap Op.taken

variable {ops : List (Op α)} {op : Op α} {q : List α} {x : α} {n : Nat}

@[simp] theorem offers_concat (ops : List (Op α)) (op : Op α) :
    offers (ops ++ [op]) = offers ops ++ op.offer := by
  rw [offers, List.flatMap_append, List.flatMap_singleton]
  rfl

@[simp] theorem accepted_concat (ops : List (Op α)) (op : Op α) :
    accepted (ops ++ [op]) = accepted ops ++ op.accepted := by
  rw [accepted, List.flatMap_append, List.flatMap_singleton]
  rfl

@[simp] theorem refused_concat (ops : List (Op α)) (op : Op α) :
    refused (ops ++ [op]) = refused ops ++ op.refused := by
  rw [refused, List.flatMap_append, List.flatMap_singleton]
  rfl

@[simp] theorem taken_concat (ops : List (Op α)) (op : Op α) :
    taken (ops ++ [op]) = taken ops ++ op.taken := by
  rw [taken, List.flatMap_append, List.flatMap_singleton]
  rfl

/-- Every offer is accepted or refused. -/
theorem accepted_eq_offers (ops : List (Op α)) :
    accepted ops = ((offers ops).filter Prod.snd).map Prod.fst := by
  induction ops using List.reverseRecOn with
  | nil => rfl
  | append_singleton ops op ih =>
    rw [accepted_concat, offers_concat, List.filter_append, List.map_append, ih]
    cases op <;> rfl

theorem refused_eq_offers (ops : List (Op α)) :
    refused ops = ((offers ops).filter (!·.2)).map Prod.fst := by
  induction ops using List.reverseRecOn with
  | nil => rfl
  | append_singleton ops op ih =>
    rw [refused_concat, offers_concat, List.filter_append, List.map_append, ih]
    cases op <;> rfl

theorem length_offers (ops : List (Op α)) :
    (offers ops).length = (accepted ops).length + (refused ops).length := by
  induction ops using List.reverseRecOn with
  | nil => rfl
  | append_singleton ops op ih =>
    rw [offers_concat, accepted_concat, refused_concat]
    cases op <;> simp only [Op.offer, Op.accepted, Op.refused, List.length_append, List.length_nil,
      List.length_singleton] <;> omega

/-- The histories of a queue that holds at most `n` items, with what it holds after them. -/
inductive Run (n : Nat) : List (Op α) → List α → Prop
  | nil : Run n [] []
  | accept {ops : List (Op α)} {q : List α} {x : α} :
      Run n ops q → q.length < n → Run n (ops ++ [.accept x]) (q ++ [x])
  | refuse {ops : List (Op α)} {q : List α} {x : α} :
      Run n ops q → q.length = n → Run n (ops ++ [.refuse x]) q
  | take {ops : List (Op α)} {q : List α} {x : α} :
      Run n ops (x :: q) → Run n (ops ++ [.take x]) q
  | empty {ops : List (Op α)} : Run n ops [] → Run n (ops ++ [.empty]) []

namespace Run

/-- What was accepted and not handed out is held, in order. -/
theorem accepted_eq (h : Run n ops q) : accepted ops = taken ops ++ q := by
  induction h with
  | nil => rfl
  | accept _ _ ih =>
    rw [accepted_concat, taken_concat, ih, List.append_assoc]
    show _ = (_ ++ []) ++ _
    rw [List.append_nil]
    rfl
  | refuse _ _ ih =>
    rw [accepted_concat, taken_concat]
    simpa only [Op.accepted, Op.taken, List.append_nil] using ih
  | take _ ih =>
    rw [accepted_concat, taken_concat, ih]
    show _ ++ [] = (_ ++ [_]) ++ _
    rw [List.append_nil, List.append_assoc]
    rfl
  | empty _ ih =>
    rw [accepted_concat, taken_concat]
    simpa only [Op.accepted, Op.taken, List.append_nil] using ih

theorem length_le (h : Run n ops q) : q.length ≤ n := by
  induction h with
  | nil => exact Nat.zero_le n
  | accept _ hroom =>
    rw [List.length_append, List.length_singleton]
    exact hroom
  | refuse _ hfull => exact Nat.le_of_eq hfull
  | take _ ih => exact Nat.le_of_succ_le ih
  | empty _ ih => exact ih

theorem taken_prefix (h : Run n ops q) : taken ops <+: accepted ops :=
  ⟨q, h.accepted_eq.symm⟩

/-- The queue holds what the history says. -/
theorem eq_drop (h : Run n ops q) : q = (accepted ops).drop (taken ops).length := by
  rw [h.accepted_eq, List.drop_left]

theorem length_eq (h : Run n ops q) :
    (accepted ops).length = (taken ops).length + q.length := by
  rw [h.accepted_eq, List.length_append]

end Run

end BoundedQueue
