/-!
# A thread that is stopped and joined

`EventDispatcher` and `ReplayLogger` run a thread that looks at a flag, empties a ring and passes
on what it takes. Their `stop` lowers the flag and joins the thread, which empties the ring once
more before it ends; `src/gateway/event_dispatcher.cpp:38–43`,
`src/gateway/replay_logger.cpp:28–33`.
-/

namespace LobEngine

/-- Where the caller of `stop` is. -/
inductive JoinPoint where
  | calling
  | joining
  | returned
  deriving DecidableEq

/-- Where the thread is: it looks at the flag, takes from the ring, passes on `x`, or is gone.
In the drain after its loop `last` is true. -/
inductive WorkerPoint (β : Type) where
  | testing
  | draining (last : Bool)
  | emitting (x : β) (last : Bool)
  | exited

namespace WorkerPoint

variable {β : Type}

/-- The thread has left its loop. -/
def Closing : WorkerPoint β → Prop
  | testing => False
  | draining last | emitting _ last => last = true
  | exited => True

/-- What the thread has taken and not passed on. -/
def inHand : WorkerPoint β → List β
  | emitting x _ => [x]
  | testing | draining _ | exited => []

end WorkerPoint

/-- The thread, its flag and the caller of `stop`. -/
structure Worker (β : Type) where
  running : Bool
  point : WorkerPoint β
  stopper : JoinPoint

namespace Worker

variable {β : Type}

/-- The thread when `start` returns. -/
def started : Worker β where
  running := true
  point := .testing
  stopper := .calling

def goto (w : Worker β) (p : WorkerPoint β) : Worker β := { w with point := p }

@[simp] theorem goto_point (w : Worker β) (p : WorkerPoint β) : (w.goto p).point = p := rfl

/-- One step of `stop`; the join waits for the thread. -/
def stop (w : Worker β) : Option (Worker β) :=
  match w.stopper, w.point with
  | .calling, _ =>
    some { w with running := false, stopper := if w.running then .joining else .returned }
  | .joining, .exited => some { w with stopper := .returned }
  | .joining, .testing | .joining, .draining _ | .joining, .emitting _ _ | .returned, _ => none

/-- The thread leaves its loop after the call of `stop`, which returns after its end. -/
structure Sound (w : Worker β) : Prop where
  calling : w.stopper = .calling → w.running = true
  closing : w.point.Closing → w.running = false
  returned : w.stopper = .returned → w.point = .exited

variable {w w' : Worker β} {p : WorkerPoint β}

theorem Sound.started : (started : Worker β).Sound where
  calling _ := rfl
  closing h := h.elim
  returned h := JoinPoint.noConfusion h

theorem Sound.goto (h : w.Sound) (hne : w.point ≠ .exited) (hp : p.Closing → w.running = false) :
    (w.goto p).Sound where
  calling := h.calling
  closing := hp
  returned hr := absurd (h.returned hr) hne

/-- The thread has looked at the flag. -/
theorem Sound.test (h : w.Sound) (hpoint : w.point = .testing) :
    (w.goto (.draining (!w.running))).Sound := by
  apply h.goto
  · simp [hpoint]
  · exact fun hlast ↦ (Bool.not_eq_true' _).mp hlast

/-- The thread moves on and leaves its loop no earlier than before. -/
theorem Sound.advance (h : w.Sound) (hne : w.point ≠ .exited) (hp : p.Closing → w.point.Closing) :
    (w.goto p).Sound := h.goto hne fun hclosing ↦ h.closing (hp hclosing)

/-- The thread has found the ring empty. -/
theorem Sound.drained {last : Bool} (h : w.Sound) (hpoint : w.point = .draining last) :
    (w.goto (if last then .exited else .testing)).Sound := by
  apply h.advance
  · simp [hpoint]
  · rw [hpoint]
    cases last with
    | true => exact fun _ ↦ rfl
    | false => exact fun hlast ↦ hlast.elim

/-- Before `stop` is called the thread is in its loop. -/
theorem Sound.not_exited (h : w.Sound) (hc : w.stopper = .calling) : w.point ≠ .exited := by
  intro hexited
  have hfalse : w.running = false := h.closing (by rw [hexited]; trivial)
  rw [h.calling hc] at hfalse
  exact absurd hfalse (by decide)

theorem Sound.stop (h : w.Sound) (hs : w.stop = some w') : w'.Sound ∧ w'.point = w.point := by
  unfold Worker.stop at hs
  split at hs
  · next hc =>
    obtain rfl := Option.some.inj hs
    constructor
    · constructor
      · simp only [h.calling hc]
        exact fun hj ↦ absurd hj (by decide)
      · exact fun _ ↦ rfl
      · simp only [h.calling hc]
        exact fun hj ↦ absurd hj (by decide)
    · rfl
  · next hexited =>
    obtain rfl := Option.some.inj hs
    constructor
    · constructor
      · exact fun hj ↦ JoinPoint.noConfusion hj
      · exact h.closing
      · exact fun _ ↦ hexited
    · rfl
  all_goals exact absurd hs (by simp)

end Worker

end LobEngine
