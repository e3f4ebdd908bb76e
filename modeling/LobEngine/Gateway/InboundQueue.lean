import LobEngine.Gateway.Message
import LobEngine.Lib.Interleaving
import LobEngine.Lib.RingFeed

/-!
# The inbound queue

`Gateway::inbound_push` and `Gateway::inbound_pop`; `src/gateway/gateway.cpp:87–106`. A cursor is
a `uint32_t`.
-/

namespace LobEngine

open RingProtocol Interleaving

/-- The inbound queue of the gateway with its two threads, for a capacity of `2 ^ k`;
`src/gateway/gateway.hpp:77–82`. -/
abbrev InboundQueue (k : Fin 32) := Feed OrderMessage k

/-- A step of one of the threads. What moving a message out of its slot leaves there is not
specified, so `left` can be any function. -/
inductive InboundStep where
  | call (msg : OrderMessage)
  | push (junk : OrderMessage)
  | pop (left : OrderMessage → OrderMessage)
  | finish

namespace InboundQueue

variable {k : Fin 32}

/-- A call of `inbound_push`. -/
def inboundPush (msg : OrderMessage) (q : InboundQueue k) : Option (InboundQueue k) :=
  q.call [msg]

/-- `Gateway::inbound_pop`, one step. -/
def inboundPop (left : OrderMessage → OrderMessage) (q : InboundQueue k) :
    InboundQueue k × Result OrderMessage :=
  q.pop (.readFirst left)

def step (q : InboundQueue k) : InboundStep → Option (InboundQueue k)
  | .call msg => inboundPush msg q
  | .push junk => q.push junk
  | .pop left => some (inboundPop left q).1
  | .finish => q.finish

variable {as : List InboundStep} {q q' : InboundQueue k} {a : InboundStep}

private theorem step_sound (h : q.Sound) (hs : step q a = some q') : q'.Sound := by
  cases a with
  | call msg => exact h.move (Feed.call_moves hs)
  | push junk => exact h.move (Feed.push_moves hs)
  | pop left =>
    obtain rfl := Option.some.inj hs
    exact h.pop (Ring.pop_step _ q.ring)
  | finish => exact h.move (Feed.finish_moves hs)

theorem path_sound (h : Path step (Feed.init k {}) as q) : q.Sound :=
  h.preserves (fun _ _ _ ↦ step_sound) (.init k _)

end InboundQueue

end LobEngine
