import NPFoundation.Lib.Run
import Mathlib.Data.Rat.Defs
import Mathlib.Algebra.Order.Ring.Unbundled.Rat

/-!
# `NPDispatchScheduleDebounce`: the blocks on the private queue

A debounce owns a serial queue and two captured variables, `canceled` and
`generation`. Three kinds of blocks run on the queue and touch them: `onSignal`,
`onCancel`, and the event handler of a one-shot timer source, one of which every
executed `onSignal` creates. A handler that passes its check hands the callback to
the queue `on`.

`State` is what the blocks share, and the three functions on it are the blocks.
Time stays outside: when a timer may fire is decided by its deadline, which the
serial queue's `queueStep` keeps next to the state.
-/

namespace NPFoundation.Debounce

open Transition

/-- A one-shot timer source, with the generation its handler captured. -/
structure Timer where
  current : UInt64
  /-- Cleared by the handler's own `dispatch_source_cancel`. -/
  armed : Bool
  deriving DecidableEq, Repr

/-- The captured variables, and the timers created so far: the `i`-th belongs to the `i`-th
executed signal. -/
structure State where
  canceled : Bool
  generation : UInt64
  timers : List Timer
  deriving DecidableEq, Repr

def State.init : State := { canceled := false, generation := 0, timers := [] }

/-- The `onSignal` block. -/
def State.onSignal (d : State) : State :=
  { canceled := false
    generation := d.generation + 1
    timers := d.timers ++ [{ current := d.generation + 1, armed := true }] }

/-- The `onCancel` block. -/
def State.onCancel (d : State) : State := { d with canceled := true }

/-- The event handler of timer `i`: the new state, and whether the callback is dispatched. -/
def State.onTimer (d : State) (i : Nat) : State × Bool :=
  match d.timers[i]? with
  | none => (d, false)
  | some timer =>
      ({ d with timers := d.timers.set i { timer with armed := false } },
        !d.canceled && timer.current == d.generation)

/-- A block on the private queue. -/
inductive Work where
  | onSignal
  | onCancel
  | onTimer (i : Nat)
  deriving DecidableEq, Repr

/-- Execute one block; the flag says whether it dispatched the callback. -/
def State.execute (d : State) : Work → State × Bool
  | .onSignal => (d.onSignal, false)
  | .onCancel => (d.onCancel, false)
  | .onTimer i => d.onTimer i

/-! ## The serial queue and its clock -/

/-- The shared state, and the deadline `dispatch_source_set_timer` gave each timer. -/
structure QueueState where
  state : State
  deadlines : List ℚ
  deriving DecidableEq

def QueueState.init : QueueState := { state := State.init, deadlines := [] }

/-- A block executed at a moment. -/
structure Event where
  work : Work
  now : ℚ
  deriving DecidableEq

/-- Timer `i` may deliver its event: it is still armed and its deadline has come. -/
def QueueState.due (q : QueueState) (i : Nat) (now : ℚ) : Bool :=
  match q.state.timers[i]?, q.deadlines[i]? with
  | some timer, some deadline => timer.armed && decide (deadline ≤ now)
  | _, _ => false

/-- One block of the serial queue. Timers fire in any order, each at most once and never
before its deadline; how much later is the leeway. -/
def queueStep (delayInSeconds : ℚ) (q : QueueState) (e : Event) : Option QueueState :=
  match e.work with
  | .onSignal => some
      { state := q.state.onSignal, deadlines := q.deadlines ++ [e.now + delayInSeconds] }
  | .onCancel => some { q with state := q.state.onCancel }
  | .onTimer i =>
      if q.due i e.now then some { q with state := (q.state.onTimer i).1 } else none

end NPFoundation.Debounce
