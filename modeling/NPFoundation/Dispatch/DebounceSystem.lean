import NPFoundation.Dispatch.Debounce
import Mathlib.Logic.Function.Basic

/-!
# A debounce between its callers and the queue `on`

`NPScheduleWorkSignal` and `NPScheduleWorkCancel` do nothing but `dispatch_async` a
block onto the private queue; the timers deliver their handlers there too; and a
handler that passes its check only `dispatch_async`s the callback onto `on`. Every
one of those hops is a step of its own here, and the scheduler picks the order.
-/

namespace NPFoundation.Debounce

open Transition

/-- The two entry points of an `NPScheduleWorkRef`. -/
inductive ScheduleCall where
  | scheduleWorkSignal
  | scheduleWorkCancel
  deriving DecidableEq, Repr

open ScheduleCall

/-- The block a call enqueues. -/
def ScheduleCall.work : ScheduleCall → Work
  | scheduleWorkSignal => .onSignal
  | scheduleWorkCancel => .onCancel

/-- Where a caller thread is. -/
inductive Phase where
  | idle
  /-- The call has begun and has not reached its `dispatch_async`. -/
  | calling (c : ScheduleCall)
  /-- The block is enqueued and the call has not returned. -/
  | returning (c : ScheduleCall)
  deriving DecidableEq, Repr

/-- A debounce, its queues and its callers. -/
structure System (τ : Type) where
  blocks : QueueState
  /-- Blocks waiting on the private serial queue, first in first out. -/
  queue : List Work
  /-- The handler running on the private queue has passed its check and is about to
  `dispatch_async` the callback. -/
  dispatching : Bool
  /-- Callbacks waiting on `on`. -/
  on : Nat
  /-- Callbacks that have started executing. -/
  started : Nat
  callers : τ → Phase
  clock : ℚ

variable {τ : Type}

def System.init (τ : Type) : System τ where
  blocks := QueueState.init
  queue := []
  dispatching := false
  on := 0
  started := 0
  callers := fun _ => .idle
  clock := 0

/-- A scheduler choice. -/
inductive Action (τ : Type) where
  | call (t : τ) (c : ScheduleCall)
  | enqueue (t : τ)
  | ret (t : τ)
  /-- Time passes. -/
  | tick (d : ℚ)
  /-- Timer `i` delivers its event to the private queue. -/
  | fire (i : Nat)
  /-- The private queue executes its next block. -/
  | runQueue
  /-- The running handler hands the callback to `on`. -/
  | dispatch
  /-- `on` starts the next callback. -/
  | start
  deriving DecidableEq

/-- The action is the beginning of an `NPScheduleWorkSignal`. -/
def Action.IsSignal : Action τ → Prop
  | .call _ scheduleWorkSignal => True
  | _ => False

/-- The block that a step runs on the private queue, and when. -/
def System.executes (s : System τ) : Action τ → Option Event
  | .runQueue => s.queue.head?.map fun w => { work := w, now := s.clock }
  | _ => none

/-- Execute a block at the present time. A signal's timer gets its deadline from now. -/
def System.execute (delayInSeconds : ℚ) (s : System τ) (w : Work) : QueueState :=
  { state := (s.blocks.state.execute w).1
    deadlines := match w with
      | .onSignal => s.blocks.deadlines ++ [s.clock + delayInSeconds]
      | _ => s.blocks.deadlines }

variable [DecidableEq τ]

/-- One step of the system. -/
def step (delayInSeconds : ℚ) (s : System τ) : Action τ → Option (System τ)
  | .call t c =>
      if s.callers t = .idle then
        some { s with callers := Function.update s.callers t (.calling c) }
      else none
  | .enqueue t =>
      match s.callers t with
      | .calling c => some
          { s with
            callers := Function.update s.callers t (.returning c)
            queue := s.queue ++ [c.work] }
      | _ => none
  | .ret t =>
      match s.callers t with
      | .returning _ => some { s with callers := Function.update s.callers t .idle }
      | _ => none
  | .tick d => if 0 ≤ d then some { s with clock := s.clock + d } else none
  | .fire i =>
      if s.blocks.due i s.clock ∧ .onTimer i ∉ s.queue then
        some { s with queue := s.queue ++ [.onTimer i] }
      else none
  | .runQueue =>
      match s.dispatching, s.queue with
      | false, w :: ws => some
          { s with
            blocks := s.execute delayInSeconds w
            queue := ws
            dispatching := (s.blocks.state.execute w).2 }
      | _, _ => none
  | .dispatch =>
      if s.dispatching then some { s with dispatching := false, on := s.on + 1 } else none
  | .start =>
      if 0 < s.on then some { s with on := s.on - 1, started := s.started + 1 } else none

/-- The blocks that a run executes on the private queue. -/
def executed (delayInSeconds : ℚ) (as : List (Action τ)) : List Event :=
  observed (step delayInSeconds) System.executes (System.init τ) as

end NPFoundation.Debounce
