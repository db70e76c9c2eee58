import NPFoundation.Lib.Run
import Mathlib.Logic.Function.Basic

/-!
# `NPTimer`: flags under a lock, libdispatch calls after it

`-[_NPTimer resume:]`, `suspend:` and `cancel:` all have one shape. Under
`_unfair_lock` they look at the two flags, update them and decide what there is
to do; then they drop the lock, and only after that do they call libdispatch. So
a call is one atomic flag update followed by up to two separate steps, and other
threads run in between.

A thread is represented by the libdispatch calls its current call still owes.
The system is the flags, what every thread owes, and how often each libdispatch
function has been executed.
-/

namespace NPFoundation.Timer

open Transition

/-- The libdispatch functions a call may still have to execute. -/
inductive DispatchCall where
  | dispatchSuspend
  | dispatchResume
  | dispatchSourceCancel
  deriving DecidableEq, Repr

open DispatchCall

/-- The state of a `_NPTimer` that its lock protects. -/
structure NPTimer where
  isCancelled : Bool
  isSuspended : Bool
  deriving DecidableEq, Repr

/-- `-[_NPTimer init]`. -/
def NPTimer.init : NPTimer := { isCancelled := false, isSuspended := false }

/-- `-[_NPTimer resume:]`: the flags after the lock is dropped, and what is left to call. -/
def NPTimer.resume (n : NPTimer) : NPTimer × List DispatchCall :=
  if !n.isCancelled && n.isSuspended then
    ({ n with isSuspended := false }, [dispatchResume])
  else
    (n, [])

/-- `-[_NPTimer suspend:]`. -/
def NPTimer.suspend (n : NPTimer) : NPTimer × List DispatchCall :=
  if !n.isCancelled && !n.isSuspended then
    ({ n with isSuspended := true }, [dispatchSuspend])
  else
    (n, [])

/-- `-[_NPTimer cancel:]`. A suspended timer is resumed after its source is cancelled. -/
def NPTimer.cancel (n : NPTimer) : NPTimer × List DispatchCall :=
  if !n.isCancelled then
    -- `wasSuspended` is read before the flag is cleared
    ({ isCancelled := true, isSuspended := false },
      dispatchSourceCancel :: if n.isSuspended then [dispatchResume] else [])
  else
    (n, [])

/-- The three entry points. The deallocation handler of `NPDispatchTimerObservable` is one
more caller of `timerCancel`. -/
inductive Call where
  | timerResume
  | timerSuspend
  | timerCancel
  deriving DecidableEq, Repr

/-- `NPDispatchTimerResume`, `NPDispatchTimerSuspend` and `NPDispatchTimerCancel`. -/
def NPTimer.update (n : NPTimer) : Call → NPTimer × List DispatchCall
  | .timerResume => n.resume
  | .timerSuspend => n.suspend
  | .timerCancel => n.cancel

/-- One timer and the threads that use it. -/
structure World (τ : Type) where
  timer : NPTimer
  /-- What the call in progress on each thread still has to execute. -/
  inFlight : τ → List DispatchCall
  /-- Executed `dispatch_suspend`s. -/
  suspends : Nat
  /-- Executed `dispatch_resume`s. -/
  resumes : Nat
  /-- Executed `dispatch_source_cancel`s. -/
  cancels : Nat
  /-- Some `dispatch_resume` found the suspend count at zero; libdispatch traps there. -/
  overResumed : Bool

variable {τ : Type}

/-- The suspend count of the source, 0 once it has been activated. -/
def World.suspendCount (w : World τ) : Int := w.suspends - w.resumes

/-- The timer as `NPDispatchTimer` returns it: activated, and nobody has called anything. -/
def World.init (τ : Type) : World τ where
  timer := NPTimer.init
  inFlight := fun _ => []
  suspends := 0
  resumes := 0
  cancels := 0
  overResumed := false

/-- Execute one libdispatch function on the source. -/
def World.execute (w : World τ) : DispatchCall → World τ
  | dispatchSuspend => { w with suspends := w.suspends + 1 }
  | dispatchResume =>
      { w with
        resumes := w.resumes + 1
        overResumed := w.overResumed || decide (w.suspendCount = 0) }
  | dispatchSourceCancel => { w with cancels := w.cancels + 1 }

/-- A scheduler choice. -/
inductive Action (τ : Type) where
  /-- Thread `t`, which has no call in progress, enters and leaves the lock of a new one. -/
  | call (t : τ) (c : Call)
  /-- Thread `t` executes the next libdispatch function its call owes. -/
  | exec (t : τ)
  deriving DecidableEq, Repr

variable [DecidableEq τ]

/-- One step of one thread. -/
def step (w : World τ) : Action τ → Option (World τ)
  | .call t c =>
      if w.inFlight t = [] then
        some { w with
          timer := (w.timer.update c).1
          inFlight := Function.update w.inFlight t (w.timer.update c).2 }
      else none
  | .exec t =>
      match w.inFlight t with
      | [] => none
      | d :: rest =>
          some { w.execute d with inFlight := Function.update w.inFlight t rest }

end NPFoundation.Timer
