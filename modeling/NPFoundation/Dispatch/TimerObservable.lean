import NPFoundation.Dispatch.Timer
import NPFoundation.ObjC.ValueObserving

/-!
# `NPDispatchTimerObservable`: timers that end with an object

The two models side by side: the objects with their deallocation handlers, and any number
of timers. `NPDispatchTimerObservable` makes a timer and attaches a handler that cancels it,
so the deallocation of the object, on whatever thread it happens, is one more caller of
`NPDispatchTimerCancel`. For a null object the handler is called before the timer is
returned.

`NPDispatchTimer` associates the `_NPTimer` before it returns, so every call that has the
timer finds one.
-/

namespace NPFoundation.Timer.Observable

open Transition ObjC

/-- A deallocation handler: the one `NPDispatchTimerObservable` attaches, or another one. -/
inductive Handler (κ η : Type) where
  | cancelTimer (k : κ)
  | other (handler : η)
  deriving DecidableEq, Repr

structure System (τ ω κ η : Type) where
  observing : Observing.System τ ω (Handler κ η)
  /-- The timers that were made. -/
  timers : κ → Option (World τ)
  /-- The timer that thread `t` is in a call on. -/
  inCall : τ → Option κ

/-- A scheduler choice. -/
inductive Action (τ ω κ η : Type) where
  /-- Thread `t` calls `NPDispatchTimer`, which makes timer `k`. -/
  | dispatchTimer (t : τ) (k : κ)
  | dispatchTimerObservable (t : τ) (observable : Option ω) (k : κ)
  /-- `NPAttachDeallocationHandler` with a handler of another kind. -/
  | attach (t : τ) (observable : Option ω) (handler : η)
  | release (t : τ) (observable : ω)
  /-- `NPDispatchTimerResume`, `NPDispatchTimerSuspend` or `NPDispatchTimerCancel`. -/
  | call (t : τ) (k : κ) (c : Call)
  /-- Thread `t` goes on. -/
  | advance (t : τ)
  deriving DecidableEq, Repr

variable {τ ω κ η : Type}

/-- The handler that thread `t`, in the `-dealloc` of an observing object, calls next. -/
def nextHandler (s : Observing.System τ ω η) (t : τ) : Option η :=
  match s.frames t with
  | .dealloc o :: _ =>
      match s.objects o with
      | .calling b n => (s.observings b).bind fun v => v.handlers[n]?
      | _ => none
  | _ => none

namespace System

def start : System τ ω κ η where
  observing := .start
  timers _ := none
  inCall _ := none

variable [DecidableEq τ] [DecidableEq ω] [DecidableEq κ]

/-- `NPDispatchTimer`: activated, and with its `_NPTimer`. -/
def npDispatchTimer (s : System τ ω κ η) (k : κ) : Option (System τ ω κ η) :=
  match s.timers k with
  | none => some { s with timers := Function.update s.timers k (some (World.init τ)) }
  | some _ => none

/-- Thread `t` takes a step on timer `k`. -/
def onTimer (s : System τ ω κ η) (t : τ) (k : κ) (a : Timer.Action τ) :
    Option (System τ ω κ η) :=
  match s.timers k with
  | none => none
  | some w =>
      (Timer.step w a).map fun w' =>
        { s with
          timers := Function.update s.timers k (some w')
          inCall := Function.update s.inCall t (if w'.inFlight t = [] then none else some k) }

/-- Thread `t` has just called `handler`; the one that cancels a timer goes as far as the update
of its flags. -/
def enter (s : System τ ω κ η) (t : τ) : Handler κ η → Option (System τ ω κ η)
  | .cancelTimer k => s.onTimer t k (.call t .timerCancel)
  | .other _ => some s

variable [Fintype τ]

/-- `NPAttachDeallocationHandler`. -/
def attach (s : System τ ω κ η) (t : τ) (observable : Option ω) (handler : Handler κ η) :
    Option (System τ ω κ η) :=
  match Observing.System.step s.observing (.attach t observable handler) with
  | none => none
  | some observing =>
      match observable with
      | none => { s with observing := observing }.enter t handler
      | some _ => some { s with observing := observing }

/-- The next step of thread `t`. -/
def advance (s : System τ ω κ η) (t : τ) : Option (System τ ω κ η) :=
  match s.inCall t with
  | some k => s.onTimer t k (.exec t)
  | none =>
      match Observing.System.step s.observing (.advance t) with
      | none => none
      | some observing =>
          match nextHandler s.observing t with
          | some handler => { s with observing := observing }.enter t handler
          | none => some { s with observing := observing }

/-- One step of a schedule. A thread that is in a call does nothing else. -/
def step (s : System τ ω κ η) : Action τ ω κ η → Option (System τ ω κ η)
  | .dispatchTimer t k =>
      if s.inCall t = none ∧ s.observing.InUserCode t then s.npDispatchTimer k else none
  | .dispatchTimerObservable t observable k =>
      if s.inCall t = none then
        (s.npDispatchTimer k).bind fun s' => s'.attach t observable (.cancelTimer k)
      else none
  | .attach t observable h =>
      if s.inCall t = none then s.attach t observable (.other h) else none
  | .release t o =>
      if s.inCall t = none then
        (Observing.System.step s.observing (.release t o)).map fun observing =>
          { s with observing := observing }
      else none
  | .call t k c =>
      if s.inCall t = none ∧ s.observing.InUserCode t then s.onTimer t k (.call t c) else none
  | .advance t => s.advance t

end System

end NPFoundation.Timer.Observable
