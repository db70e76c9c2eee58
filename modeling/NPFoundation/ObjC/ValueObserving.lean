import NPFoundation.Lib.Run
import NPFoundation.Lib.Tally

/-!
# `NPAttachDeallocationHandler` used from many threads

The first handler of an object makes a `NPNSValueObserving` and associates it with the
object; the handlers after it find that one. Looking for it, making it and adding to it are
steps of their own here, with `@synchronized (observable)` around them.

The observing object has no owner but the association. It goes when the object's last
reference goes: after the object's own `-dealloc` the runtime removes the association, and
`-[NPNSValueObserving dealloc]` calls the handlers it has. A handler may do anything, attach
handlers to other objects and drop the last reference to them included, so what a thread is
in the middle of is a stack of frames.

What is attached and what is called is also noted down in a journal. No step looks at it.
-/

namespace NPFoundation.ObjC.Observing

/-- `NPNSValueObserving`: the handlers it holds. -/
structure ValueObserving (η : Type) where
  handlers : List η
  deriving DecidableEq, Repr

/-- `-[NPNSValueObserving init]`. -/
def ValueObserving.init {η : Type} : ValueObserving η := ⟨[]⟩

/-- `-[NPNSValueObserving addObserverHandler:]`. -/
def ValueObserving.addObserverHandler {η : Type} (v : ValueObserving η) (handler : η) :
    ValueObserving η :=
  ⟨v.handlers ++ [handler]⟩

/-- How far the life of an object has got. -/
inductive Lifetime where
  | live
  /-- Its last reference is gone, its associated objects are not yet. -/
  | destructing
  /-- Its observing object is in `-dealloc`, and has called the first `n` handlers. -/
  | calling (observing n : Nat)
  | gone
  deriving DecidableEq, Repr

/-- What a thread is in the middle of. -/
inductive Frame (ω η : Type) where
  /-- At `@synchronized (observable)`. -/
  | synchronize (observable : ω) (handler : η)
  /-- `objc_getAssociatedObject`. -/
  | getAssociated (observable : ω) (handler : η)
  /-- There was none: `[NPNSValueObserving new]` and `objc_setAssociatedObject`. -/
  | create (observable : ω) (handler : η)
  /-- `[observing addObserverHandler:handler]`. -/
  | addHandler (observable : ω) (handler : η) (observing : Nat)
  /-- At the end of the `@synchronized` block. -/
  | unlock (observable : ω)
  /-- In a handler. -/
  | handling (handler : η)
  /-- In the `-dealloc` of the object itself. -/
  | destruct (observable : ω)
  /-- In the `-dealloc` of its observing object. -/
  | dealloc (observable : ω)
  deriving DecidableEq, Repr

/-- What happens. -/
inductive Event (ω η : Type) where
  | requested (observable : ω) (handler : η)
  | created (observable : ω)
  | attached (observable : ω) (handler : η)
  /-- A handler is called: at once for a null object, else by the deallocation. -/
  | called (observable : Option ω) (handler : η)
  deriving DecidableEq, Repr

structure System (τ ω η : Type) where
  objects : ω → Lifetime
  /-- Who is in the `@synchronized` block of an object. Nothing in the block calls out, so nobody
  enters it twice. -/
  locks : ω → Option τ
  /-- The associated objects under `key`. -/
  associations : ω → Option Nat
  observings : Nat → Option (ValueObserving η)
  /-- The number of the next observing object. -/
  next : Nat
  frames : τ → List (Frame ω η)
  journal : List (Event ω η)

/-- A schedule is a list of these. -/
inductive Action (τ ω η : Type) where
  /-- Thread `t` calls `NPAttachDeallocationHandler`. -/
  | attach (t : τ) (observable : Option ω) (handler : η)
  /-- Thread `t` drops the last reference to an object. -/
  | release (t : τ) (observable : ω)
  /-- Thread `t` goes on; in a handler, it returns from it. -/
  | advance (t : τ)
  deriving DecidableEq, Repr

variable {τ ω η : Type}

namespace Frame

/-- The object that a call of `NPAttachDeallocationHandler` is about: the caller has a reference
to it. -/
def attaching : Frame ω η → Option ω
  | .synchronize o _ => some o
  | .getAssociated o _ => some o
  | .create o _ => some o
  | .addHandler o _ _ => some o
  | .unlock o => some o
  | _ => none

/-- Code that may make a call: a handler, or the `-dealloc` of an object. -/
def callsOut : Frame ω η → Bool
  | .handling _ => true
  | .destruct _ => true
  | _ => false

end Frame

namespace System

/-- Every object is there, and nothing was attached to any. -/
def start : System τ ω η where
  objects _ := .live
  locks _ := none
  associations _ := none
  observings _ := none
  next := 0
  frames _ := []
  journal := []

variable [DecidableEq τ] [DecidableEq ω]

def setStack (s : System τ ω η) (t : τ) (stack : List (Frame ω η)) : System τ ω η :=
  { s with frames := Function.update s.frames t stack }

def setObject (s : System τ ω η) (o : ω) (life : Lifetime) : System τ ω η :=
  { s with objects := Function.update s.objects o life }

def setLock (s : System τ ω η) (o : ω) (owner : Option τ) : System τ ω η :=
  { s with locks := Function.update s.locks o owner }

def setAssociated (s : System τ ω η) (o : ω) (observing : Option Nat) : System τ ω η :=
  { s with associations := Function.update s.associations o observing }

def setObserving (s : System τ ω η) (b : Nat) (v : Option (ValueObserving η)) : System τ ω η :=
  { s with observings := Function.update s.observings b v }

def note (s : System τ ω η) (e : Event ω η) : System τ ω η :=
  { s with journal := s.journal ++ [e] }

/-- The thread runs code that is free to call. -/
def InUserCode (s : System τ ω η) (t : τ) : Prop := ∀ F ∈ (s.frames t).head?, F.callsOut = true

/-- No call of `NPAttachDeallocationHandler` on this object is in progress. -/
def Unused (s : System τ ω η) (o : ω) : Prop := ∀ t, ∀ F ∈ s.frames t, F.attaching ≠ some o

instance (s : System τ ω η) (t : τ) : Decidable (s.InUserCode t) :=
  inferInstanceAs (Decidable (∀ F ∈ (s.frames t).head?, F.callsOut = true))

instance [Fintype τ] (s : System τ ω η) (o : ω) : Decidable (s.Unused o) :=
  inferInstanceAs (Decidable (∀ t, ∀ F ∈ s.frames t, F.attaching ≠ some o))

/-- `NPAttachDeallocationHandler`, as far as the first step other threads can see. -/
def npAttachDeallocationHandler (s : System τ ω η) (t : τ) (observable : Option ω) (handler : η) :
    System τ ω η :=
  match observable with
  | none => (s.note (.called none handler)).setStack t (.handling handler :: s.frames t)
  | some o => (s.note (.requested o handler)).setStack t (.synchronize o handler :: s.frames t)

/-- The next step of thread `t`; `none` when it has nothing to do, waits for a lock, or uses an
observing object that is not there. -/
def advance (s : System τ ω η) (t : τ) : Option (System τ ω η) :=
  match s.frames t with
  | [] => none
  | .synchronize o h :: rest =>
      match s.locks o with
      | none => some ((s.setLock o (some t)).setStack t (.getAssociated o h :: rest))
      | some _ => none
  | .getAssociated o h :: rest =>
      match s.associations o with
      | none => some (s.setStack t (.create o h :: rest))
      | some b => some (s.setStack t (.addHandler o h b :: rest))
  | .create o h :: rest =>
      some ((({ s.setObserving s.next (some .init) with next := s.next + 1 }.setAssociated o
        (some s.next)).note (.created o)).setStack t (.addHandler o h s.next :: rest))
  | .addHandler o h b :: rest =>
      match s.observings b with
      | none => none
      | some v =>
          some (((s.setObserving b (some (v.addObserverHandler h))).note (.attached o h)).setStack t
            (.unlock o :: rest))
  | .unlock o :: rest => some ((s.setLock o none).setStack t rest)
  | .handling _ :: rest => some (s.setStack t rest)
  | .destruct o :: rest =>
      match s.associations o with
      | none => some ((s.setObject o .gone).setStack t rest)
      | some b =>
          some (((s.setAssociated o none).setObject o (.calling b 0)).setStack t
            (.dealloc o :: rest))
  | .dealloc o :: rest =>
      match s.objects o with
      | .calling b n =>
          match s.observings b with
          | none => none
          | some v =>
              match v.handlers[n]? with
              | some h =>
                  some (((s.setObject o (.calling b (n + 1))).note (.called (some o) h)).setStack t
                    (.handling h :: .dealloc o :: rest))
              -- `removeAllObjects`, and the observing object is freed
              | none => some (((s.setObserving b none).setObject o .gone).setStack t rest)
      | _ => none

/-- One step of a schedule. An object is attached to while it is alive, and its last reference is
not one that a call in progress still has. -/
def step [Fintype τ] (s : System τ ω η) : Action τ ω η → Option (System τ ω η)
  | .attach t observable h =>
      if s.InUserCode t ∧ ∀ o ∈ observable, s.objects o = .live then
        some (s.npAttachDeallocationHandler t observable h)
      else none
  | .release t o =>
      if s.InUserCode t ∧ s.objects o = .live ∧ s.Unused o then
        some ((s.setObject o .destructing).setStack t (.destruct o :: s.frames t))
      else none
  | .advance t => s.advance t

end System

end NPFoundation.ObjC.Observing
