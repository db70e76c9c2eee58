import NPFoundation.Lib.Run
import NPFoundation.CopyOnWrite.Store
import Mathlib.Data.Fintype.Basic

/-!
# `CopyOnWriteBacked<T>` used from many threads

The same member functions, cut into the steps another thread can get in between. A
thread is at a `Frame`, which names what it does next: the `fetch_add` of a retain, the
`fetch_sub` of a release and the two deletions after it, the load of the count in
`unique()`, the copy of the element, the store of the new pointer, the write through the
pointer that `unique()` returned.

A release comes up in four member functions, which go on differently after it; `After`
says how.

What is not shared is not cut up: the making of a block no other thread knows yet, and
the pointer assignments of a move between two handles the thread has to itself.

Deleting the element and deleting the block are two steps, so a block has its element as
an `Option`.
-/

namespace NPFoundation.CopyOnWrite.Threads

/-- A block between its making and its deletion. -/
structure SharedBlock (T : Type) where
  /-- `none` once `delete this->element` has run. -/
  element : Option T
  retainCount : UInt32

/-- How a member function goes on when its release is done. -/
inductive After (ι T : Type) where
  /-- `~CopyOnWriteBacked()`. -/
  | destructed (i : ι)
  /-- `this->block = retained` in the copy assignment from `other`. -/
  | assign (i other : ι) (retained : Nat)
  /-- `this->block = other.block; other.block = nullptr`. -/
  | moveAssign (i other : ι)
  /-- `this->block = unshared`, and then `f` is applied to what `unique()` returns. -/
  | switch (i : ι) (unshared : Nat) (f : T → T)

/-- What a thread does next. -/
inductive Frame (ι T : Type) where
  | idle
  /-- Copy constructor: `other.block->retain()`. -/
  | retain (i other : ι)
  /-- Copy constructor: `block(retained)`. -/
  | construct (i other : ι) (retained : Nat)
  /-- Copy assignment: compare the two pointers and retain the other's block. -/
  | compare (i other : ι)
  /-- `retainCount.fetch_sub(1)` on block `b`. -/
  | release (b : Nat) (after : After ι T)
  | deleteElement (b : Nat) (after : After ι T)
  | deleteBlock (b : Nat) (after : After ι T)
  /-- The release is done. -/
  | finish (after : After ι T)
  /-- `unique()`: load the count. -/
  | load (i : ι) (f : T → T)
  /-- `unique()`: the count was above 1, copy the element into a block of its own. -/
  | copy (i : ι) (f : T → T)
  /-- Write in place, through the pointer `unique()` returned. -/
  | mutate (i : ι) (f : T → T)
  | read (i : ι)

/-- A call a thread makes. -/
inductive Call (ι T : Type) where
  | construct (i : ι) (element : T)
  | copyConstruct (i other : ι)
  | moveConstruct (i other : ι)
  | copyAssign (i other : ι)
  | moveAssign (i other : ι)
  | mutate (i : ι) (f : T → T)
  | read (i : ι)
  | destruct (i : ι)

/-- A schedule is a list of these. -/
inductive Action (τ ι T : Type) where
  | call (t : τ) (c : Call ι T)
  | advance (t : τ)

structure System (τ ι T : Type) where
  blocks : Nat → Option (SharedBlock T)
  next : Nat
  /-- The blocks that ran `delete this`, in order. -/
  deleted : List Nat
  /-- The pointer in each handle that exists. -/
  handles : ι → Option Pointer
  threads : τ → Frame ι T

variable {τ ι T : Type}

/-- The handles a call works on. -/
def Call.uses : Call ι T → List ι
  | .construct i _ => [i]
  | .copyConstruct i j => [i, j]
  | .moveConstruct i j => [i, j]
  | .copyAssign i j => [i, j]
  | .moveAssign i j => [i, j]
  | .mutate i _ => [i]
  | .read i => [i]
  | .destruct i => [i]

def After.uses : After ι T → List ι
  | .destructed i => [i]
  | .assign i j _ => [i, j]
  | .moveAssign i j => [i, j]
  | .switch i _ _ => [i]

/-- The handles a thread has to itself while it is at a frame. -/
def Frame.uses : Frame ι T → List ι
  | .idle => []
  | .retain i j => [i, j]
  | .construct i j _ => [i, j]
  | .compare i j => [i, j]
  | .release _ k => k.uses
  | .deleteElement _ k => k.uses
  | .deleteBlock _ k => k.uses
  | .finish k => k.uses
  | .load i _ => [i]
  | .copy i _ => [i]
  | .mutate i _ => [i]
  | .read i => [i]

namespace System

def start : System τ ι T := ⟨fun _ => none, 0, [], fun _ => none, fun _ => .idle⟩

variable [DecidableEq τ] [DecidableEq ι]

/-- Thread `t` goes to frame `fr`. -/
def goto (s : System τ ι T) (t : τ) (fr : Frame ι T) : System τ ι T :=
  { s with threads := Function.update s.threads t fr }

def setHandle (s : System τ ι T) (i : ι) (h : Option Pointer) : System τ ι T :=
  { s with handles := Function.update s.handles i h }

def setBlock (s : System τ ι T) (b : Nat) (block : Option (SharedBlock T)) : System τ ι T :=
  { s with blocks := Function.update s.blocks b block }

/-- `new Block(element)`. -/
def newBlock (s : System τ ι T) (x : T) : System τ ι T :=
  { s.setBlock s.next (some ⟨some x, 1⟩) with next := s.next + 1 }

/-- `if (this->block != nullptr) this->block->release()`, followed by `after`. -/
def releaseIfAny (s : System τ ι T) (t : τ) (this : Pointer) (after : After ι T) :
    System τ ι T :=
  match this with
  | none => s.goto t (.finish after)
  | some b => s.goto t (.release b after)

/-- The first step of a call by an idle thread `t`; `none` when the call is not legal: a handle
is constructed twice, or used before it exists or after it was moved from. -/
def begin (s : System τ ι T) (t : τ) : Call ι T → Option (System τ ι T)
  | .construct i x =>
      match s.handles i with
      | none => some ((s.newBlock x).setHandle i (some (some s.next)))
      | some _ => none
  | .copyConstruct i j =>
      match s.handles i, s.handles j with
      | none, some (some _) => some (s.goto t (.retain i j))
      | _, _ => none
  | .moveConstruct i j =>
      match s.handles i, s.handles j with
      | none, some (some b) => some ((s.setHandle j (some none)).setHandle i (some (some b)))
      | _, _ => none
  | .copyAssign i j =>
      match s.handles i, s.handles j with
      | some _, some (some _) => some (s.goto t (.compare i j))
      | _, _ => none
  | .moveAssign i j =>
      match s.handles i, s.handles j with
      | some this, some (some _) =>
          if i ≠ j then some (s.releaseIfAny t this (.moveAssign i j)) else some s
      | _, _ => none
  | .mutate i f =>
      match s.handles i with
      | some (some _) => some (s.goto t (.load i f))
      | _ => none
  | .read i =>
      match s.handles i with
      | some (some _) => some (s.goto t (.read i))
      | _ => none
  | .destruct i =>
      match s.handles i with
      | some this => some (s.releaseIfAny t this (.destructed i))
      | none => none

/-- What `after` does, and where that leaves the thread. -/
def resume (s : System τ ι T) (t : τ) : After ι T → Option (System τ ι T)
  | .destructed i => some ((s.setHandle i none).goto t .idle)
  | .assign i _ b => some ((s.setHandle i (some (some b))).goto t .idle)
  | .moveAssign i j =>
      match s.handles j with
      | some other => some (((s.setHandle j (some none)).setHandle i (some other)).goto t .idle)
      | none => none
  | .switch i b f => some ((s.setHandle i (some (some b))).goto t (.mutate i f))

/-- The block a handle points to, for a frame that goes through it. -/
def pointee (s : System τ ι T) (i : ι) : Option (Nat × SharedBlock T) :=
  (s.handles i).join.bind fun b => (s.blocks b).map fun block => (b, block)

/-- `retainCount.fetch_add(1)` on block `b`. -/
def fetchAdd (s : System τ ι T) (b : Nat) : Option (System τ ι T) :=
  (s.blocks b).map fun block =>
    s.setBlock b (some { block with retainCount := block.retainCount + 1 })

/-- The next step of thread `t`; `none` when it has nothing to do, or dereferences a null pointer
or a block or element that was deleted. -/
def advance (s : System τ ι T) (t : τ) : Option (System τ ι T) :=
  match s.threads t with
  | .idle => none
  | .retain i j =>
      match (s.handles j).join with
      | none => none
      | some b => (s.fetchAdd b).map fun s' => s'.goto t (.construct i j b)
  | .construct i _ b => some ((s.setHandle i (some (some b))).goto t .idle)
  | .compare i j =>
      match s.handles i, s.handles j with
      | some this, some other =>
          if this ≠ other then
            match other with
            | none => none
            | some b => (s.fetchAdd b).map fun s' => s'.releaseIfAny t this (.assign i j b)
          else some (s.goto t .idle)
      | _, _ => none
  | .release b k =>
      match s.blocks b with
      | none => none
      | some block =>
          let s' := s.setBlock b (some { block with retainCount := block.retainCount - 1 })
          if block.retainCount = 1 then some (s'.goto t (.deleteElement b k))
          else some (s'.goto t (.finish k))
  | .deleteElement b k =>
      match s.blocks b with
      | some ⟨some _, c⟩ => some ((s.setBlock b (some ⟨none, c⟩)).goto t (.deleteBlock b k))
      | _ => none
  | .deleteBlock b k =>
      match s.blocks b with
      | some _ =>
          some ({ s.setBlock b none with deleted := s.deleted ++ [b] }.goto t (.finish k))
      | none => none
  | .finish k => s.resume t k
  | .load i f =>
      match s.pointee i with
      | none => none
      | some (_, block) =>
          if 1 < block.retainCount then some (s.goto t (.copy i f))
          else some (s.goto t (.mutate i f))
  | .copy i f =>
      match s.pointee i with
      | some (b, ⟨some x, _⟩) => some ((s.newBlock x).goto t (.release b (.switch i s.next f)))
      | _ => none
  | .mutate i f =>
      match s.pointee i with
      | some (b, ⟨some x, c⟩) => some ((s.setBlock b (some ⟨some (f x), c⟩)).goto t .idle)
      | _ => none
  | .read i =>
      match s.pointee i with
      | some (_, ⟨some _, _⟩) => some (s.goto t .idle)
      | _ => none

/-- No thread is in a call on this handle. -/
def Free (s : System τ ι T) (i : ι) : Prop := ∀ t, i ∉ (s.threads t).uses

instance [Fintype τ] (s : System τ ι T) (i : ι) : Decidable (s.Free i) :=
  inferInstanceAs (Decidable (∀ t, i ∉ (s.threads t).uses))

/-- One step of a schedule. A call needs an idle thread and handles no thread is using. -/
def step [Fintype τ] (s : System τ ι T) : Action τ ι T → Option (System τ ι T)
  | .call t c =>
      match s.threads t with
      | .idle => if ∀ i ∈ c.uses, s.Free i then s.begin t c else none
      | _ => none
  | .advance t => s.advance t

end System

end NPFoundation.CopyOnWrite.Threads
