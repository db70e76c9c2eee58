import Mathlib.Logic.Function.Basic

/-!
# `CopyOnWriteBacked<T>`: the blocks and the member functions

A handle is a pointer to a block, and a block owns one element and counts its handles.
Blocks are numbered in the order in which they are made and a number is never used
again; `none` in `blocks` is a block that was not made yet or that was deleted. An
access through a null pointer or to a deleted block is undefined behaviour, and the
functions answer `none` for it.

Copying and destroying an element may do something to the world around it (a
`ByteBufferStorage` goes to its allocator for both), so the two are given by an
`Element` and the world is part of the store.

The count is the `uint32_t` of the source and wraps as it does.
-/

namespace NPFoundation.CopyOnWrite

/-- `T(const T &)` and `~T()`, with what they do to the world. -/
structure Element (W T : Type) where
  copy : W → T → W × T
  destroy : W → T → W

/-- `CopyOnWriteBacked<T>::Block`. -/
structure Block (T : Type) where
  element : T
  retainCount : UInt32
  deriving Repr, DecidableEq

/-- `Block *`. -/
abbrev Pointer := Option Nat

structure Store (W T : Type) where
  world : W
  blocks : Nat → Option (Block T)
  /-- The number of the next block. -/
  next : Nat
  /-- The blocks that ran `delete this->element; delete this`, in order. -/
  deleted : List Nat

namespace Store

variable {W T : Type}

def empty (w : W) : Store W T := ⟨w, fun _ => none, 0, []⟩

/-- `new Block(element)`. -/
def newBlock (s : Store W T) (element : T) : Store W T × Nat :=
  ({ s with
      blocks := Function.update s.blocks s.next (some ⟨element, 1⟩)
      next := s.next + 1 }, s.next)

/-- `Block::retain`. -/
def retain (s : Store W T) (b : Nat) : Option (Store W T) :=
  match s.blocks b with
  | none => none
  | some block =>
      some { s with
        blocks := Function.update s.blocks b
          (some { block with retainCount := block.retainCount + 1 }) }

/-- `Block::release`. -/
def release (E : Element W T) (s : Store W T) (b : Nat) : Option (Store W T) :=
  match s.blocks b with
  | none => none
  | some block =>
      if block.retainCount = 1 then
        some
          { world := E.destroy s.world block.element
            blocks := Function.update s.blocks b none
            next := s.next
            deleted := s.deleted ++ [b] }
      else
        some { s with
          blocks := Function.update s.blocks b
            (some { block with retainCount := block.retainCount - 1 }) }

/-- `if (this->block != nullptr) this->block->release()`: the destructor, and the first half of
an assignment. -/
def releaseIfAny (E : Element W T) (s : Store W T) : Pointer → Option (Store W T)
  | none => some s
  | some b => s.release E b

/-- `CopyOnWriteBacked(T *element)`. -/
def construct (s : Store W T) (element : T) : Store W T × Pointer :=
  ((s.newBlock element).1, some (s.newBlock element).2)

/-- `CopyOnWriteBacked(const CopyOnWriteBacked &other)`. -/
def copyConstruct (s : Store W T) : Pointer → Option (Store W T × Pointer)
  | none => none
  | some b => (s.retain b).map fun s' => (s', some b)

/-- `CopyOnWriteBacked(CopyOnWriteBacked &&other)`: the new handle, and what is left of the
other. -/
def moveConstruct (other : Pointer) : Pointer × Pointer := (other, none)

/-- `operator=(const CopyOnWriteBacked &other)`. -/
def copyAssign (E : Element W T) (s : Store W T) (this other : Pointer) :
    Option (Store W T × Pointer) :=
  if this ≠ other then
    match other with
    | none => none
    | some b =>
        match s.retain b with
        | none => none
        | some s₁ => (s₁.releaseIfAny E this).map fun s₂ => (s₂, some b)
  else some (s, this)

/-- `operator=(CopyOnWriteBacked &&other)` between two different handles: the store, the handle
assigned to, and what is left of the other. -/
def moveAssign (E : Element W T) (s : Store W T) (this other : Pointer) :
    Option (Store W T × Pointer × Pointer) :=
  (s.releaseIfAny E this).map fun s' => (s', other, none)

/-- `~CopyOnWriteBacked()`. -/
def destruct (E : Element W T) (s : Store W T) (this : Pointer) : Option (Store W T) :=
  s.releaseIfAny E this

/-- `read()` and `operator->`. -/
def read (s : Store W T) : Pointer → Option T
  | none => none
  | some b => (s.blocks b).map (·.element)

/-- `retainCount()`. -/
def retainCount (s : Store W T) : Pointer → Option UInt32
  | none => none
  | some b => (s.blocks b).map (·.retainCount)

/-- `unique()`: the store, and the block whose element it hands out, which is also the block of
the handle from then on. -/
def unique (E : Element W T) (s : Store W T) : Pointer → Option (Store W T × Nat)
  | none => none
  | some b =>
      match s.blocks b with
      | none => none
      | some block =>
          if 1 < block.retainCount then
            let copied := E.copy s.world block.element
            let unshared := newBlock { s with world := copied.1 } copied.2
            (unshared.1.release E b).map fun s' => (s', unshared.2)
          else some (s, b)

/-- A store through the pointer that `unique` gave: the element of `b` and the world change. -/
def setElement (s : Store W T) (b : Nat) (w : W) (element : T) : Store W T :=
  { s with
    world := w
    blocks := Function.update s.blocks b
      ((s.blocks b).map fun block => { block with element := element }) }

end Store

end NPFoundation.CopyOnWrite
