import NPFoundation.Lib.Slice
import Mathlib.Logic.Function.Basic

/-!
# The memory behind a `ByteBufferAllocator`

The four hooks of an allocator, over an explicit heap of regions. What an allocator may
decide is a parameter: for every request whether it is met, and for a `reallocate` that
is met whether the block stays where it is. Requests are numbered, so the parameter
ranges over every pattern of failures.

Addresses are not used twice, and a region that was given back has no cells, so a stale
pointer never finds anything. A cell is `none` until something is written to it.

`log` has every call the hooks received. `faults` has what the C++ program would have
aborted on or left undefined: a failed assertion, a copy from or to somewhere outside of
a live region. The model records it and goes on.
-/

namespace NPFoundation

open Slice

/-- `size_t`. -/
abbrev Size := BitVec 64

/-- `SIZE_MAX`. -/
abbrev sizeMax : Size := BitVec.allOnes 64

abbrev Address := Nat

/-- The cells of a region; `none` is a byte nothing was written to. -/
abbrev Region := List (Option UInt8)

/-- What the allocator answers to a request for more room. -/
inductive Reallocation where
  | fails
  | inPlace
  | moves
  deriving DecidableEq, Repr

/-- A custom allocator, as far as it is free to choose: its answer to the `n`-th request. -/
structure ByteBufferAllocator where
  allocates : Nat → Bool
  reallocates : Nat → Reallocation

/-- A call the hooks received, with what it returned. -/
inductive AllocatorCall where
  | allocate (len : Size) (result : Option Address)
  | reallocate (bytes : Address) (len : Size) (result : Option Address)
  | deallocate (bytes : Address) (len : Size)
  deriving DecidableEq, Repr

inductive Fault where
  /-- `assert(index <= this->writerIndex)`. -/
  | readerIndex
  /-- `assert(index <= this->capacity())`. -/
  | writerIndex
  /-- A copy from outside of a live region. -/
  | source
  /-- A copy to outside of a live region. -/
  | destination
  /-- `reallocate` or `deallocate` of something that is not live. -/
  | pointer
  deriving DecidableEq, Repr

structure Memory where
  regions : Address → Option Region
  /-- The next address to give out. -/
  next : Address
  /-- How many requests the allocator has answered. -/
  requests : Nat
  log : List AllocatorCall
  faults : List Fault

/-- A `ConstBytes` the program passes around. -/
inductive ConstBytes where
  | null
  /-- Into memory that is no region of the allocator. -/
  | external (data : Nat → UInt8)
  /-- `bytes + offset`, where `bytes` is a block of the allocator or null. -/
  | block (bytes : Option Address) (offset : Nat)

/-- `bytes == nullptr`. -/
def ConstBytes.isNull : ConstBytes → Bool
  | .null => true
  | .external _ => false
  | .block (some _) _ => false
  | .block none offset => offset == 0

/-- A source outside of the allocator's memory, or null. -/
def ConstBytes.source : Option (Nat → UInt8) → ConstBytes
  | none => .null
  | some data => .external data

namespace Memory

def start : Memory := ⟨fun _ => none, 0, 0, [], []⟩

def fault (m : Memory) (f : Fault) : Memory := { m with faults := m.faults ++ [f] }

/-- `assert(condition)`. -/
def assert (m : Memory) (condition : Bool) (f : Fault) : Memory :=
  if condition then m else m.fault f

/-- `allocate(len)`. -/
def allocate (a : ByteBufferAllocator) (m : Memory) (len : Size) : Memory × Option Address :=
  if a.allocates m.requests then
    ({ m with
        regions := Function.update m.regions m.next (some (List.replicate len.toNat none))
        next := m.next + 1
        requests := m.requests + 1
        log := m.log ++ [.allocate len (some m.next)] }, some m.next)
  else
    ({ m with requests := m.requests + 1, log := m.log ++ [.allocate len none] }, none)

/-- The cells of a block after it was made `len` bytes long. -/
def resize (cells : Region) (len : Size) : Region :=
  cells.take len.toNat ++ List.replicate (len.toNat - cells.length) none

/-- `reallocate(bytes, len)`. A failed one leaves the block alone. -/
def reallocate (a : ByteBufferAllocator) (m : Memory) (bytes : Address) (len : Size) :
    Memory × Option Address :=
  match m.regions bytes with
  | none =>
      ({ m with
          requests := m.requests + 1
          log := m.log ++ [.reallocate bytes len none]
          faults := m.faults ++ [.pointer] }, none)
  | some cells =>
      match a.reallocates m.requests with
      | .fails =>
          ({ m with
              requests := m.requests + 1
              log := m.log ++ [.reallocate bytes len none] }, none)
      | .inPlace =>
          ({ m with
              regions := Function.update m.regions bytes (some (resize cells len))
              requests := m.requests + 1
              log := m.log ++ [.reallocate bytes len (some bytes)] }, some bytes)
      | .moves =>
          ({ m with
              regions := Function.update (Function.update m.regions bytes none) m.next
                (some (resize cells len))
              next := m.next + 1
              requests := m.requests + 1
              log := m.log ++ [.reallocate bytes len (some m.next)] }, some m.next)

/-- `deallocate(bytes, len)`. -/
def deallocate (m : Memory) (bytes : Address) (len : Size) : Memory :=
  { m with
    regions := Function.update m.regions bytes none
    log := m.log ++ [.deallocate bytes len]
    faults := if (m.regions bytes).isSome then m.faults else m.faults ++ [.pointer] }

/-- The cells a pointer finds, and whether all of them are there to be read. -/
def readCells (m : Memory) (source : ConstBytes) (len : Nat) : List (Option UInt8) × Bool :=
  match source with
  | .external data => ((List.range len).map fun i => some (data i), true)
  | .block (some bytes) offset =>
      match m.regions bytes with
      | some cells =>
          if offset + len ≤ cells.length then (slice cells offset len, true)
          else (List.replicate len none, false)
      | none => (List.replicate len none, false)
  | _ => (List.replicate len none, false)

/-- Overwrite cells of a block. -/
def writeCells (m : Memory) (bytes : Address) (offset : Nat) (data : List (Option UInt8)) :
    Memory :=
  match m.regions bytes with
  | some cells =>
      if offset + data.length ≤ cells.length then
        { m with regions := Function.update m.regions bytes (some (splice cells offset data)) }
      else m.fault .destination
  | none => m.fault .destination

/-- `copybytes(bytes + offset, source, len)`, a `memmove`: the source is read before anything is
written. -/
def copybytes (m : Memory) (bytes : Address) (offset : Nat) (source : ConstBytes) (len : Nat) :
    Memory :=
  ((m.assert (m.readCells source len).2 .source).writeCells bytes offset
    (m.readCells source len).1)

end Memory

end NPFoundation
