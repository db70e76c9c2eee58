import NPFoundation.ByteBuffer.Memory
import NPFoundation.CopyOnWrite.Store
import Mathlib.Data.BitVec

/-!
# `ByteBufferStorage`: the block behind a buffer

Every function takes the memory and gives it back. The allocator hooks a storage was
made with are the parameter `a`; all storages of a program share one.
-/

namespace NPFoundation

/-- `nextPowerOf2ClampedToMax`, for a `Size` of `w` bits; the last shift is
`sizeof(Size) * 4`. -/
def nextPowerOf2ClampedToMax {w : Nat} (minimumCapacity : BitVec w) : BitVec w :=
  if minimumCapacity ≤ 1 then 1
  else
    let capacity := minimumCapacity - 1
    let capacity := capacity ||| capacity >>> 1
    let capacity := capacity ||| capacity >>> 2
    let capacity := capacity ||| capacity >>> 4
    let capacity := capacity ||| capacity >>> 8
    let capacity := capacity ||| capacity >>> 16
    let capacity := capacity ||| capacity >>> (w / 2)
    if capacity = BitVec.allOnes w then BitVec.allOnes w else capacity + 1

def minimumOf (lhs rhs : Size) : Size := if lhs < rhs then lhs else rhs

structure ByteBufferStorage where
  bytes : Option Address
  capacity : Size
  deriving DecidableEq, Repr

namespace ByteBufferStorage

variable (a : ByteBufferAllocator)

/-- `ByteBufferStorage(allocator, capacity)`. -/
def construct (m : Memory) (capacity : Size) : Memory × ByteBufferStorage :=
  let rounded := nextPowerOf2ClampedToMax capacity
  match m.allocate a rounded with
  | (m', some allocated) => (m', ⟨some allocated, rounded⟩)
  | (m', none) => (m', ⟨none, 0⟩)

/-- `ByteBufferStorage(const ByteBufferStorage &storage)`. -/
def copyConstruct (m : Memory) (storage : ByteBufferStorage) : Memory × ByteBufferStorage :=
  match storage.bytes with
  | none => (m, ⟨none, 0⟩)
  | some bytes =>
      match m.allocate a storage.capacity with
      | (m', none) => (m', ⟨none, 0⟩)
      | (m', some allocated) =>
          (m'.copybytes allocated 0 (.block (some bytes) 0) storage.capacity.toNat,
            ⟨some allocated, storage.capacity⟩)

/-- `~ByteBufferStorage()`. -/
def destruct (m : Memory) (storage : ByteBufferStorage) : Memory :=
  match storage.bytes with
  | none => m
  | some bytes => m.deallocate bytes storage.capacity

/-- `reserve(minimumNeededCapacity)`. -/
def reserve (m : Memory) (storage : ByteBufferStorage) (minimumNeededCapacity : Size) :
    Memory × ByteBufferStorage × Bool :=
  if storage.bytes.isSome ∧ minimumNeededCapacity ≤ storage.capacity then (m, storage, true)
  else
    let newCapacity := nextPowerOf2ClampedToMax minimumNeededCapacity
    if newCapacity < minimumNeededCapacity then (m, storage, false)
    else
      let requested := match storage.bytes with
        | none => m.allocate a newCapacity
        | some bytes => m.reallocate a bytes newCapacity
      match requested with
      | (m', none) => (m', storage, false)
      | (m', some newBytes) => (m', ⟨some newBytes, newCapacity⟩, true)

/-- `setBytes(bytes, size, atIndex)`. -/
def setBytes (m : Memory) (storage : ByteBufferStorage) (bytes : ConstBytes) (size atIndex : Size) :
    Memory × ByteBufferStorage × Size :=
  if bytes.isNull ∨ size = 0 then (m, storage, 0)
  else if atIndex > sizeMax - size then (m, storage, 0)
  else
    match storage.reserve a m (atIndex + size) with
    | (m', storage', false) => (m', storage', 0)
    | (m', storage', true) =>
        match storage'.bytes with
        | none => (m'.fault .destination, storage', size)
        | some target => (m'.copybytes target atIndex.toNat bytes size.toNat, storage', size)

/-- `copyBytesTo(destination, size, fromIndex)`. The destination is memory of the caller or
null; what is copied there is the last component. -/
def copyBytesTo (m : Memory) (storage : ByteBufferStorage) (destination : Bool)
    (size fromIndex : Size) : Memory × Size × List (Option UInt8) :=
  match storage.bytes with
  | none => (m, 0, [])
  | some bytes =>
      if destination = false ∨ fromIndex ≥ storage.capacity then (m, 0, [])
      else
        let count := minimumOf size (storage.capacity - fromIndex)
        if count = 0 then (m, 0, [])
        else
          let read := m.readCells (.block (some bytes) fromIndex.toNat) count.toNat
          (m.assert read.2 .source, count, read.1)

/-- The storage as the element of a `CopyOnWriteBacked`. -/
def element : CopyOnWrite.Element Memory ByteBufferStorage := ⟨copyConstruct a, destruct⟩

end ByteBufferStorage

end NPFoundation
