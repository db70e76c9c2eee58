import NPFoundation.ByteBuffer.Buffer

/-!
# Programs over buffers and storages

A program has a family of `ByteBuffer` variables and a family of `ByteBufferStorage`
variables of its own, all made with one allocator. Copying, moving and assigning a buffer
are the members the compiler writes: each cursor is copied, and the handle is copied,
moved or assigned. A buffer that was moved from keeps its cursors and has a null handle.

`step` is partial where C++ has no meaning: a variable is constructed twice or used before
that, a null handle is dereferenced, or a block is used after it was deleted.
-/

namespace NPFoundation

open CopyOnWrite

/-- What a program does with its buffers. -/
inductive BufferOp (ι : Type) where
  | construct (i : ι) (capacity : Size)
  | copyConstruct (i other : ι)
  | moveConstruct (i other : ι)
  | copyAssign (i other : ι)
  | moveAssign (i other : ι)
  | destruct (i : ι)
  | writeBytes (i : ι) (bytes : Option (Nat → UInt8)) (size : Size)
  | writeString (i : ι) (string : StdString)
  | writeCString (i : ι) (cString : Option StdString)
  | readBytes (i : ι) (destination : Bool) (size : Size)
  | readString (i : ι) (size : Size)
  | skipBytes (i : ι) (size : Size)
  | discardReadBytes (i : ι)
  | clear (i : ι)
  | mutableBytes (i : ι)
  /-- `mutableBytes()[getReaderIndex() + k] = value`. -/
  | store (i : ι) (k : Size) (value : UInt8)

/-- What it does with the storages it has itself. -/
inductive StorageOp (κ : Type) where
  | construct (k : κ) (capacity : Size)
  | copyConstruct (k other : κ)
  | destruct (k : κ)
  | reserve (k : κ) (minimumNeededCapacity : Size)
  | setBytes (k : κ) (bytes : Option (Nat → UInt8)) (size atIndex : Size)
  | copyBytesTo (k : κ) (destination : Bool) (size fromIndex : Size)

inductive ProgramOp (ι κ : Type) where
  | buffer (op : BufferOp ι)
  | storage (op : StorageOp κ)

structure Machine (ι κ : Type) where
  store : Storages
  buffers : ι → Option ByteBuffer
  storages : κ → Option ByteBufferStorage

namespace Machine

variable {ι κ : Type}

def start : Machine ι κ := ⟨.empty .start, fun _ => none, fun _ => none⟩

def memory (s : Machine ι κ) : Memory := s.store.world

/-- The handles of the buffers that exist. -/
def handles (s : Machine ι κ) (i : ι) : Option Pointer := (s.buffers i).map (·.storage)

variable [DecidableEq ι] [DecidableEq κ]

def setBuffer (s : Machine ι κ) (store : Storages) (i : ι) (buffer : Option ByteBuffer) :
    Machine ι κ :=
  { s with store := store, buffers := Function.update s.buffers i buffer }

def setStorage (s : Machine ι κ) (m : Memory) (k : κ) (storage : Option ByteBufferStorage) :
    Machine ι κ :=
  { s with
    store := { s.store with world := m }
    storages := Function.update s.storages k storage }

/-- A call on the buffer in variable `i`. -/
def onBuffer (s : Machine ι κ) (i : ι)
    (f : ByteBuffer → Option (Storages × ByteBuffer × Result)) : Option (Machine ι κ × Result) :=
  match s.buffers i with
  | none => none
  | some buffer => (f buffer).map fun r => (s.setBuffer r.1 i (some r.2.1), r.2.2)

variable (a : ByteBufferAllocator)

/-- An operation on buffers, and what it returns. -/
def bufferStep (s : Machine ι κ) : BufferOp ι → Option (Machine ι κ × Result)
  | .construct i capacity =>
      match s.buffers i with
      | none =>
          let made := ByteBuffer.construct a s.store capacity
          some (s.setBuffer made.1 i (some made.2), .unit)
      | some _ => none
  | .copyConstruct i j =>
      match s.buffers i, s.buffers j with
      | none, some other =>
          (s.store.copyConstruct other.storage).map fun r =>
            (s.setBuffer r.1 i (some { other with storage := r.2 }), .unit)
      | _, _ => none
  | .moveConstruct i j =>
      match s.buffers i, s.buffers j with
      | none, some other =>
          let moved := Store.moveConstruct other.storage
          some ((s.setBuffer s.store j (some { other with storage := moved.2 })).setBuffer s.store i
            (some { other with storage := moved.1 }), .unit)
      | _, _ => none
  | .copyAssign i j =>
      match s.buffers i, s.buffers j with
      | some this, some other =>
          (s.store.copyAssign (ByteBufferStorage.element a) this.storage other.storage).map fun r =>
            (s.setBuffer r.1 i (some { other with storage := r.2 }), .unit)
      | _, _ => none
  | .moveAssign i j =>
      match s.buffers i, s.buffers j with
      | some this, some other =>
          if i ≠ j then
            (s.store.moveAssign (ByteBufferStorage.element a) this.storage other.storage).map
              fun r =>
                ((s.setBuffer r.1 j (some { other with storage := r.2.2 })).setBuffer r.1 i
                  (some { other with storage := r.2.1 }), .unit)
          else some (s, .unit)
      | _, _ => none
  | .destruct i =>
      match s.buffers i with
      | none => none
      | some this =>
          (s.store.destruct (ByteBufferStorage.element a) this.storage).map fun r =>
            (s.setBuffer r i none, .unit)
  | .writeBytes i bytes size =>
      s.onBuffer i fun buffer => buffer.writeBytes a s.store (.source bytes) size
  | .writeString i string => s.onBuffer i fun buffer => buffer.writeString a s.store string
  | .writeCString i cString => s.onBuffer i fun buffer => buffer.writeCString a s.store cString
  | .readBytes i destination size =>
      s.onBuffer i fun buffer => buffer.readBytes s.store destination size
  | .readString i size => s.onBuffer i fun buffer => buffer.readString s.store size
  | .skipBytes i size => s.onBuffer i fun buffer => some (buffer.skipBytes s.store size)
  | .discardReadBytes i =>
      s.onBuffer i fun buffer =>
        (buffer.discardReadBytes a s.store).map fun r => (r.1, r.2, .unit)
  | .clear i => s.onBuffer i fun buffer => some (s.store, buffer.clear, .unit)
  | .mutableBytes i =>
      s.onBuffer i fun buffer => (buffer.mutableBytes a s.store).map fun r => (r.1, r.2.1, .unit)
  | .store i k value =>
      s.onBuffer i fun buffer =>
        (buffer.mutableBytes a s.store).map fun r =>
          let m := match r.2.2 with
            | none => r.1.world.fault .destination
            | some bytes =>
                r.1.world.writeCells bytes (buffer.readerIndex + k).toNat [some value]
          ({ r.1 with world := m }, r.2.1, .unit)

/-- An operation on a storage of the program's own. -/
def storageStep (s : Machine ι κ) : StorageOp κ → Option (Machine ι κ × Result)
  | .construct k capacity =>
      match s.storages k with
      | none =>
          let made := ByteBufferStorage.construct a s.memory capacity
          some (s.setStorage made.1 k (some made.2), .unit)
      | some _ => none
  | .copyConstruct k l =>
      match s.storages k, s.storages l with
      | none, some other =>
          let made := other.copyConstruct a s.memory
          some (s.setStorage made.1 k (some made.2), .unit)
      | _, _ => none
  | .destruct k =>
      match s.storages k with
      | none => none
      | some storage => some (s.setStorage (storage.destruct s.memory) k none, .unit)
  | .reserve k minimumNeededCapacity =>
      match s.storages k with
      | none => none
      | some storage =>
          let reserved := storage.reserve a s.memory minimumNeededCapacity
          some (s.setStorage reserved.1 k (some reserved.2.1),
            ⟨if reserved.2.2 then 1 else 0, []⟩)
  | .setBytes k bytes size atIndex =>
      match s.storages k with
      | none => none
      | some storage =>
          let set := storage.setBytes a s.memory (.source bytes) size atIndex
          some (s.setStorage set.1 k (some set.2.1), ⟨set.2.2, []⟩)
  | .copyBytesTo k destination size fromIndex =>
      match s.storages k with
      | none => none
      | some storage =>
          let copied := storage.copyBytesTo s.memory destination size fromIndex
          some (s.setStorage copied.1 k (some storage), ⟨copied.2.1, copied.2.2⟩)

/-- One operation, and what it returns. -/
def step (s : Machine ι κ) : ProgramOp ι κ → Option (Machine ι κ × Result)
  | .buffer op => s.bufferStep a op
  | .storage op => s.storageStep a op

/-- One operation, without its result. -/
def next (s : Machine ι κ) (op : ProgramOp ι κ) : Option (Machine ι κ) :=
  (s.step a op).map Prod.fst

end Machine

end NPFoundation
