import NPFoundation.ByteBuffer.Storage

/-!
# `ByteBuffer`: two cursors over a shared storage

A buffer's storage is a `CopyOnWriteBacked` handle, so everything happens in a store of
reference-counted blocks whose world is the memory. `none` is a use of a buffer that was
moved from, or of a block that was deleted.
-/

namespace NPFoundation

open CopyOnWrite

structure ByteBuffer where
  readerIndex : Size
  writerIndex : Size
  storage : Pointer
  deriving DecidableEq, Repr

/-- The reference-counted storages of a program, and its memory. -/
abbrev Storages := Store Memory ByteBufferStorage

/-- What a call returns: a size, and the bytes it hands out. -/
structure Result where
  size : Size
  data : List (Option UInt8)
  deriving DecidableEq, Repr

/-- What a call that returns nothing returns. -/
def Result.unit : Result := ⟨0, []⟩

/-- `std::string`, whose length is a `Size`. -/
structure StdString where
  data : List UInt8
  length_lt : data.length < 2 ^ 64

def StdString.size (string : StdString) : Size := BitVec.ofNat 64 string.data.length

/-- The pointer to the characters of a string. -/
def StdString.bytes (string : StdString) : ConstBytes := .external fun i => string.data.getD i 0

/-- `strlen` of the characters of a string followed by a NUL. -/
def StdString.strlen (cString : StdString) : Size :=
  BitVec.ofNat 64 (cString.data.takeWhile (· ≠ 0)).length

namespace ByteBuffer

variable (a : ByteBufferAllocator)

/-- `ByteBuffer(allocator, capacity)`. -/
def construct (s : Storages) (capacity : Size) : Storages × ByteBuffer :=
  let made := ByteBufferStorage.construct a s.world capacity
  let backed := Store.construct { s with world := made.1 } made.2
  (backed.1, ⟨0, 0, backed.2⟩)

/-- `this->storage.read()`. -/
def read (s : Storages) (buffer : ByteBuffer) : Option ByteBufferStorage :=
  s.read buffer.storage

/-- `bytes()`. -/
def bytes (s : Storages) (buffer : ByteBuffer) : Option ConstBytes :=
  (buffer.read s).map fun storage => .block storage.bytes 0

def capacity (s : Storages) (buffer : ByteBuffer) : Option Size :=
  (buffer.read s).map (·.capacity)

def writableBytes (s : Storages) (buffer : ByteBuffer) : Option Size :=
  (buffer.capacity s).map fun capacity =>
    if capacity > buffer.writerIndex then capacity - buffer.writerIndex else 0

def readableBytes (buffer : ByteBuffer) : Size :=
  if buffer.writerIndex > buffer.readerIndex then buffer.writerIndex - buffer.readerIndex else 0

/-- `readableBytesView()`. -/
def readableBytesView (s : Storages) (buffer : ByteBuffer) : Option ConstBytes :=
  (buffer.read s).map fun storage =>
    match storage.bytes with
    | none => .null
    | some bytes => .block (some bytes) buffer.readerIndex.toNat

/-- `moveReaderIndexTo(index)`. -/
def moveReaderIndexTo (s : Storages) (buffer : ByteBuffer) (index : Size) :
    Storages × ByteBuffer :=
  ({ s with world := s.world.assert (index ≤ buffer.writerIndex) .readerIndex },
    { buffer with readerIndex := index })

def moveReaderIndexForwardBy (s : Storages) (buffer : ByteBuffer) (offset : Size) :
    Storages × ByteBuffer :=
  buffer.moveReaderIndexTo s (buffer.readerIndex + offset)

/-- `moveWriterIndexTo(index)`. -/
def moveWriterIndexTo (s : Storages) (buffer : ByteBuffer) (index : Size) :
    Option (Storages × ByteBuffer) :=
  (buffer.capacity s).map fun capacity =>
    ({ s with world := s.world.assert (index ≤ capacity) .writerIndex },
      { buffer with writerIndex := index })

def moveWriterIndexForwardBy (s : Storages) (buffer : ByteBuffer) (offset : Size) :
    Option (Storages × ByteBuffer) :=
  buffer.moveWriterIndexTo s (buffer.writerIndex + offset)

/-- `this->storage.unique()`: the store, the buffer on its own block, that block and its
storage. -/
def unique (s : Storages) (buffer : ByteBuffer) :
    Option (Storages × ByteBuffer × Nat × ByteBufferStorage) :=
  match s.unique (ByteBufferStorage.element a) buffer.storage with
  | none => none
  | some (s', b) =>
      (s'.read (some b)).map fun storage => (s', { buffer with storage := some b }, b, storage)

/-- `mutableBytes()`: the pointer it returns is null or a block. -/
def mutableBytes (s : Storages) (buffer : ByteBuffer) :
    Option (Storages × ByteBuffer × Option Address) :=
  (buffer.unique a s).map fun r => (r.1, r.2.1, r.2.2.2.bytes)

/-- `writeBytes(bytes, size)`. -/
def writeBytes (s : Storages) (buffer : ByteBuffer) (bytes : ConstBytes) (size : Size) :
    Option (Storages × ByteBuffer × Result) :=
  match buffer.unique a s with
  | none => none
  | some (s₁, buffer₁, b, storage) =>
      let set := storage.setBytes a s₁.world bytes size buffer₁.writerIndex
      let s₂ := s₁.setElement b set.1 set.2.1
      (buffer₁.moveWriterIndexForwardBy s₂ set.2.2).map fun moved =>
        (moved.1, moved.2, ⟨set.2.2, []⟩)

/-- `writeString(string)`. -/
def writeString (s : Storages) (buffer : ByteBuffer) (string : StdString) :
    Option (Storages × ByteBuffer × Result) :=
  buffer.writeBytes a s string.bytes string.size

/-- `writeCString(cString)`. -/
def writeCString (s : Storages) (buffer : ByteBuffer) :
    Option StdString → Option (Storages × ByteBuffer × Result)
  | none => some (s, buffer, ⟨0, []⟩)
  | some cString => buffer.writeBytes a s cString.bytes cString.strlen

/-- `readBytes(destination, size)`. -/
def readBytes (s : Storages) (buffer : ByteBuffer) (destination : Bool) (size : Size) :
    Option (Storages × ByteBuffer × Result) :=
  let count := minimumOf size buffer.readableBytes
  if count = 0 then some (s, buffer, ⟨0, []⟩)
  else
    (buffer.read s).map fun storage =>
      let copied := storage.copyBytesTo s.world destination count buffer.readerIndex
      let moved := buffer.moveReaderIndexForwardBy { s with world := copied.1 } copied.2.1
      (moved.1, moved.2, ⟨copied.2.1, copied.2.2⟩)

/-- `readString(size)`: the string is made from `count` bytes at the view. -/
def readString (s : Storages) (buffer : ByteBuffer) (size : Size) :
    Option (Storages × ByteBuffer × Result) :=
  let count := minimumOf size buffer.readableBytes
  if count = 0 then some (s, buffer, ⟨0, []⟩)
  else
    (buffer.readableBytesView s).map fun view =>
      let string := s.world.readCells view count.toNat
      let moved := buffer.moveReaderIndexForwardBy
        { s with world := s.world.assert string.2 .source } count
      (moved.1, moved.2, ⟨count, string.1⟩)

/-- `skipBytes(size)`. -/
def skipBytes (s : Storages) (buffer : ByteBuffer) (size : Size) :
    Storages × ByteBuffer × Result :=
  let count := minimumOf size buffer.readableBytes
  let moved := buffer.moveReaderIndexForwardBy s count
  (moved.1, moved.2, ⟨count, []⟩)

/-- `discardReadBytes()`. -/
def discardReadBytes (s : Storages) (buffer : ByteBuffer) : Option (Storages × ByteBuffer) :=
  if buffer.readerIndex = 0 then some (s, buffer)
  else
    let readable := buffer.readableBytes
    if readable > 0 then
      (buffer.unique a s).map fun r =>
        let storage := r.2.2.2
        let set := storage.setBytes a r.1.world
          (.block storage.bytes buffer.readerIndex.toNat) readable 0
        (r.1.setElement r.2.2.1 set.1 set.2.1,
          { r.2.1 with readerIndex := 0, writerIndex := readable })
    else some (s, { buffer with readerIndex := 0, writerIndex := readable })

/-- `clear()`. -/
def clear (buffer : ByteBuffer) : ByteBuffer := { buffer with readerIndex := 0, writerIndex := 0 }

end ByteBuffer

end NPFoundation
