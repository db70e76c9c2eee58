import NPFoundation.ByteBuffer.Machine
import NPFoundation.ByteBuffer.StorageSpec
import NPFoundation.CopyOnWrite.Values

/-!
# Buffers that share nothing

The model the machine is compared with. A variable has a `View` of its own: two cursors
and a block that nobody else sees. Copying a buffer copies the view, and a call changes
one view. What the allocator answers during a call is given from outside, so that the
model can follow the machine through every failure, including the one that makes a buffer
lose its block: `unique()` splits a shared storage, and if the copy gets no memory it has
no block, while the cursors stay.

`Valid` is what holds of a view whatever the allocator does.
-/

namespace NPFoundation

open Slice CopyOnWrite

/-- A buffer with a block of its own, or with none. -/
structure View where
  readerIndex : Size
  writerIndex : Size
  block : Option Region

/-- What the allocator answers during a call. -/
structure Answers where
  /-- The copy that `unique()` makes gets no memory. -/
  lost : Bool
  /-- A request for a larger block is met. -/
  grows : Bool
  deriving DecidableEq, Repr

/-- What a call does to a view, what it returns, and what goes wrong. -/
structure Outcome where
  view : View
  result : Result
  faults : List Fault

namespace View

/-- `readableBytes()`. -/
def readable (v : View) : Size :=
  if v.writerIndex > v.readerIndex then v.writerIndex - v.readerIndex else 0

/-- The bytes between the cursors; `none` if there should be some and there is no block. -/
def readableRegion (v : View) : Option Region :=
  match v.block with
  | some cells => some (slice cells v.readerIndex.toNat v.readable.toNat)
  | none => if v.readable = 0 then some [] else none

/-- The cursors are in order, and within the block if there is one. -/
structure Valid (v : View) : Prop where
  reader_le : v.readerIndex ≤ v.writerIndex
  writer_le : ∀ cells, v.block = some cells → v.writerIndex.toNat ≤ cells.length

def fresh (grows : Bool) (capacity : Size) : View :=
  ⟨0, 0, if grows then some (List.replicate (nextPowerOf2ClampedToMax capacity).toNat none) else none⟩

/-- `unique()`. -/
def unique (lost : Bool) (v : View) : View := if lost then { v with block := none } else v

def same (v : View) : Outcome := ⟨v, .unit, []⟩

def writeBytes (answers : Answers) (v : View) (source : Option (ℕ → UInt8)) (size : Size) :
    Outcome :=
  let set := setBlock answers.grows (v.unique answers.lost).block source size v.writerIndex
  { view := ⟨v.readerIndex, v.writerIndex + set.2, set.1⟩
    result := ⟨set.2, []⟩
    faults := if (v.writerIndex + set.2).toNat ≤ roomOf set.1 then [] else [.writerIndex] }

/-- The reader goes on by `count`. -/
def advance (v : View) (count : Size) : View := { v with readerIndex := v.readerIndex + count }

def readBytes (v : View) (destination : Bool) (size : Size) : Outcome :=
  match v.block, destination with
  | some cells, true =>
      let count := minimumOf size v.readable
      ⟨v.advance count, ⟨count, slice cells v.readerIndex.toNat count.toNat⟩, []⟩
  | _, _ => v.same

def readString (v : View) (size : Size) : Outcome :=
  let count := minimumOf size v.readable
  match v.block with
  | some cells =>
      ⟨v.advance count, ⟨count, slice cells v.readerIndex.toNat count.toNat⟩, []⟩
  | none =>
      if count = 0 then v.same
      else ⟨v.advance count, ⟨count, List.replicate count.toNat none⟩, [.source]⟩

def skipBytes (v : View) (size : Size) : Outcome :=
  let count := minimumOf size v.readable
  ⟨v.advance count, ⟨count, []⟩, []⟩

def discardReadBytes (answers : Answers) (v : View) : Outcome :=
  if v.readerIndex = 0 then v.same
  else if v.readable = 0 then ⟨⟨0, 0, v.block⟩, .unit, []⟩
  else
    match (v.unique answers.lost).block with
    | some cells =>
        ⟨⟨0, v.readable, some (splice cells 0
          (slice cells v.readerIndex.toNat v.readable.toNat))⟩, .unit, []⟩
    | none =>
        if answers.grows then
          ⟨⟨0, v.readable, some (splice (grown none v.readable) 0
            (List.replicate v.readable.toNat none))⟩, .unit, [.source]⟩
        else ⟨⟨0, v.readable, none⟩, .unit, []⟩

def clear (v : View) : Outcome := ⟨⟨0, 0, v.block⟩, .unit, []⟩

def mutableBytes (answers : Answers) (v : View) : Outcome := (v.unique answers.lost).same

/-- A store of one byte through `mutableBytes()`. -/
def store (answers : Answers) (v : View) (k : Size) (value : UInt8) : Outcome :=
  match (v.unique answers.lost).block with
  | some cells =>
      if (v.readerIndex + k).toNat + 1 ≤ cells.length then
        ⟨{ v with block := some (splice cells (v.readerIndex + k).toNat [some value]) }, .unit, []⟩
      else ⟨v, .unit, [.destination]⟩
  | none => ⟨{ v with block := none }, .unit, [.destination]⟩

end View

/-! ## The model -/

/-- The bytes of a string as a source. -/
def StdString.source (string : StdString) : Option (ℕ → UInt8) :=
  some fun i => string.data.getD i 0

section Model

variable {ι : Type}

/-- The variable an operation changes. -/
def BufferOp.target : BufferOp ι → ι
  | .construct i _ => i
  | .copyConstruct i _ => i
  | .moveConstruct i _ => i
  | .copyAssign i _ => i
  | .moveAssign i _ => i
  | .destruct i => i
  | .writeBytes i _ _ => i
  | .writeString i _ => i
  | .writeCString i _ => i
  | .readBytes i _ _ => i
  | .readString i _ => i
  | .skipBytes i _ => i
  | .discardReadBytes i => i
  | .clear i => i
  | .mutableBytes i => i
  | .store i _ _ => i

/-- What a call does to the view of its buffer. -/
def View.act (answers : Answers) (v : View) : BufferOp ι → Outcome
  | .writeBytes _ source size => v.writeBytes answers source size
  | .writeString _ string => v.writeBytes answers string.source string.size
  | .writeCString _ none => v.same
  | .writeCString _ (some cString) => v.writeBytes answers cString.source cString.strlen
  | .readBytes _ destination size => v.readBytes destination size
  | .readString _ size => v.readString size
  | .skipBytes _ size => v.skipBytes size
  | .discardReadBytes _ => v.discardReadBytes answers
  | .clear _ => v.clear
  | .mutableBytes _ => v.mutableBytes answers
  | .store _ k value => v.store answers k value
  | _ => v.same

variable [DecidableEq ι]

/-- A call on the view in variable `i`. -/
def onView (v : ι → Variable View) (i : ι) (f : View → Outcome) :
    Option ((ι → Variable View) × Result × List Fault) :=
  match v i with
  | .holds view =>
      some (Function.update v i (.holds (f view).view), (f view).result, (f view).faults)
  | _ => none

/-- An operation that only makes, copies, moves or destroys. -/
def structural (v : ι → Variable View) (op : Op ι View) :
    Option ((ι → Variable View) × Result × List Fault) :=
  (modelStep v op).map fun v' => (v', .unit, [])

/-- One operation on private views: the views afterwards, what is returned, and the faults on
the way; `none` when a program may not do this. -/
def privateStep (answers : Answers) (v : ι → Variable View) :
    BufferOp ι → Option ((ι → Variable View) × Result × List Fault)
  | .construct i capacity => structural v (.construct i (.fresh answers.grows capacity))
  | .copyConstruct i j => structural v (.copyConstruct i j)
  | .moveConstruct i j => structural v (.moveConstruct i j)
  | .copyAssign i j => structural v (.copyAssign i j)
  | .moveAssign i j => structural v (.moveAssign i j)
  | .destruct i => structural v (.destruct i)
  | op => onView v op.target fun view => view.act answers op

end Model

/-! ## What every call keeps -/

namespace View

variable {v : View}

theorem Valid.toNat_le (h : v.Valid) : v.readerIndex.toNat ≤ v.writerIndex.toNat :=
  BitVec.le_def.mp h.reader_le

theorem Valid.toNat_readable (h : v.Valid) :
    v.readable.toNat = v.writerIndex.toNat - v.readerIndex.toNat := by
  have hle := h.toNat_le
  unfold readable
  split
  · exact BitVec.toNat_sub_of_le h.reader_le
  · rename_i hgt
    rw [gt_iff_lt, BitVec.lt_def] at hgt
    have hzero : (0 : Size).toNat = 0 := rfl
    omega

theorem Valid.readable_eq_zero (h : v.Valid) :
    v.readable = 0 ↔ v.readerIndex = v.writerIndex := by
  have hle := h.toNat_le
  have hread := h.toNat_readable
  have hzero : (0 : Size).toNat = 0 := rfl
  rw [← BitVec.toNat_inj, ← BitVec.toNat_inj, hread]
  omega

/-- What a reader may take is what is there. -/
theorem Valid.toNat_count (h : v.Valid) (size : Size) :
    (minimumOf size v.readable).toNat
      = min size.toNat (v.writerIndex.toNat - v.readerIndex.toNat) := by
  rw [toNat_minimumOf, h.toNat_readable]

theorem Valid.toNat_advance (h : v.Valid) {count : Size}
    (hcount : count.toNat ≤ v.writerIndex.toNat - v.readerIndex.toNat) :
    (v.readerIndex + count).toNat = v.readerIndex.toNat + count.toNat := by
  have hle := h.toNat_le
  have hlt := v.writerIndex.isLt
  exact BitVec.toNat_add_of_lt (by omega)

theorem Valid.advance (h : v.Valid) {count : Size}
    (hcount : count.toNat ≤ v.writerIndex.toNat - v.readerIndex.toNat) : (v.advance count).Valid where
  reader_le := by
    have hle := h.toNat_le
    rw [BitVec.le_def]
    dsimp only [View.advance]
    rw [h.toNat_advance hcount]
    omega
  writer_le := h.writer_le

theorem Valid.count_le (h : v.Valid) (size : Size) :
    (minimumOf size v.readable).toNat ≤ v.writerIndex.toNat - v.readerIndex.toNat := by
  rw [h.toNat_count]
  exact Nat.min_le_right _ _

theorem Valid.unique (h : v.Valid) (lost : Bool) : (v.unique lost).Valid := by
  unfold View.unique
  split
  · exact ⟨h.reader_le, fun cells hcells => absurd hcells (by simp)⟩
  · exact h

/-- A block that is there after `unique()` was there before. -/
theorem block_of_unique {lost : Bool} {cells : Region} (h : (v.unique lost).block = some cells) :
    v.block = some cells := by
  unfold View.unique at h
  split at h
  · exact absurd h (by simp)
  · exact h

theorem valid_empty (c : Option Region) : (⟨0, 0, c⟩ : View).Valid :=
  ⟨BitVec.le_def.mpr (Nat.le_refl _), fun _ _ => Nat.zero_le _⟩

theorem unique_cursors (lost : Bool) (v : View) :
    (v.unique lost).readerIndex = v.readerIndex ∧ (v.unique lost).writerIndex = v.writerIndex := by
  unfold View.unique
  split
  · exact ⟨rfl, rfl⟩
  · exact ⟨rfl, rfl⟩

/-- With nothing to read, nothing happens. -/
theorem readBytes_zero {size : Size} (h : minimumOf size v.readable = 0) (destination : Bool) :
    v.readBytes destination size = v.same := by
  unfold readBytes
  split
  · simp [h, same, View.advance, Result.unit]
  · rfl

theorem readString_zero {size : Size} (h : minimumOf size v.readable = 0) :
    v.readString size = v.same := by
  unfold readString
  simp only [h]
  split
  · simp [same, View.advance, Result.unit]
  · rfl

/-- A write that goes through appends to what the split left. -/
theorem writeBytes_accepted {answers : Answers} {source : Option (ℕ → UInt8)} {size : Size}
    (h : accepts answers.grows (v.unique answers.lost).block source size v.writerIndex) :
    ∃ data cells extra, source = some data
      ∧ cells = (v.unique answers.lost).block.getD [] ++ List.replicate extra none
      ∧ v.writerIndex.toNat + size.toNat ≤ cells.length
      ∧ (v.writerIndex + size).toNat = v.writerIndex.toNat + size.toNat
      ∧ v.writeBytes answers source size
        = ⟨⟨v.readerIndex, v.writerIndex + size,
            some (splice cells v.writerIndex.toNat (sourceBytes data size))⟩, ⟨size, []⟩, []⟩ := by
  obtain ⟨data, cells, extra, hsource, hcells, hroom, hset⟩ := setBlock_accepted h
  have hsum : (v.writerIndex + size).toNat = v.writerIndex.toNat + size.toNat :=
    BitVec.toNat_add_of_lt h.2.2.1
  have hlen : (splice cells v.writerIndex.toNat (sourceBytes data size)).length = cells.length :=
    length_splice (by rw [length_sourceBytes]; exact hroom)
  refine ⟨data, cells, extra, hsource, hcells, hroom, hsum, ?_⟩
  simp only [writeBytes, hset]
  rw [if_pos (by rw [hsum, roomOf, Option.getD_some, hlen]; exact hroom)]

/-- One that does not leaves the view as the split left it, and then checks the cursor. -/
theorem writeBytes_refused {answers : Answers} {source : Option (ℕ → UInt8)} {size : Size}
    (h : ¬ accepts answers.grows (v.unique answers.lost).block source size v.writerIndex) :
    v.writeBytes answers source size = ⟨v.unique answers.lost, ⟨0, []⟩,
      if v.writerIndex.toNat ≤ roomOf (v.unique answers.lost).block then [] else [.writerIndex]⟩ := by
  obtain ⟨hreader, hwriter⟩ := unique_cursors answers.lost v
  simp only [writeBytes, setBlock_refused h, add_zero]
  conv_rhs => rw [show v.unique answers.lost
    = ⟨v.readerIndex, v.writerIndex, (v.unique answers.lost).block⟩ by rw [← hreader, ← hwriter]]

theorem Valid.writeBytes (h : v.Valid) (answers : Answers) (source : Option (ℕ → UInt8))
    (size : Size) : (v.writeBytes answers source size).view.Valid := by
  by_cases ha : accepts answers.grows (v.unique answers.lost).block source size v.writerIndex
  · obtain ⟨data, cells, -, -, -, hroom, hsum, heq⟩ := writeBytes_accepted ha
    have hle := h.toNat_le
    rw [heq]
    refine ⟨BitVec.le_def.mpr (by dsimp only; omega), fun cells' hcells' => ?_⟩
    obtain rfl := Option.some.inj hcells'
    rw [length_splice (by rw [length_sourceBytes]; exact hroom), hsum]
    exact hroom
  · rw [writeBytes_refused ha]
    exact h.unique answers.lost

theorem Valid.readBytes (h : v.Valid) (destination : Bool) (size : Size) :
    (v.readBytes destination size).view.Valid := by
  unfold View.readBytes
  split
  · exact h.advance (h.count_le size)
  · exact h

theorem Valid.readString (h : v.Valid) (size : Size) : (v.readString size).view.Valid := by
  unfold View.readString
  dsimp only
  split
  · exact h.advance (h.count_le size)
  · split
    · exact h
    · exact h.advance (h.count_le size)

/-- The bytes between the cursors are in the block. -/
theorem Valid.readable_le (h : v.Valid) {cells : Region} (hcells : v.block = some cells) :
    v.readerIndex.toNat + v.readable.toNat ≤ cells.length := by
  have hle := h.toNat_le
  have hroom := h.writer_le cells hcells
  rw [h.toNat_readable]
  omega

theorem Valid.discardReadBytes (h : v.Valid) (answers : Answers) :
    (v.discardReadBytes answers).view.Valid := by
  unfold View.discardReadBytes
  split
  · exact h
  split
  · exact valid_empty _
  split
  · rename_i cells hcells
    have hroom := h.readable_le (block_of_unique hcells)
    refine ⟨BitVec.le_def.mpr (Nat.zero_le _), fun cells' hcells' => ?_⟩
    obtain rfl := Option.some.inj hcells'
    rw [length_splice (by rw [length_slice hroom]; omega)]
    exact (Nat.le_add_left _ _).trans hroom
  · split
    · refine ⟨BitVec.le_def.mpr (Nat.zero_le _), fun cells' hcells' => ?_⟩
      obtain rfl := Option.some.inj hcells'
      have hlen := (length_grown (c := none) (n := v.readable) (by simp)).1
      have hle := BitVec.le_def.mp (le_nextPowerOf2ClampedToMax v.readable)
      rw [length_splice (by rw [List.length_replicate]; omega), hlen]
      exact hle
    · exact ⟨BitVec.le_def.mpr (Nat.zero_le _), fun _ hcells => absurd hcells (by simp)⟩

theorem Valid.store (h : v.Valid) (answers : Answers) (k : Size) (value : UInt8) :
    (v.store answers k value).view.Valid := by
  unfold View.store
  split
  · rename_i cells hcells
    split
    · rename_i hk
      refine ⟨h.reader_le, fun cells' hcells' => ?_⟩
      obtain rfl := Option.some.inj hcells'
      have hroom := (h.unique answers.lost).writer_le cells hcells
      rw [(unique_cursors answers.lost v).2] at hroom
      rw [length_splice (by simpa using hk)]
      exact hroom
    · exact h
  · exact ⟨h.reader_le, fun cells hcells => absurd hcells (by simp)⟩

theorem Valid.act {ι : Type} (h : v.Valid) (answers : Answers) (op : BufferOp ι) :
    (v.act answers op).view.Valid := by
  cases op with
  | writeBytes i source size => exact h.writeBytes answers source size
  | writeString i string => exact h.writeBytes answers string.source string.size
  | writeCString i cString =>
      cases cString with
      | none => exact h
      | some cString => exact h.writeBytes answers cString.source cString.strlen
  | readBytes i destination size => exact h.readBytes destination size
  | readString i size => exact h.readString size
  | skipBytes i size => exact h.advance (h.count_le size)
  | discardReadBytes i => exact h.discardReadBytes answers
  | clear i => exact valid_empty _
  | mutableBytes i => exact h.unique answers.lost
  | store i k value => exact h.store answers k value
  | _ => exact h

/-! ## The last byte written -/

/-- The byte before the writer is one that was written. It stays so as long as nothing is copied
from where there is nothing. -/
def Written (v : View) : Prop :=
  ∀ cells, v.block = some cells → 0 < v.writerIndex.toNat →
    ∃ x, cells[v.writerIndex.toNat - 1]? = some (some x)

theorem written_empty (c : Option Region) : (⟨0, 0, c⟩ : View).Written :=
  fun _ _ hpos => absurd hpos (Nat.lt_irrefl 0)

theorem written_null (readerIndex writerIndex : Size) :
    (⟨readerIndex, writerIndex, none⟩ : View).Written :=
  fun _ hcells => absurd hcells (by simp)

theorem Written.advance (h : v.Written) (count : Size) : (v.advance count).Written := h

theorem Written.unique (h : v.Written) (lost : Bool) : (v.unique lost).Written := by
  unfold View.unique
  split
  · exact written_null _ _
  · exact h

theorem Written.writeBytes (h : v.Written) (answers : Answers) (source : Option (ℕ → UInt8))
    (size : Size) : (v.writeBytes answers source size).view.Written := by
  by_cases ha : accepts answers.grows (v.unique answers.lost).block source size v.writerIndex
  · obtain ⟨data, cells, -, -, -, hroom, hsum, heq⟩ := writeBytes_accepted ha
    have hpos := toNat_pos_of_ne_zero ha.2.1
    rw [heq]
    intro cells' hcells' _
    obtain rfl := Option.some.inj hcells'
    refine ⟨data (size.toNat - 1), ?_⟩
    dsimp only
    rw [hsum, getElem?_splice (by rw [length_sourceBytes]; exact hroom), length_sourceBytes,
      if_pos (by omega), sourceBytes, List.getElem?_map, List.getElem?_range (by omega)]
    simp only [Option.map_some]
    congr 3
    omega
  · rw [writeBytes_refused ha]
    exact h.unique answers.lost

theorem Written.readBytes (h : v.Written) (destination : Bool) (size : Size) :
    (v.readBytes destination size).view.Written := by
  unfold View.readBytes
  split
  · exact h.advance _
  · exact h

theorem Written.readString (h : v.Written) (size : Size) : (v.readString size).view.Written := by
  unfold View.readString
  dsimp only
  split
  · exact h.advance _
  · split
    · exact h
    · exact h.advance _

theorem Written.discardReadBytes (h : v.Written) (hv : v.Valid) (answers : Answers)
    (hquiet : Fault.source ∉ (v.discardReadBytes answers).faults) :
    (v.discardReadBytes answers).view.Written := by
  unfold View.discardReadBytes at hquiet ⊢
  split
  · exact h
  rename_i hzero
  rw [if_neg hzero] at hquiet
  split
  · exact written_empty _
  rename_i hnone
  rw [if_neg hnone] at hquiet
  split
  · rename_i cells hcells
    have hblock := block_of_unique hcells
    have hroom := hv.readable_le hblock
    have hreadable := hv.toNat_readable
    intro cells' hcells' hpos
    obtain rfl := Option.some.inj hcells'
    obtain ⟨x, hx⟩ := h cells hblock (by dsimp only at hpos; omega)
    refine ⟨x, ?_⟩
    dsimp only at hpos ⊢
    -- the last byte moves along with the others
    rw [getElem?_splice (by rw [length_slice hroom]; omega), length_slice hroom,
      if_pos (by omega), getElem?_slice, if_pos (by omega), ← hx]
    congr 1
    omega
  · split
    · rename_i hlost hgrows
      rw [hlost] at hquiet
      simp only [hgrows, if_true] at hquiet
      exact absurd (List.mem_singleton_self _) hquiet
    · exact written_null _ _

theorem Written.store (h : v.Written) (answers : Answers) (k : Size) (value : UInt8) :
    (v.store answers k value).view.Written := by
  unfold View.store
  split
  · rename_i cells hcells
    split
    · rename_i hk
      intro cells' hcells' hpos
      obtain rfl := Option.some.inj hcells'
      obtain ⟨x, hx⟩ := h cells (block_of_unique hcells) hpos
      dsimp only at hpos ⊢
      rw [getElem?_splice (by simpa using hk), List.length_singleton]
      split
      · rename_i hin
        exact ⟨value, by rw [show v.writerIndex.toNat - 1 - (v.readerIndex + k).toNat = 0 by omega]; rfl⟩
      · exact ⟨x, hx⟩
    · exact h
  · exact written_null _ _

theorem Written.act {ι : Type} (h : v.Written) (hv : v.Valid) (answers : Answers) (op : BufferOp ι)
    (hquiet : Fault.source ∉ (v.act answers op).faults) : (v.act answers op).view.Written := by
  cases op with
  | writeBytes i source size => exact h.writeBytes answers source size
  | writeString i string => exact h.writeBytes answers string.source string.size
  | writeCString i cString =>
      cases cString with
      | none => exact h
      | some cString => exact h.writeBytes answers cString.source cString.strlen
  | readBytes i destination size => exact h.readBytes destination size
  | readString i size => exact h.readString size
  | skipBytes i size => exact h.advance _
  | discardReadBytes i => exact h.discardReadBytes hv answers hquiet
  | clear i => exact written_empty _
  | mutableBytes i => exact h.unique answers.lost
  | store i k value => exact h.store answers k value
  | _ => exact h

end View

/-! ## What every program keeps -/

section Model

variable {ι : Type} [DecidableEq ι] {P : View → Prop} {v v' : ι → Variable View}
  {answers : Answers} {result : Result} {faults : List Fault} {op : BufferOp ι}

/-- Each variable that holds a view holds one of this kind. -/
def AllViews (P : View → Prop) (v : ι → Variable View) : Prop :=
  ∀ i view, v i = .holds view → P view

/-- Copies and moves take views that were there. -/
theorem AllViews.structural (h : AllViews P v) {op : Op ι View}
    (hop : Op.Related (fun x y => x = y ∧ P x) op op)
    (hstep : structural v op = some (v', result, faults)) : AllViews P v' := by
  obtain ⟨v₁, hv₁, heq⟩ := Option.map_eq_some_iff.mp hstep
  obtain rfl := (Prod.mk.inj heq).1
  have hrelated : ∀ i, Variable.Related (fun x y => x = y ∧ P x) (v i) (v i) := by
    intro i
    cases hi : v i with
    | absent => exact .absent
    | movedFrom => exact .movedFrom
    | holds view => exact .holds ⟨rfl, h i view hi⟩
  obtain ⟨v₂, hv₂, hafter⟩ := modelStep_related hrelated hop hv₁
  obtain rfl := Option.some.inj (hv₁.symm.trans hv₂)
  intro i view hi
  have hself := hafter i
  rw [hi] at hself
  cases hself with
  | holds hview => exact hview.2

theorem AllViews.onView (h : AllViews P v) {i : ι} {f : View → Outcome}
    (hf : ∀ view, v i = .holds view → (f view).faults = faults → P (f view).view)
    (hstep : onView v i f = some (v', result, faults)) : AllViews P v' := by
  unfold NPFoundation.onView at hstep
  split at hstep
  · rename_i view hview
    obtain ⟨rfl, hrest⟩ := Prod.mk.inj (Option.some.inj hstep)
    have hnew := hf view hview (Prod.mk.inj hrest).2
    intro j view' hj
    rcases eq_or_ne j i with rfl | hne
    · rw [Function.update_self] at hj
      rw [← Variable.holds.inj hj]
      exact hnew
    · rw [Function.update_of_ne hne] at hj
      exact h j view' hj
  · exact absurd hstep (by simp)

/-- A property of views holds after a step if new views and the view of the call have it. -/
theorem AllViews.privateStep (h : AllViews P v)
    (hfresh : ∀ i capacity, op = .construct i capacity → P (.fresh answers.grows capacity))
    (hact : ∀ view, v op.target = .holds view → (view.act answers op).faults = faults →
      P (view.act answers op).view)
    (hstep : privateStep answers v op = some (v', result, faults)) : AllViews P v' := by
  cases op with
  | construct i capacity => exact h.structural (.construct i ⟨rfl, hfresh i capacity rfl⟩) hstep
  | copyConstruct i j => exact h.structural (.copyConstruct i j) hstep
  | moveConstruct i j => exact h.structural (.moveConstruct i j) hstep
  | copyAssign i j => exact h.structural (.copyAssign i j) hstep
  | moveAssign i j => exact h.structural (.moveAssign i j) hstep
  | destruct i => exact h.structural (.destruct i) hstep
  | _ => exact h.onView hact hstep

/-- A step goes well if its call does. -/
theorem privateStep_quiet
    (hact : ∀ view, v op.target = .holds view → (view.act answers op).faults = [])
    (hstep : privateStep answers v op = some (v', result, faults)) : faults = [] := by
  have hstructural : ∀ {op' : Op ι View}, structural v op' = some (v', result, faults) →
      faults = [] := by
    intro op' h
    obtain ⟨v₁, -, heq⟩ := Option.map_eq_some_iff.mp h
    exact (Prod.mk.inj (Prod.mk.inj heq).2).2.symm
  have hcall : ∀ {f : View → Outcome},
      (∀ view, v op.target = .holds view → (f view).faults = []) →
      onView v op.target f = some (v', result, faults) → faults = [] := by
    intro f hf h
    unfold NPFoundation.onView at h
    split at h
    · rename_i view hview
      rw [← hf view hview]
      exact (Prod.mk.inj (Prod.mk.inj (Option.some.inj h)).2).2.symm
    · exact absurd h (by simp)
  cases op with
  | construct i capacity => exact hstructural hstep
  | copyConstruct i j => exact hstructural hstep
  | moveConstruct i j => exact hstructural hstep
  | copyAssign i j => exact hstructural hstep
  | moveAssign i j => exact hstructural hstep
  | destruct i => exact hstructural hstep
  | _ => exact hcall hact hstep

/-- Whatever the allocator answers. -/
theorem privateStep_valid (h : AllViews View.Valid v)
    (hstep : privateStep answers v op = some (v', result, faults)) : AllViews View.Valid v' :=
  h.privateStep (fun _ _ _ => View.valid_empty _)
    (fun view hview _ => (h _ view hview).act answers op) hstep

/-- As long as nothing is copied from where there is nothing. -/
theorem privateStep_written (hvalid : AllViews View.Valid v) (h : AllViews View.Written v)
    (hquiet : Fault.source ∉ faults)
    (hstep : privateStep answers v op = some (v', result, faults)) : AllViews View.Written v' :=
  h.privateStep (fun _ _ _ => View.written_empty _)
    (fun view hview hfaults => (h _ view hview).act (hvalid _ view hview) answers op
      (by rw [hfaults]; exact hquiet)) hstep

end Model

end NPFoundation
