import NPFoundation.ByteBuffer.Cursors

/-!
# What a buffer is for

A `ByteBuffer` is a queue of bytes, and each variable has its own. The model here has
neither blocks nor cursors: a write appends or is refused, a read takes from the front, a
copy copies. Whether a write is refused is the one thing a queue cannot know, so the step
of the queues is told; `Machine.refuses` says what it is told.

As long as every `allocate` is met, no split loses a block, and the machine and the queues
go through any program side by side. `reallocate` may fail whenever it likes.
-/

namespace NPFoundation

open Slice CopyOnWrite CopyOnWrite.Store Transition

/-! ## Queues -/

abbrev Queue := List UInt8

namespace Queue

variable {ι : Type}

/-- A write of some bytes, or from a null pointer. -/
def append (refused : Bool) (q : Queue) : Option (List UInt8) → Queue × Result
  | none => (q, ⟨0, []⟩)
  | some bytes => if refused then (q, ⟨0, []⟩) else (q ++ bytes, ⟨BitVec.ofNat 64 bytes.length, []⟩)

/-- How many bytes a request for `size` is given. -/
def count (q : Queue) (size : Size) : Size := BitVec.ofNat 64 (min size.toNat q.length)

/-- What a call does to a queue; `none` for a byte stored outside of it, and for a read without
a destination, which is not for taking bytes out. -/
def act (refused : Bool) (q : Queue) : BufferOp ι → Option (Queue × Result)
  | .writeBytes _ source size =>
      some (q.append refused (source.map fun data => (List.range size.toNat).map data))
  | .writeString _ string => some (q.append refused (some string.data))
  | .writeCString _ cString =>
      some (q.append refused (cString.map fun cString => cString.data.takeWhile (· ≠ 0)))
  | .readBytes _ true size | .readString _ size =>
      some (q.drop size.toNat, ⟨q.count size, (q.take size.toNat).map some⟩)
  | .skipBytes _ size => some (q.drop size.toNat, ⟨q.count size, []⟩)
  | .discardReadBytes _ => some (q, .unit)
  | .mutableBytes _ => some (q, .unit)
  | .clear _ => some ([], .unit)
  | .store _ k value => if k.toNat < q.length then some (q.set k.toNat value, .unit) else none
  | _ => none

end Queue

section Model

variable {ι : Type} [DecidableEq ι]

/-- One operation on private queues. -/
def queueStep (refused : Bool) (q : ι → Variable Queue) :
    BufferOp ι → Option ((ι → Variable Queue) × Result)
  | .construct i _ => (modelStep q (.construct i [])).map fun q' => (q', .unit)
  | .copyConstruct i j => (modelStep q (.copyConstruct i j)).map fun q' => (q', .unit)
  | .moveConstruct i j => (modelStep q (.moveConstruct i j)).map fun q' => (q', .unit)
  | .copyAssign i j => (modelStep q (.copyAssign i j)).map fun q' => (q', .unit)
  | .moveAssign i j => (modelStep q (.moveAssign i j)).map fun q' => (q', .unit)
  | .destruct i => (modelStep q (.destruct i)).map fun q' => (q', .unit)
  | op =>
      match q op.target with
      | .holds queue =>
          (queue.act refused op).map fun r => (Function.update q op.target (.holds r.1), r.2)
      | _ => none

end Model

/-- The first bytes of a list, read one by one. -/
theorem map_getD_range {l : List UInt8} {n : ℕ} (hn : n ≤ l.length) :
    (List.range n).map (fun i => some (l.getD i 0)) = (l.take n).map some := by
  apply List.ext_getElem?
  intro k
  rw [List.getElem?_map, List.getElem?_map, List.getElem?_take]
  split
  · rename_i hk
    rw [List.getElem?_range hk, List.getElem?_eq_getElem (by omega)]
    simp [List.getD, List.getElem?_eq_getElem (show k < l.length by omega)]
  · rename_i hk
    rw [List.getElem?_eq_none (by simp; omega)]
    rfl

theorem string_source {string : StdString} {data : ℕ → UInt8} (h : string.source = some data) :
    string.data.length = string.size.toNat
      ∧ sourceBytes data string.size = string.data.map some := by
  obtain rfl := Option.some.inj h
  have hsize : string.size.toNat = string.data.length :=
    Nat.mod_eq_of_lt string.length_lt
  refine ⟨hsize.symm, ?_⟩
  rw [sourceBytes, hsize, map_getD_range (Nat.le_refl _), List.take_length]

theorem cString_source {cString : StdString} {data : ℕ → UInt8} (h : cString.source = some data) :
    (cString.data.takeWhile (· ≠ 0)).length = cString.strlen.toNat
      ∧ sourceBytes data cString.strlen = (cString.data.takeWhile (· ≠ 0)).map some := by
  obtain rfl := Option.some.inj h
  have hle : (cString.data.takeWhile (· ≠ 0)).length ≤ cString.data.length :=
    (List.takeWhile_prefix _).length_le
  have hlen : cString.strlen.toNat = (cString.data.takeWhile (· ≠ 0)).length :=
    Nat.mod_eq_of_lt (hle.trans_lt cString.length_lt)
  refine ⟨hlen.symm, ?_⟩
  rw [sourceBytes, hlen, map_getD_range hle,
    ← List.prefix_iff_eq_take.mp (List.takeWhile_prefix _)]

/-! ## A view and a queue -/

namespace View

variable {ι : Type} {v : View} {q q' : Queue} {answers : Answers} {result : Result}

/-- A write is refused for want of room: the writer would pass `SIZE_MAX`, or the block would
have to grow and does not. -/
def refuses (answers : Answers) (v : View) (op : BufferOp ι) : Bool :=
  match writeOf op with
  | none => false
  | some write =>
      2 ^ 64 ≤ v.writerIndex.toNat + write.2.toNat
        ∨ roomOf v.block < v.writerIndex.toNat + write.2.toNat ∧ answers.grows = false

/-- The view has a block, and the queue is what is readable of it. -/
structure Tracks (v : View) (q : Queue) : Prop where
  block : v.block.isSome
  region : v.readableRegion = some (q.map some)

theorem tracks_fresh (capacity : Size) : (View.fresh true capacity).Tracks [] :=
  ⟨rfl, readableRegion_empty rfl⟩

theorem Tracks.cells (h : v.Tracks q) (hv : v.Valid) :
    ∃ cells, v.block = some cells
      ∧ slice cells v.readerIndex.toNat (v.writerIndex.toNat - v.readerIndex.toNat) = q.map some := by
  obtain ⟨cells, hcells⟩ := Option.isSome_iff_exists.mp h.block
  have hregion := h.region
  rw [readableRegion_some hcells, hv.toNat_readable] at hregion
  exact ⟨cells, hcells, Option.some.inj hregion⟩

theorem Tracks.length (h : v.Tracks q) (hv : v.Valid) :
    q.length = v.writerIndex.toNat - v.readerIndex.toNat := by
  obtain ⟨cells, hcells, hslice⟩ := h.cells hv
  have hroom := hv.writer_le cells hcells
  have hle := hv.toNat_le
  rw [← List.length_map (f := (some : UInt8 → Option UInt8)), ← hslice, length_slice (by omega)]

theorem Tracks.count (h : v.Tracks q) (hv : v.Valid) (size : Size) :
    minimumOf size v.readable = q.count size := by
  have hlt := size.isLt
  apply BitVec.eq_of_toNat_eq
  rw [hv.toNat_count, Queue.count, BitVec.toNat_ofNat, h.length hv, Nat.mod_eq_of_lt (by omega)]

/-- Bytes taken from the front of the queue. -/
theorem Tracks.advance (h : v.Tracks q) (hv : v.Valid) (size : Size) :
    (v.advance (q.count size)).Tracks (q.drop size.toNat)
      ∧ ∀ cells, v.block = some cells →
        slice cells v.readerIndex.toNat (q.count size).toNat = (q.take size.toNat).map some := by
  obtain ⟨cells, hcells, hslice⟩ := h.cells hv
  have hlen := h.length hv
  have hle := hv.toNat_le
  have hcount := hv.toNat_count size
  rw [h.count hv] at hcount
  have hafter : (v.advance (q.count size)).Valid := hv.advance (by omega)
  have hreader : (v.readerIndex + q.count size).toNat
      = v.readerIndex.toNat + (q.count size).toNat := hv.toNat_advance (by omega)
  refine ⟨⟨h.block, ?_⟩, fun cells' hcells' => ?_⟩
  · rw [readableRegion_some (v := v.advance _) hcells, hafter.toNat_readable]
    dsimp only [View.advance]
    rw [hreader, List.map_drop, ← hslice, drop_slice]
    -- past the end there is nothing either way
    rcases Nat.le_total size.toNat q.length with hsize | hsize
    · rw [hcount, Nat.min_eq_left (by omega), Nat.sub_sub]
    · rw [hcount, Nat.min_eq_right (by omega),
        show v.writerIndex.toNat - (v.readerIndex.toNat
          + (v.writerIndex.toNat - v.readerIndex.toNat)) = 0 by omega,
        show v.writerIndex.toNat - v.readerIndex.toNat - size.toNat = 0 by omega,
        slice_zero, slice_zero]
  · obtain rfl : cells = cells' := Option.some.inj (hcells.symm.trans hcells')
    rw [List.map_take, ← hslice, take_slice, hcount]

/-- A write and what it appends, as the queue is told. -/
theorem Tracks.writeBytes (h : v.Tracks q) (hv : v.Valid) (hlost : answers.lost = false)
    {source : Option (ℕ → UInt8)} {size : Size} {bytes : Option (List UInt8)}
    (hnull : source = none → bytes = none)
    (hbytes : ∀ data, source = some data → ∃ l, bytes = some l ∧ l.length = size.toNat
      ∧ sourceBytes data size = l.map some)
    {refused : Bool} (hrefused : refused = true ↔ 2 ^ 64 ≤ v.writerIndex.toNat + size.toNat
      ∨ roomOf v.block < v.writerIndex.toNat + size.toNat ∧ answers.grows = false) :
    (v.writeBytes answers source size).view.Tracks (q.append refused bytes).1
      ∧ (v.writeBytes answers source size).result = (q.append refused bytes).2
      ∧ (v.writeBytes answers source size).faults = [] := by
  have hkeeps : v.KeepsBlock answers := ⟨h.block, hlost⟩
  have hatomic : v.Atomic source size (v.writeBytes answers source size) :=
    atomic_of_keepsBlock hv hkeeps
  obtain ⟨old, hold, happend, -⟩ := hatomic.readable
  obtain rfl : old = q.map some := Option.some.inj (hold.symm.trans h.region)
  by_cases ha : v.GoesThrough answers source size
  · obtain ⟨data, cells, extra, rfl, -, -, hsum, heq⟩ := writeBytes_accepted ha
    obtain ⟨l, rfl, hlen, hl⟩ := hbytes data rfl
    have hno : refused = false := by
      rw [Bool.eq_false_iff, ne_eq, hrefused, not_or]
      have hroom := ha.2.2
      rw [unique_of_keepsBlock hkeeps] at hroom
      refine ⟨by omega, fun hno => ?_⟩
      rcases hroom.2 with hfits | hgrows
      · omega
      · rw [hno.2] at hgrows
        exact absurd hgrows (by simp)
    have hsize : BitVec.ofNat 64 l.length = size := by
      rw [hlen, BitVec.ofNat_toNat, BitVec.setWidth_eq]
    rw [heq] at happend ⊢
    have hregion := happend rfl
    rw [Queue.append, hno, if_neg (by simp), hsize]
    refine ⟨⟨rfl, ?_⟩, rfl, rfl⟩
    rw [hregion, writtenBytes, hl, List.map_append]
  · have hquiet := hatomic.quiet
    rw [writeBytes_refused ha] at hquiet ⊢
    dsimp only at hquiet ⊢
    rw [unique_of_keepsBlock hkeeps] at hquiet ⊢
    -- either there is nothing to append, or there is no room
    have hsame : q.append refused bytes = (q, ⟨0, []⟩) := by
      cases source with
      | none => rw [hnull rfl, Queue.append]
      | some data =>
          obtain ⟨l, rfl, hlen, -⟩ := hbytes data rfl
          rw [Queue.append]
          split
          · rfl
          · rename_i hno
            rw [hrefused, not_or] at hno
            by_cases hzero : size = 0
            · rw [hzero] at hlen
              obtain rfl := List.eq_nil_of_length_eq_zero hlen
              rw [List.append_nil]
              rfl
            · refine absurd ⟨rfl, hzero, by omega, ?_⟩ ha
              rw [unique_of_keepsBlock hkeeps]
              by_cases hgrows : answers.grows = true
              · exact .inr hgrows
              · exact .inl ⟨h.block, by
                  have := hno.2
                  rw [Bool.not_eq_true] at hgrows
                  simp only [hgrows, and_true] at this
                  omega⟩
    rw [hsame]
    exact ⟨h, rfl, hquiet⟩

/-- Compaction moves the bytes and leaves the queue alone. -/
theorem Tracks.discardReadBytes (h : v.Tracks q) (hv : v.Valid) (hlost : answers.lost = false) :
    (v.discardReadBytes answers).view.Tracks q ∧ (v.discardReadBytes answers).result = .unit
      ∧ (v.discardReadBytes answers).faults = [] := by
  have hkeeps : v.KeepsBlock answers := ⟨h.block, hlost⟩
  unfold View.discardReadBytes
  split
  · exact ⟨h, rfl, rfl⟩
  split
  · rename_i hnone
    have hempty := h.region
    rw [readableRegion_empty hnone] at hempty
    exact ⟨⟨h.block, (readableRegion_empty rfl).trans hempty⟩, rfl, rfl⟩
  rw [unique_of_keepsBlock hkeeps]
  obtain ⟨cells, hcells, hslice⟩ := h.cells hv
  have hroom := hv.readable_le hcells
  have hafter := hv.discardReadBytes answers
  rw [hcells]
  dsimp only
  refine ⟨⟨rfl, ?_⟩, rfl, rfl⟩
  have hlen : (slice cells v.readerIndex.toNat v.readable.toNat).length = v.readable.toNat :=
    length_slice hroom
  have hreadable : readable ⟨0, v.readable, some (splice cells 0
      (slice cells v.readerIndex.toNat v.readable.toNat))⟩ = v.readable := by
    rename_i hnone
    have hpos : v.readable > 0 := BitVec.lt_def.mpr (toNat_pos_of_ne_zero hnone)
    exact (if_pos hpos).trans (BitVec.sub_zero _)
  rw [readableRegion_some rfl, hreadable]
  dsimp only
  rw [← hslice, ← hv.toNat_readable]
  have hself := slice_splice_self (l := cells) (i := 0)
    (d := slice cells v.readerIndex.toNat v.readable.toNat) (by omega)
  rw [hlen] at hself
  exact congrArg some hself

/-- A byte stored inside the queue. -/
theorem Tracks.store (h : v.Tracks q) (hv : v.Valid) (hlost : answers.lost = false) {k : Size}
    (hk : k.toNat < q.length) (value : UInt8) :
    (v.store answers k value).view.Tracks (q.set k.toNat value)
      ∧ (v.store answers k value).result = .unit ∧ (v.store answers k value).faults = [] := by
  have hkeeps : v.KeepsBlock answers := ⟨h.block, hlost⟩
  have hlen := h.length hv
  obtain ⟨cells, hcells, hslice⟩ := h.cells hv
  have hroom := hv.writer_le cells hcells
  have hle := hv.toNat_le
  have hsum : (v.readerIndex + k).toNat = v.readerIndex.toNat + k.toNat :=
    hv.toNat_advance (by omega)
  unfold View.store
  rw [unique_of_keepsBlock hkeeps, hcells]
  dsimp only
  rw [if_pos (by omega)]
  refine ⟨⟨rfl, ?_⟩, rfl, rfl⟩
  rw [readableRegion_some rfl]
  dsimp only
  have hreadable : readable ⟨v.readerIndex, v.writerIndex,
      some (splice cells (v.readerIndex + k).toNat [some value])⟩ = v.readable := rfl
  rw [hreadable, hv.toNat_readable, hsum, slice_splice_singleton (by omega) (by omega), hslice,
    List.map_set]

theorem refuses_write {op : BufferOp ι} {source : Option (ℕ → UInt8)} {size : Size}
    (hop : writeOf op = some (source, size)) :
    v.refuses answers op = true ↔ 2 ^ 64 ≤ v.writerIndex.toNat + size.toNat
      ∨ roomOf v.block < v.writerIndex.toNat + size.toNat ∧ answers.grows = false := by
  simp only [refuses, hop, decide_eq_true_eq]

/-- **One call.** What the queue does, the view does, with the same result and without a fault. -/
theorem Tracks.act (h : v.Tracks q) (hv : v.Valid) (hlost : answers.lost = false)
    {op : BufferOp ι} (hact : q.act (v.refuses answers op) op = some (q', result)) :
    (v.act answers op).view.Tracks q' ∧ (v.act answers op).result = result
      ∧ (v.act answers op).faults = [] := by
  cases op with
  | writeBytes i source size =>
      obtain ⟨rfl, rfl⟩ := Prod.mk.inj (Option.some.inj hact)
      refine h.writeBytes hv hlost (fun hnone => by rw [hnone]; rfl) (fun data hdata => ?_)
        (refuses_write rfl)
      rw [hdata]
      refine ⟨_, rfl, by simp, ?_⟩
      rw [sourceBytes, List.map_map]
      rfl
  | writeString i string =>
      obtain ⟨rfl, rfl⟩ := Prod.mk.inj (Option.some.inj hact)
      refine h.writeBytes hv hlost (fun hnone => absurd hnone (by simp [StdString.source]))
        (fun data hdata => ⟨_, rfl, ?_⟩) (refuses_write rfl)
      exact string_source hdata
  | writeCString i cString =>
      cases cString with
      | none =>
          obtain ⟨rfl, rfl⟩ := Prod.mk.inj (Option.some.inj hact)
          exact ⟨h, rfl, rfl⟩
      | some cString =>
          obtain ⟨rfl, rfl⟩ := Prod.mk.inj (Option.some.inj hact)
          refine h.writeBytes hv hlost (fun hnone => absurd hnone (by simp [StdString.source]))
            (fun data hdata => ⟨_, rfl, ?_⟩) (refuses_write rfl)
          exact cString_source hdata
  | readBytes i destination size =>
      cases destination with
      | false => exact absurd hact (by simp [Queue.act])
      | true =>
          obtain ⟨rfl, rfl⟩ := Prod.mk.inj (Option.some.inj hact)
          obtain ⟨cells, hcells, -⟩ := h.cells hv
          have htaken := h.advance hv size
          rw [← htaken.2 cells hcells, ← h.count hv]
          rw [← h.count hv] at htaken
          have hread : v.readBytes true size = ⟨v.advance (minimumOf size v.readable),
              ⟨minimumOf size v.readable, slice cells v.readerIndex.toNat
                (minimumOf size v.readable).toNat⟩, []⟩ := by
            simp only [View.readBytes, hcells]
          rw [View.act, hread]
          exact ⟨htaken.1, rfl, rfl⟩
  | readString i size =>
      obtain ⟨rfl, rfl⟩ := Prod.mk.inj (Option.some.inj hact)
      obtain ⟨cells, hcells, -⟩ := h.cells hv
      have htaken := h.advance hv size
      rw [← htaken.2 cells hcells, ← h.count hv]
      rw [← h.count hv] at htaken
      have hread : v.readString size = ⟨v.advance (minimumOf size v.readable),
          ⟨minimumOf size v.readable, slice cells v.readerIndex.toNat
            (minimumOf size v.readable).toNat⟩, []⟩ := by
        simp only [View.readString, hcells]
      rw [View.act, hread]
      exact ⟨htaken.1, rfl, rfl⟩
  | skipBytes i size =>
      obtain ⟨rfl, rfl⟩ := Prod.mk.inj (Option.some.inj hact)
      have htaken := h.advance hv size
      rw [← h.count hv] at htaken ⊢
      exact ⟨htaken.1, rfl, rfl⟩
  | discardReadBytes i =>
      obtain ⟨rfl, rfl⟩ := Prod.mk.inj (Option.some.inj hact)
      exact h.discardReadBytes hv hlost
  | clear i =>
      obtain ⟨rfl, rfl⟩ := Prod.mk.inj (Option.some.inj hact)
      exact ⟨⟨h.block, readableRegion_empty rfl⟩, rfl, rfl⟩
  | mutableBytes i =>
      obtain ⟨rfl, rfl⟩ := Prod.mk.inj (Option.some.inj hact)
      simp only [View.act, View.mutableBytes, View.unique, hlost]
      exact ⟨h, rfl, rfl⟩
  | store i k value =>
      simp only [Queue.act] at hact
      split at hact
      · rename_i hk
        obtain ⟨rfl, rfl⟩ := Prod.mk.inj (Option.some.inj hact)
        exact h.store hv hlost hk value
      · exact absurd hact (by simp)
  | _ => exact absurd hact (by simp [Queue.act])

end View

/-! ## Machine and queues side by side -/

section

variable {ι κ : Type} [DecidableEq ι] [DecidableEq κ] [Fintype ι] {a : ByteBufferAllocator}
  {s s' : Machine ι κ} {q q' : ι → Variable Queue} {op : BufferOp ι} {result : Result}

/-- What the queues are told of an operation. -/
def Machine.refuses (a : ByteBufferAllocator) (s : Machine ι κ) (op : BufferOp ι) : Bool :=
  match s.view op.target with
  | .holds view => view.refuses (s.answers a op.target) op
  | _ => false

/-- The machine and the queues do the same operation. -/
def pairStep (a : ByteBufferAllocator) (p : Machine ι κ × (ι → Variable Queue)) (op : BufferOp ι) :
    Option (Machine ι κ × (ι → Variable Queue)) :=
  match p.1.bufferStep a op, queueStep (p.1.refuses a op) p.2 op with
  | some (s', _), some (q', _) => some (s', q')
  | _, _ => none

/-- Each buffer shows the queue of its variable. -/
def Shows (s : Machine ι κ) (q : ι → Variable Queue) : Prop :=
  ∀ i, Variable.Related View.Tracks (s.view i) (q i)

omit [DecidableEq κ] in
/-- The private views do what the queues do. -/
theorem privateStep_of_queues (ha : ∀ n, a.allocates n = true) (hs : s.Good) (hq : Shows s q)
    (hstep : queueStep (s.refuses a op) q op = some (q', result)) :
    ∃ v', privateStep (s.answers a op.target) s.view op = some (v', result, [])
      ∧ ∀ i, Variable.Related View.Tracks (v' i) (q' i) := by
  -- what only makes, copies, moves or destroys does not look at bytes
  have hstructural : ∀ {op₁ : Op ι View} {op₂ : Op ι Queue}, Op.Related View.Tracks op₁ op₂ →
      (modelStep q op₂).map (fun q' => (q', Result.unit)) = some (q', result) →
      ∃ v', structural s.view op₁ = some (v', result, [])
        ∧ ∀ i, Variable.Related View.Tracks (v' i) (q' i) := by
    intro op₁ op₂ hop h
    obtain ⟨q₁, hq₁, heq⟩ := Option.map_eq_some_iff.mp h
    obtain ⟨rfl, rfl⟩ := Prod.mk.inj heq
    obtain ⟨v', hv', hafter⟩ := modelStep_related hq hop hq₁
    exact ⟨v', by rw [structural, hv']; rfl, hafter⟩
  have hcall : ∀ {i : ι}, op.target = i →
      (match q i with
        | .holds queue => (queue.act (s.refuses a op) op).map fun r =>
            (Function.update q i (.holds r.1), r.2)
        | _ => none) = some (q', result) →
      ∃ v', onView s.view i (fun view => view.act (s.answers a i) op) = some (v', result, [])
        ∧ ∀ i, Variable.Related View.Tracks (v' i) (q' i) := by
    intro i hi h
    split at h
    · rename_i queue hqueue
      have hrelated := hq i
      rw [hqueue] at hrelated
      obtain ⟨view, hview, htracks⟩ := hrelated.exists_holds
      obtain ⟨r, hr, heq⟩ := Option.map_eq_some_iff.mp h
      obtain ⟨rfl, rfl⟩ := Prod.mk.inj heq
      rw [Machine.refuses, hi, hview] at hr
      obtain ⟨hafter, hresult, hquiet⟩ :=
        htracks.act (hs.valid i view hview) (answers_kept ha s i) hr
      refine ⟨_, ?_, related_update hq i (.holds hafter)⟩
      rw [onView, hview]
      dsimp only
      rw [hresult, hquiet]
    · exact absurd h (by simp)
  cases op with
  | construct i capacity =>
      have hgrows : s.view i = .absent → (s.answers a i).grows = true := by
        intro habsent
        rw [Machine.answers, viewOf_absent habsent]
        exact ha _
      have habsent : s.view i = .absent := by
        have hi := hq i
        simp only [queueStep, modelStep] at hstep
        split at hstep
        · rename_i habsent
          rw [habsent] at hi
          generalize s.view i = x at hi
          cases hi
          rfl
        · exact absurd hstep (by simp)
      refine hstructural (.construct i ?_) hstep
      rw [show BufferOp.target (.construct i capacity) = i from rfl, hgrows habsent]
      exact View.tracks_fresh capacity
  | copyConstruct i j => exact hstructural (.copyConstruct i j) hstep
  | moveConstruct i j => exact hstructural (.moveConstruct i j) hstep
  | copyAssign i j => exact hstructural (.copyAssign i j) hstep
  | moveAssign i j => exact hstructural (.moveAssign i j) hstep
  | destruct i => exact hstructural (.destruct i) hstep
  | _ => exact hcall rfl hstep

/-- **One operation.** What the queues do, the machine does, with the same result. -/
theorem queueStep_refines (ha : ∀ n, a.allocates n = true) (hs : s.Good) (hq : Shows s q)
    (hstep : queueStep (s.refuses a op) q op = some (q', result)) (hfew : FewAfter a s op) :
    ∃ s', s.bufferStep a op = some (s', result) ∧ s'.Good ∧ Shows s' q'
      ∧ s'.memory.faults = s.memory.faults := by
  obtain ⟨v', hv', hafter⟩ := privateStep_of_queues ha hs hq hstep
  obtain ⟨s', hs', hgood, hview, hfaults, -⟩ := bufferStep_refines hs hv' hfew
  refine ⟨s', hs', hgood, fun i => by rw [hview]; exact hafter i, ?_⟩
  rw [hfaults, List.append_nil]

/-- No operation of the program makes more handles than a count can hold. -/
def FewSharing (a : ByteBufferAllocator) (ops : List (BufferOp ι)) : Prop :=
  Along (pairStep a) (fun p op => FewAfter a p.1 op)
    ((.start, fun _ => .absent) : Machine ι κ × (ι → Variable Queue)) ops

omit [DecidableEq κ] in
/-- A program with fewer than `2 ^ 32` buffers cannot share more. -/
theorem fewSharing_of_card (hcard : Fintype.card ι < 2 ^ 32) (a : ByteBufferAllocator)
    (ops : List (BufferOp ι)) : FewSharing (κ := κ) a ops := by
  refine Along.mono (C := fun _ _ => True) (fun p op _ s' result _ b => ?_)
    (along_of_forall (C := fun _ => True) _ fun _ _ => trivial)
  exact Nat.lt_of_le_of_lt (Finset.card_le_univ _) hcard

omit [DecidableEq κ] [Fintype ι] in
theorem pairStep_some {p p' : Machine ι κ × (ι → Variable Queue)} (h : pairStep a p op = some p') :
    (∃ result, p.1.bufferStep a op = some (p'.1, result))
      ∧ ∃ result, queueStep (p.1.refuses a op) p.2 op = some (p'.2, result) := by
  unfold pairStep at h
  split at h
  · rename_i hs hq
    obtain rfl := Option.some.inj h
    exact ⟨⟨_, hs⟩, ⟨_, hq⟩⟩
  · exact absurd h (by simp)

/-- What a paired run keeps. -/
structure Side (p : Machine ι κ × (ι → Variable Queue)) : Prop where
  good : p.1.Good
  shows : Shows p.1 p.2
  quiet : p.1.memory.faults = []

theorem pairStep_side (ha : ∀ n, a.allocates n = true) {p p' : Machine ι κ × (ι → Variable Queue)}
    (hfew : FewAfter a p.1 op) (hp : Side p) (h : pairStep a p op = some p') : Side p' := by
  obtain ⟨⟨r₁, hs⟩, ⟨r₂, hq⟩⟩ := pairStep_some h
  obtain ⟨s', hs', hgood, hshows, hfaults⟩ := queueStep_refines ha hp.good hp.shows hq hfew
  obtain rfl := (Prod.mk.inj (Option.some.inj (hs.symm.trans hs'))).1
  exact ⟨hgood, hshows, hfaults.trans hp.quiet⟩

omit [DecidableEq ι] [DecidableEq κ] in
theorem start_side : Side ((.start, fun _ => .absent) : Machine ι κ × (ι → Variable Queue)) :=
  ⟨start_lawful.good, fun _ => .absent, rfl⟩

/-- **Buffers are queues.** If every `allocate` is met, then whatever `reallocate` does and
whatever program the machine and the queues have gone through together: each buffer shows the
queue of its variable, nothing has gone wrong, and any operation the queues allow next the
machine performs, with the same result. -/
theorem buffers_refine_queues (a : ByteBufferAllocator) (ha : ∀ n, a.allocates n = true)
    (ops : List (BufferOp ι)) (hfew : FewSharing (κ := κ) a ops)
    (hrun : run (pairStep a) (.start, fun _ => .absent) ops = some (s, q)) :
    Shows s q ∧ s.memory.faults = []
      ∧ ∀ op q' result, queueStep (s.refuses a op) q op = some (q', result) → FewAfter a s op →
        ∃ s', s.bufferStep a op = some (s', result) ∧ pairStep a (s, q) op = some (s', q')
          ∧ Shows s' q' := by
  have hside : Side (s, q) :=
    run_invariant_along (fun hfew hp h => pairStep_side ha hfew hp h) hfew start_side hrun
  refine ⟨hside.shows, hside.quiet, fun op q' result hstep hfew => ?_⟩
  obtain ⟨s', hs', -, hshows, -⟩ := queueStep_refines ha hside.good hside.shows hstep hfew
  exact ⟨s', hs', by rw [pairStep, hs', hstep], hshows⟩

end

/-- `reallocate` is refused at the third request, and moves the block at every other. -/
def ByteBufferAllocator.moving : ByteBufferAllocator :=
  ⟨fun _ => true, fun n => if n = 2 then .fails else .moves⟩

/-- A copy, a write that splits it and is refused its growth, the same write again, a read, a
store, a move. -/
def exchange : List (BufferOp (Fin 3)) :=
  [.construct 0 1, .writeBytes 0 (some fun _ => 7) 1, .copyConstruct 1 0,
    .writeBytes 1 (some fun _ => 8) 1, .writeBytes 1 (some fun _ => 8) 1, .readString 1 1,
    .store 1 0 6, .discardReadBytes 1, .moveConstruct 2 1, .destruct 1]

theorem buffers_refine_queues_exchange :
    ∃ (s : Machine (Fin 3) Empty) (q : Fin 3 → Variable Queue),
      run (pairStep .moving) (.start, fun _ => .absent) exchange = some (s, q)
        ∧ q 0 = .holds [7] ∧ q 2 = .holds [6] ∧ Shows s q := by
  obtain ⟨⟨s, q⟩, hrun⟩ : ∃ p : Machine (Fin 3) Empty × (Fin 3 → Variable Queue),
      run (pairStep .moving) (.start, fun _ => .absent) exchange = some p := ⟨_, rfl⟩
  have hqueues : q 0 = .holds [7] ∧ q 2 = .holds [6] := by
    rw [← (Prod.mk.inj (Option.some.inj hrun)).2]
    exact ⟨rfl, rfl⟩
  exact ⟨s, q, hrun, hqueues.1, hqueues.2, (buffers_refine_queues .moving (fun _ => rfl) exchange
    (fewSharing_of_card (by decide) _ _) hrun).1⟩

/-! ## One copy too many -/

/-- Copies, on both sides. -/
theorem run_pair_copies {ι κ : Type} [DecidableEq ι] [DecidableEq κ] {a : ByteBufferAllocator}
    {s s' : Machine ι κ} {q q' : ι → Variable Queue} {l : List ι} {j : ι}
    (hs : run (Machine.next a) s (copies κ l j) = some s')
    (hq : run (fun q i => modelStep q (.copyConstruct i j)) q l = some q') :
    run (pairStep a) (s, q) (l.map fun i => .copyConstruct i j) = some (s', q') := by
  rw [copies, run_actions] at hs
  rw [run_actions]
  refine run_both (fun {s s' q q' i} hs hq => ?_) hs hq
  obtain ⟨r, hr, rfl⟩ := Option.map_eq_some_iff.mp hs
  have hstep : s.bufferStep a (.copyConstruct i j) = some r := hr
  simp only [pairStep, hstep, queueStep, hq, Option.map_some]

/-- One byte, copied to `n + 1` others, and then overwritten. -/
def overwriteOne (n : ℕ) : List (BufferOp (Fin (n + 2))) :=
  [.construct 0 1, .writeBytes 0 (some fun _ => 7) 1]
    ++ (others (n + 1)).map (fun i => .copyConstruct i 0) ++ [.store 0 0 8]

/-- When the count is at 0, `unique()` takes the block for its own. -/
theorem overwriteOne_seen {n : ℕ} (hn : 1 + UInt32.ofNat (n + 1) = 0) :
    ∃ (s : Machine (Fin (n + 2)) Empty) (q : Fin (n + 2) → Variable Queue) (view : View),
      run (pairStep .granting) (.start, fun _ => .absent) (overwriteOne n) = some (s, q)
        ∧ q 1 = .holds [7] ∧ s.view 1 = .holds view ∧ view.readableRegion = some [some 8] := by
  obtain ⟨⟨s₀, q₀⟩, hfirst⟩ : ∃ p : Machine (Fin (n + 2)) Empty × (Fin (n + 2) → Variable Queue),
      run (pairStep .granting) (.start, fun _ => .absent)
        [.construct 0 1, .writeBytes 0 (some fun _ => 7) 1] = some p := ⟨_, rfl⟩
  have hs₀ := (Prod.mk.inj (Option.some.inj hfirst)).1
  have hq₀ := (Prod.mk.inj (Option.some.inj hfirst)).2
  have hbuffer : s₀.buffers 0 = some ⟨0, 1, some 0⟩ := by rw [← hs₀]; rfl
  have hblock : s₀.store.blocks 0 = some ⟨⟨some 0, 1⟩, 1⟩ := by rw [← hs₀]; rfl
  have hregion : s₀.store.world.regions 0 = some [some 7] := by rw [← hs₀]; rfl
  have hqueue : q₀ 0 = .holds [7] := by rw [← hq₀]; rfl
  have hnone : ∀ i ∈ others (n + 1), s₀.buffers i = none ∧ q₀ i = .absent := by
    intro i hi
    have hne := mem_others.mp hi
    rw [← hs₀, ← hq₀]
    exact ⟨(Function.update_of_ne hne _ _).trans (Function.update_of_ne hne _ _),
      (Function.update_of_ne hne _ _).trans (Function.update_of_ne hne _ _)⟩
  obtain ⟨s₁, hrun₁, hown, hcopy, hblock₁, hworld⟩ := exists_run_copies s₀ (a := .granting)
    hbuffer rfl hblock (nodup_others (n + 1)) fun i hi => (hnone i hi).1
  have hcopies := run_pair_copies hrun₁
    (run_copies_model q₀ hqueue (nodup_others (n + 1)) fun i hi => (hnone i hi).2)
  have hone := hcopy 1 (mem_others.mpr (by simp))
  have hregion₁ : s₁.store.world.regions 0 = some [some 7] := by rw [hworld]; exact hregion
  have hzero : (1 : UInt32) + UInt32.ofNat (others (n + 1)).length = 0 := by
    rw [length_others, hn]
  rw [hzero] at hblock₁
  have hstore : s₁.bufferStep .granting (.store 0 0 8) = some (s₁.setBuffer { s₁.store with
      world := s₁.store.world.writeCells 0 0 [some 8] } 0 (some ⟨0, 1, some 0⟩), .unit) := by
    simp [Machine.bufferStep, Machine.onBuffer, hown, ByteBuffer.mutableBytes, ByteBuffer.unique,
      Store.unique, hblock₁, Store.read]
  have hqueue₁ : queueStep (s₁.refuses .granting (.store 0 0 8))
      (assigned q₀ (others (n + 1)) (.holds [7])) (.store 0 0 8)
        = some (Function.update (assigned q₀ (others (n + 1)) (.holds [7])) 0 (.holds [8]), .unit) := by
    have hself : assigned q₀ (others (n + 1)) (.holds [7]) 0 = .holds [7] := by
      simp [assigned, hqueue]
    simp only [queueStep, BufferOp.target, hself]
    rfl
  rw [overwriteOne, List.append_assoc, run_append, hfirst, Option.bind_some, run_append, hcopies,
    Option.bind_some]
  refine ⟨_, _, ⟨0, 1, some [some 8]⟩, by rw [run_cons, pairStep, hstore, hqueue₁]; rfl, ?_, ?_, rfl⟩
  · rw [Function.update_of_ne (by simp)]
    exact if_pos (mem_others.mpr (by simp))
  · rw [Machine.view]
    simp [Machine.setBuffer, hone, viewOf, ByteBuffer.read, Store.read, hblock₁, ByteBufferStorage.contents,
      Memory.writeCells, hregion₁, splice]

/-- The queues as they stand without a bound on the copies: a byte stored through one buffer is
seen through the others. -/
theorem buffers_not_private :
    ∃ (a : ByteBufferAllocator) (ops : List (BufferOp (Fin (2 ^ 32))))
      (s : Machine (Fin (2 ^ 32)) Empty) (q : Fin (2 ^ 32) → Variable Queue) (i : Fin (2 ^ 32))
      (view : View),
      (∀ n, a.allocates n = true) ∧ run (pairStep a) (.start, fun _ => .absent) ops = some (s, q)
        ∧ q i = .holds [7] ∧ s.view i = .holds view ∧ view.readableRegion = some [some 8] := by
  obtain ⟨n, hn⟩ : ∃ n, n + 2 = 2 ^ 32 := ⟨2 ^ 32 - 2, rfl⟩
  have hwraps : 1 + UInt32.ofNat (n + 1) = 0 := by
    rw [show n + 1 = 2 ^ 32 - 1 by omega]
    decide
  rw [← hn]
  obtain ⟨s, q, view, h⟩ := overwriteOne_seen hwraps
  exact ⟨.granting, overwriteOne n, s, q, 1, view, fun _ => rfl, h⟩

end NPFoundation
