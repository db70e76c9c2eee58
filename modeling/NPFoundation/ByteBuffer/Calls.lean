import NPFoundation.ByteBuffer.Refinement

/-!
# Every operation of the machine, against the private views

The member functions of a buffer, one lemma each, and then a whole step: whatever the
model with private views allows, the machine does, with the same result, and the two
stay together. The storages a program has itself do not disturb any of it.
-/

namespace NPFoundation

open Slice CopyOnWrite CopyOnWrite.Store

variable {ι κ : Type}

/-- What the allocator will answer to a call on variable `i`. -/
def Machine.answers (a : ByteBufferAllocator) (s : Machine ι κ) (i : ι) : Answers :=
  match s.buffers i with
  | none => ⟨false, a.allocates s.memory.requests⟩
  | some buffer =>
      match buffer.storage.bind s.store.blocks with
      | none => ⟨false, false⟩
      | some block => NPFoundation.answers a s.memory (1 < block.retainCount) block.element

/-- Where every `allocate` is met, no split loses a block. -/
theorem answers_kept {a : ByteBufferAllocator} (ha : ∀ n, a.allocates n = true) (s : Machine ι κ)
    (i : ι) : (s.answers a i).lost = false := by
  unfold Machine.answers
  split
  · rfl
  · split
    · rfl
    · simp [answers, ha]

variable [DecidableEq ι] [DecidableEq κ] [Fintype ι] {a : ByteBufferAllocator}
  {s s' : Machine ι κ} {i j : ι} {view : View} {buffer : ByteBuffer} {b : ℕ}
  {e : ByteBufferStorage}

omit [DecidableEq ι] [DecidableEq κ] [Fintype ι] in
theorem view_holds (h : s.view i = .holds view) :
    ∃ buffer b e, s.buffers i = some buffer ∧ buffer.storage = some b
      ∧ s.store.elements b = some e
      ∧ view = ⟨buffer.readerIndex, buffer.writerIndex, e.contents s.memory⟩ :=
  viewOf_holds h

omit [DecidableEq ι] [DecidableEq κ] in
/-- The count tells whether the storage is shared. -/
theorem answers_eq (hs : s.Good) (hi : s.buffers i = some buffer) (hb : buffer.storage = some b)
    (he : s.store.elements b = some e) :
    s.answers a i = answers a s.memory (1 < handlesOn s.handles b) e := by
  obtain ⟨block, hblock, rfl⟩ := Option.map_eq_some_iff.mp he
  have hcount := (hs.counted.live hblock).1
  have hiff : 1 < block.retainCount ↔ 1 < handlesOn s.handles b := by
    rw [← hcount]
    exact UInt32.lt_iff_toNat_lt
  simp only [Machine.answers, hi, hb, Option.bind_some, hblock, hiff]

theorem construct_follows (hs : s.Good) (hi : s.view i = .absent) (capacity : Size) :
    ∃ s', s.bufferStep a (.construct i capacity) = some (s', .unit)
      ∧ Follows s s' (Function.update s.view i (.holds (.fresh (s.answers a i).grows capacity)))
        [] := by
  have hnone := viewOf_absent hi
  have hhandle : s.handles i = none := by rw [Machine.handles, hnone]; rfl
  have hdead : s.store.blocks s.store.next = none := hs.counted.fresh (Nat.le_refl _)
  have hfresh : owners s.store s.storages (.inl s.store.next) = none := by
    simp [owners, elements, hdead]
  obtain ⟨m', e', hmade, hupdates, hfaults, hcontents⟩ :=
    construct_spec hs.owned hfresh capacity (a := a)
  have halone : Alone s i (newBlock { s.store with world := m' } e').1 s.store.next e' := by
    refine ⟨newBlock_elements _ _, hupdates, ?_, fun {j c} _ hj hcb => ?_⟩
    · exact ((hs.counted.world m').newBlock e').congr
        (handlesOn_construct hhandle (hs.counted.dead hdead))
    · have hlt := hs.counted.lt_next (handlesOn_pos hj)
      omega
  have hfollows := halone.follows 0 0 [] (by rw [List.append_nil]; exact hfaults)
  refine ⟨_, ?_, hfollows.congr ?_ rfl⟩
  · simp only [Machine.bufferStep, hnone, ByteBuffer.construct]
    rw [show ByteBufferStorage.construct a s.store.world capacity = (m', e') from hmade]
    rfl
  · rw [show e'.contents (newBlock { s.store with world := m' } e').1.world = e'.contents m' from rfl,
      hcontents]
    simp only [View.fresh, Machine.answers, hnone]

/-! ## Calls that write -/

theorem assert_faults (m : Memory) (condition : Bool) (f : Fault) :
    (m.assert condition f).faults = m.faults ++ (if condition then [] else [f])
      ∧ (m.assert condition f).regions = m.regions ∧ (m.assert condition f).next = m.next
      ∧ (m.assert condition f).log = m.log := by
  cases condition with
  | true => simp [Memory.assert]
  | false => simp [Memory.assert, Memory.fault]

/-- A call on variable `i` does to its view what `outcome` says. -/
def Does (s : Machine ι κ) (i : ι) (f : ByteBuffer → Option (Storages × ByteBuffer × Result))
    (outcome : Outcome) : Prop :=
  ∃ s', s.onBuffer i f = some (s', outcome.result)
    ∧ Follows s s' (Function.update s.view i (.holds outcome.view)) outcome.faults

omit [DecidableEq κ] in
theorem does_of_eq {f : ByteBuffer → Option (Storages × ByteBuffer × Result)} {outcome : Outcome}
    (hi : s.buffers i = some buffer) (store : Storages) (buffer' : ByteBuffer)
    (hf : f buffer = some (store, buffer', outcome.result))
    (hfollows : Follows s (s.setBuffer store i (some buffer'))
      (Function.update s.view i (.holds outcome.view)) outcome.faults) : Does s i f outcome :=
  ⟨_, by simp only [Machine.onBuffer, hi, hf, Option.map_some], hfollows⟩

omit [DecidableEq ι] [DecidableEq κ] in
/-- The view after `unique()`, as the storage shows it. -/
theorem unique_block (hs : s.Good) (hi : s.buffers i = some buffer) (hb : buffer.storage = some b)
    (he : s.store.elements b = some e) (readerIndex writerIndex : Size) :
    ((⟨readerIndex, writerIndex, e.contents s.memory⟩ : View).unique (s.answers a i).lost).block
      = (if (answers a s.memory (1 < handlesOn s.handles b) e).lost then none
          else e.contents s.memory) := by
  rw [answers_eq hs hi hb he, View.unique]
  split
  · rfl
  · rfl

/-- What `unique()` does to a view, and the storage it leaves. -/
theorem unique_view (hs : s.Good) (hview : s.view i = .holds view) :
    ∃ buffer store b e, s.buffers i = some buffer
      ∧ buffer.unique a s.store = some (store, { buffer with storage := some b }, b, e)
      ∧ Alone s i store b e ∧ store.world.faults = s.memory.faults
      ∧ buffer.readerIndex = view.readerIndex ∧ buffer.writerIndex = view.writerIndex
      ∧ e.contents store.world = (view.unique (s.answers a i).lost).block
      ∧ grants a store.world e = (s.answers a i).grows := by
  obtain ⟨buffer, b, e, hi, hb, he, rfl⟩ := view_holds hview
  obtain ⟨store, b₁, e₁, hunique, halone, hfaults, hcontents, hgrants⟩ :=
    unique_alone hs hi hb he (a := a)
  refine ⟨buffer, store, b₁, e₁, hi, hunique, halone, hfaults, rfl, rfl, ?_, ?_⟩
  · rw [hcontents, unique_block hs hi hb he]
  · rw [hgrants, answers_eq hs hi hb he]

theorem writeBytes_does (hs : s.Good) (hview : s.view i = .holds view)
    (source : Option (ℕ → UInt8)) (size : Size) :
    Does s i (fun buffer => buffer.writeBytes a s.store (.source source) size)
      (view.writeBytes (s.answers a i) source size) := by
  obtain ⟨buffer, store, b, e, hi, hunique, halone, hfaults, hr, hw, hcontents, hgrants⟩ :=
    unique_view hs hview (a := a)
  obtain ⟨m', e', n, hset, hupdates, hfaults', hblock⟩ :=
    setBytes_spec halone.updates.owned (Function.update_self _ _ _) source size buffer.writerIndex
      (a := a)
  have hroom := (hupdates.owned.capacity_eq (Function.update_self _ _ _)).1
  have halone' := halone.set hupdates
  obtain ⟨hf, hregions, hnext, hlog⟩ :=
    assert_faults m' (decide (buffer.writerIndex + n ≤ e'.capacity)) .writerIndex
  have hasserted := halone'.faults hregions hnext hlog
  have hread : (store.setElement b m' e').read (some b) = some e' := halone'.element
  have hout : view.writeBytes (s.answers a i) source size
      = ⟨⟨buffer.readerIndex, buffer.writerIndex + n, e'.contents m'⟩, ⟨n, []⟩,
          if buffer.writerIndex + n ≤ e'.capacity then [] else [.writerIndex]⟩ := by
    rw [hgrants, hcontents] at hblock
    simp only [View.writeBytes, ← hr, ← hw, ← hblock, ← hroom, BitVec.le_def]
  rw [hout]
  refine does_of_eq hi { store.setElement b m' e' with
    world := m'.assert (decide (buffer.writerIndex + n ≤ e'.capacity)) .writerIndex }
    ⟨buffer.readerIndex, buffer.writerIndex + n, some b⟩ ?_ ((hasserted.follows _ _ _ ?_).congr ?_ rfl)
  · simp only [ByteBuffer.writeBytes, hunique, hset, ByteBuffer.moveWriterIndexForwardBy,
      ByteBuffer.moveWriterIndexTo, ByteBuffer.capacity, ByteBuffer.read, hread, Option.map_some]
    rfl
  · rw [hf, hfaults', hfaults]
    simp
  · rw [ByteBufferStorage.contents, hregions]
    rfl

theorem mutableBytes_does (hs : s.Good) (hview : s.view i = .holds view) :
    Does s i (fun buffer => (buffer.mutableBytes a s.store).map fun r => (r.1, r.2.1, .unit))
      (view.mutableBytes (s.answers a i)) := by
  obtain ⟨buffer, store, b, e, hi, hunique, halone, hfaults, hr, hw, hcontents, -⟩ :=
    unique_view hs hview (a := a)
  refine does_of_eq hi store ⟨buffer.readerIndex, buffer.writerIndex, some b⟩ ?_
    ((halone.follows _ _ [] (by rw [hfaults, List.append_nil])).congr ?_ rfl)
  · simp only [ByteBuffer.mutableBytes, hunique, Option.map_some]
    rfl
  · obtain ⟨hreader, hwriter⟩ := View.unique_cursors (s.answers a i).lost view
    rw [hcontents, hr, hw, ← hreader, ← hwriter]
    rfl

theorem store_does (hs : s.Good) (hview : s.view i = .holds view) (k : Size) (value : UInt8) :
    Does s i (fun buffer =>
        (buffer.mutableBytes a s.store).map fun r =>
          let m := match r.2.2 with
            | none => r.1.world.fault .destination
            | some bytes =>
                r.1.world.writeCells bytes (buffer.readerIndex + k).toNat [some value]
          ({ r.1 with world := m }, r.2.1, .unit))
      (view.store (s.answers a i) k value) := by
  obtain ⟨buffer, store, b, e, hi, hunique, halone, hfaults, hr, hw, hcontents, -⟩ :=
    unique_view hs hview (a := a)
  have hself := Function.update_self (Sum.inl b) (some e) (owners s.store s.storages)
  have hmutable : buffer.mutableBytes a s.store
      = some (store, { buffer with storage := some b }, e.bytes) := by
    simp only [ByteBuffer.mutableBytes, hunique, Option.map_some]
  rw [View.store, ← hcontents, ← hr, ← hw]
  cases hp : e.bytes with
  | none =>
      have hnone : e.contents store.world = none := by simp [ByteBufferStorage.contents, hp]
      simp only [hnone]
      have hlost := halone.faults (m := store.world.fault .destination) rfl rfl rfl
      refine does_of_eq hi _ ⟨buffer.readerIndex, buffer.writerIndex, some b⟩ ?_
        ((hlost.follows _ _ [.destination] ?_).congr ?_ rfl)
      · simp only [hmutable, Option.map_some, hp]
      · simp [Memory.fault, hfaults]
      · simp [ByteBufferStorage.contents, hp, hr, hw]
  | some p =>
      obtain ⟨cells, hcells, hsome, -, -⟩ := halone.updates.owned.contents hself hp
      simp only [hsome]
      split
      · rename_i hroom
        have hlen : (splice cells (buffer.readerIndex + k).toNat [some value]).length
            = cells.length := length_splice (by simpa using hroom)
        have hwritten := halone.world (halone.updates.owned.updates hself
          (halone.updates.owned.overwrite hself hp hcells hlen))
        refine does_of_eq hi _ ⟨buffer.readerIndex, buffer.writerIndex, some b⟩ ?_
          ((hwritten.follows _ _ [] ?_).congr ?_ rfl)
        · simp only [hmutable, Option.map_some, hp, Memory.writeCells, hcells,
            List.length_singleton, if_pos hroom]
        · simpa using hfaults
        · simp [ByteBufferStorage.contents, hp, hr, hw]
      · rename_i hroom
        have hlost := halone.faults (m := store.world.fault .destination) rfl rfl rfl
        refine does_of_eq hi _ ⟨buffer.readerIndex, buffer.writerIndex, some b⟩ ?_
          ((hlost.follows _ _ [.destination] ?_).congr ?_ rfl)
        · simp only [hmutable, Option.map_some, hp, Memory.writeCells, hcells,
            List.length_singleton, if_neg hroom]
        · simp [Memory.fault, hfaults]
        · -- the block is there, so it was not lost
          have hkept : view.block = some cells :=
            View.block_of_unique (hcontents.symm.trans hsome)
          rw [show e.contents (store.world.fault .destination) = some cells from hsome, hr, hw,
            ← hkept]

/-! ## Calls that only move the cursors -/

omit [DecidableEq κ] [Fintype ι] [DecidableEq ι] in
/-- A buffer shows cells, not faults. -/
theorem viewOf_regions (st : Storages) (m : Memory) (hregions : m.regions = st.world.regions)
    (o : Option ByteBuffer) : viewOf { st with world := m } o = viewOf st o := by
  cases o with
  | none => rfl
  | some buffer =>
      have hcontents : ∀ e : ByteBufferStorage, e.contents m = e.contents st.world := by
        intro e
        rw [ByteBufferStorage.contents, hregions]
        rfl
      simp only [viewOf, hcontents]
      rfl

omit [DecidableEq κ] in
theorem cursors_follow (hs : s.Good) (hi : s.buffers i = some buffer) (hb : buffer.storage = some b)
    (he : s.store.elements b = some e) (readerIndex writerIndex : Size) (faults : List Fault) :
    Follows s
      (s.setBuffer { s.store with world := { s.memory with faults := s.memory.faults ++ faults } } i
        (some ⟨readerIndex, writerIndex, some b⟩))
      (Function.update s.view i (.holds ⟨readerIndex, writerIndex, e.contents s.memory⟩))
      faults where
  counted := by
    have hhandle : s.handles i = some (some b) := by rw [Machine.handles, hi, Option.map_some, hb]
    rw [setBuffer_handles, Option.map_some, ← hhandle, Function.update_eq_self]
    exact hs.counted.world _
  owned := hs.owned.recorded rfl rfl rfl
  view := by
    funext j
    rw [Machine.view]
    dsimp only [Machine.setBuffer]
    rw [viewOf_regions s.store { s.memory with faults := s.memory.faults ++ faults } rfl]
    rcases eq_or_ne j i with rfl | hne
    · rw [Function.update_self, Function.update_self]
      exact viewOf_block rfl he
    · rw [Function.update_of_ne hne, Function.update_of_ne hne, Machine.view]
  faults := rfl
  storages := rfl

omit [DecidableEq κ] in
/-- The same without a fault. -/
theorem cursors_follow_quietly (hs : s.Good) (hi : s.buffers i = some buffer)
    (hb : buffer.storage = some b) (he : s.store.elements b = some e)
    (readerIndex writerIndex : Size) :
    Follows s (s.setBuffer s.store i (some ⟨readerIndex, writerIndex, some b⟩))
      (Function.update s.view i (.holds ⟨readerIndex, writerIndex, e.contents s.memory⟩)) [] := by
  have h := cursors_follow hs hi hb he readerIndex writerIndex []
  rw [List.append_nil] at h
  exact h

omit [DecidableEq κ] in
theorem same_does (hs : s.Good) (hview : s.view i = .holds view)
    {f : ByteBuffer → Option (Storages × ByteBuffer × Result)}
    (hf : ∀ buffer, s.buffers i = some buffer → f buffer = some (s.store, buffer, .unit)) :
    Does s i f view.same := by
  obtain ⟨buffer, b, e, hi, hb, he, rfl⟩ := view_holds hview
  exact does_of_eq hi s.store ⟨buffer.readerIndex, buffer.writerIndex, some b⟩
    ((hf buffer hi).trans (by rw [← hb]; rfl)) (cursors_follow_quietly hs hi hb he _ _)

theorem moveReaderIndexForwardBy_eq {st : Storages} {count : Size}
    (h : buffer.readerIndex + count ≤ buffer.writerIndex) :
    buffer.moveReaderIndexForwardBy st count
      = (st, { buffer with readerIndex := buffer.readerIndex + count }) := by
  simp [ByteBuffer.moveReaderIndexForwardBy, ByteBuffer.moveReaderIndexTo, Memory.assert, h]

/-- The reader stays behind the writer. -/
theorem View.Valid.advance_le (h : view.Valid) {count : Size}
    (hcount : count.toNat ≤ view.writerIndex.toNat - view.readerIndex.toNat) :
    view.readerIndex + count ≤ view.writerIndex :=
  (h.advance hcount).reader_le

omit [DecidableEq κ] in
theorem skipBytes_does (hs : s.Good) (hview : s.view i = .holds view) (size : Size) :
    Does s i (fun buffer => some (buffer.skipBytes s.store size)) (view.skipBytes size) := by
  have hvalid := hs.valid i view hview
  obtain ⟨buffer, b, e, hi, hb, he, rfl⟩ := view_holds hview
  have hle : buffer.readerIndex + minimumOf size buffer.readableBytes ≤ buffer.writerIndex :=
    hvalid.advance_le (hvalid.count_le size)
  refine does_of_eq hi s.store
    ⟨buffer.readerIndex + minimumOf size buffer.readableBytes, buffer.writerIndex, some b⟩ ?_
    (cursors_follow_quietly hs hi hb he _ _)
  simp only [ByteBuffer.skipBytes, moveReaderIndexForwardBy_eq hle, hb]
  rfl

omit [DecidableEq κ] in
theorem clear_does (hs : s.Good) (hview : s.view i = .holds view) :
    Does s i (fun buffer => some (s.store, buffer.clear, .unit)) view.clear := by
  obtain ⟨buffer, b, e, hi, hb, he, rfl⟩ := view_holds hview
  refine does_of_eq hi s.store ⟨0, 0, some b⟩ ?_ (cursors_follow_quietly hs hi hb he _ _)
  simp only [ByteBuffer.clear, hb]
  rfl

/-- What `readBytes` takes from a valid view is there. -/
theorem copyBlock_valid {cells : Region} {count fromIndex : Size} (hcount : count ≠ 0)
    (hroom : fromIndex.toNat + count.toNat ≤ cells.length) (hlt : cells.length < 2 ^ 64) :
    copyBlock (some cells) true count fromIndex
      = (count, slice cells fromIndex.toNat count.toNat) := by
  have hpos := toNat_pos_of_ne_zero hcount
  have hmin : minimumOf count (BitVec.ofNat 64 cells.length - fromIndex) = count := by
    apply BitVec.eq_of_toNat_eq
    have hlen : (BitVec.ofNat 64 cells.length).toNat = cells.length := by
      rw [BitVec.toNat_ofNat, Nat.mod_eq_of_lt hlt]
    rw [toNat_minimumOf, BitVec.toNat_sub_of_le (BitVec.le_def.mpr (by omega)), hlen]
    omega
  rw [copyBlock, if_neg (by simp; omega)]
  simp only [hmin]

omit [DecidableEq κ] in
theorem readBytes_does (hs : s.Good) (hview : s.view i = .holds view) (destination : Bool)
    (size : Size) :
    Does s i (fun buffer => buffer.readBytes s.store destination size)
      (view.readBytes destination size) := by
  have hvalid := hs.valid i view hview
  obtain ⟨buffer, b, e, hi, hb, he, rfl⟩ := view_holds hview
  have howner : owners s.store s.storages (.inl b) = some e := he
  have hread : buffer.read s.store = some e := by rw [ByteBuffer.read, hb]; exact he
  have hspec := copyBytesTo_spec hs.owned howner destination
    (minimumOf size buffer.readableBytes) buffer.readerIndex
  have hcount := hvalid.count_le size
  by_cases hzero : minimumOf size buffer.readableBytes = 0
  · -- nothing to read: the storage is not looked at
    rw [View.readBytes_zero hzero]
    refine same_does hs hview fun buffer' hi' => ?_
    obtain rfl : buffer = buffer' := Option.some.inj (hi.symm.trans hi')
    simp only [ByteBuffer.readBytes, hzero, if_true]
    rfl
  · have hcode : ∀ n data, copyBlock (e.contents s.memory) destination
        (minimumOf size buffer.readableBytes) buffer.readerIndex = (n, data) →
        buffer.readerIndex + n ≤ buffer.writerIndex →
        buffer.readBytes s.store destination size
          = some (s.store, ⟨buffer.readerIndex + n, buffer.writerIndex, some b⟩, ⟨n, data⟩) := by
      intro n data hcopy hle
      rw [hcopy] at hspec
      simp only [ByteBuffer.readBytes, hzero, if_false, hread, Option.map_some]
      rw [show s.store.world = s.memory from rfl, hspec]
      simp only [moveReaderIndexForwardBy_eq hle, hb]
      rfl
    have hkeep : copyBlock (e.contents s.memory) destination (minimumOf size buffer.readableBytes)
        buffer.readerIndex = (0, []) →
        buffer.readBytes s.store destination size = some (s.store, buffer, .unit) := by
      intro hcopy
      have h := hcode 0 [] hcopy (by rw [add_zero]; exact hvalid.reader_le)
      rw [add_zero, ← hb] at h
      exact h
    cases hcontents : e.contents s.memory with
    | none =>
        refine same_does hs (hview.trans (by rw [hcontents])) fun buffer' hi' => ?_
        obtain rfl : buffer = buffer' := Option.some.inj (hi.symm.trans hi')
        exact hkeep (by rw [hcontents]; rfl)
    | some cells =>
        cases destination with
        | false =>
            refine same_does hs (hview.trans (by rw [hcontents])) fun buffer' hi' => ?_
            obtain rfl : buffer = buffer' := Option.some.inj (hi.symm.trans hi')
            exact hkeep (by rw [hcontents]; simp [copyBlock])
        | true =>
            have hle : buffer.readerIndex + minimumOf size buffer.readableBytes
                ≤ buffer.writerIndex := hvalid.advance_le hcount
            have hroom := hvalid.readable_le hcontents
            have hlt : cells.length < 2 ^ 64 := by
              have hcapacity := (hs.owned.capacity_eq howner).1
              rw [hcontents] at hcapacity
              have := e.capacity.isLt
              rw [hcapacity] at this
              exact this
            have hfits : buffer.readerIndex.toNat + (minimumOf size buffer.readableBytes).toNat
                ≤ cells.length := by
              rw [hvalid.toNat_readable] at hroom
              exact (Nat.add_le_add_left hcount _).trans hroom
            have hcopy := copyBlock_valid hzero hfits hlt
            have hfollows := cursors_follow_quietly hs hi hb he
              (buffer.readerIndex + minimumOf size buffer.readableBytes) buffer.writerIndex
            rw [hcontents] at hfollows
            exact does_of_eq hi s.store _ (hcode _ _ (by rw [hcontents]; exact hcopy) hle) hfollows

omit [DecidableEq κ] in
theorem readString_does (hs : s.Good) (hview : s.view i = .holds view) (size : Size) :
    Does s i (fun buffer => buffer.readString s.store size) (view.readString size) := by
  have hvalid := hs.valid i view hview
  obtain ⟨buffer, b, e, hi, hb, he, rfl⟩ := view_holds hview
  have howner : owners s.store s.storages (.inl b) = some e := he
  have hread : buffer.read s.store = some e := by rw [ByteBuffer.read, hb]; exact he
  have hcount := hvalid.count_le size
  have hle : buffer.readerIndex + minimumOf size buffer.readableBytes ≤ buffer.writerIndex :=
    hvalid.advance_le hcount
  by_cases hzero : minimumOf size buffer.readableBytes = 0
  · rw [View.readString_zero hzero]
    refine same_does hs hview fun buffer' hi' => ?_
    obtain rfl : buffer = buffer' := Option.some.inj (hi.symm.trans hi')
    simp only [ByteBuffer.readString, hzero, if_true]
    rfl
  · cases hp : e.bytes with
    | none =>
        have hcontents : e.contents s.memory = none := by simp [ByteBufferStorage.contents, hp]
        have hnext : ¬ minimumOf size (View.readable
          ⟨buffer.readerIndex, buffer.writerIndex, none⟩) = 0 := hzero
        rw [hcontents]
        simp only [View.readString, if_neg hnext]
        have hfollows := cursors_follow hs hi hb he
          (buffer.readerIndex + minimumOf size buffer.readableBytes) buffer.writerIndex [.source]
        rw [hcontents] at hfollows
        refine does_of_eq hi _ _ ?_ hfollows
        simp only [ByteBuffer.readString, hzero, if_false, ByteBuffer.readableBytesView, hread,
          Option.map_some, hp, Memory.readCells, Memory.assert, moveReaderIndexForwardBy_eq hle, hb]
        rfl
    | some p =>
        obtain ⟨cells, hcells, hcontents, -, -⟩ := hs.owned.contents howner hp
        have hroom := hvalid.readable_le hcontents
        have hfits : buffer.readerIndex.toNat + (minimumOf size buffer.readableBytes).toNat
            ≤ cells.length := by
          rw [hvalid.toNat_readable] at hroom
          exact (Nat.add_le_add_left hcount _).trans hroom
        have hcells' : s.store.world.regions p = some cells := hcells
        have hfollows := cursors_follow_quietly hs hi hb he
          (buffer.readerIndex + minimumOf size buffer.readableBytes) buffer.writerIndex
        rw [hcontents] at hfollows ⊢
        refine does_of_eq hi _ _ ?_ hfollows
        simp only [ByteBuffer.readString, hzero, if_false, ByteBuffer.readableBytesView, hread,
          Option.map_some, hp, Memory.readCells, hcells', if_pos hfits, Memory.assert,
          moveReaderIndexForwardBy_eq hle, hb]
        rfl

/-- Compaction copies within the block; without a block there is nothing it could copy. -/
theorem discardReadBytes_does (hs : s.Good) (hview : s.view i = .holds view) :
    Does s i (fun buffer => (buffer.discardReadBytes a s.store).map fun r => (r.1, r.2, .unit))
      (view.discardReadBytes (s.answers a i)) := by
  have hvalid := hs.valid i view hview
  by_cases hzero : view.readerIndex = 0
  · rw [View.discardReadBytes, if_pos hzero]
    refine same_does hs hview fun buffer hi => ?_
    obtain ⟨buffer', b, e, hi', -, -, rfl⟩ := view_holds hview
    obtain rfl : buffer = buffer' := Option.some.inj (hi.symm.trans hi')
    have hzero' : buffer.readerIndex = 0 := hzero
    simp only [ByteBuffer.discardReadBytes, hzero', if_true, Option.map_some]
  by_cases hnone : view.readable = 0
  · rw [View.discardReadBytes, if_neg hzero, if_pos hnone]
    obtain ⟨buffer, b, e, hi, hb, he, rfl⟩ := view_holds hview
    have hzero' : ¬ buffer.readerIndex = 0 := hzero
    have hnone' : buffer.readableBytes = 0 := hnone
    refine does_of_eq hi s.store ⟨0, 0, some b⟩ ?_ (cursors_follow_quietly hs hi hb he _ _)
    simp only [ByteBuffer.discardReadBytes, hzero', if_false, hnone', gt_iff_lt, BitVec.lt_irrefl,
      Option.map_some, hb]
  obtain ⟨buffer, store, b, e, hi, hunique, halone, hfaults, hr, hw, hcontents, hgrants⟩ :=
    unique_view hs hview (a := a)
  have hself := Function.update_self (Sum.inl b) (some e) (owners s.store s.storages)
  have hreadable : buffer.readableBytes = view.readable := by
    rw [ByteBuffer.readableBytes, hr, hw]
    rfl
  have hpos : view.readable > 0 := BitVec.lt_def.mpr (toNat_pos_of_ne_zero hnone)
  -- what is left is a copy of the storage's own bytes, whatever became of its block
  have hcode : ∀ m' e' n, e.setBytes a store.world (.block e.bytes view.readerIndex.toNat)
      view.readable 0 = (m', e', n) →
      (buffer.discardReadBytes a s.store).map (fun r => (r.1, r.2, Result.unit))
        = some (store.setElement b m' e', ⟨0, view.readable, some b⟩, .unit) := by
    intro m' e' n hset
    rw [ByteBuffer.discardReadBytes, if_neg (by rw [hr]; exact hzero), hreadable, if_pos hpos,
      hunique]
    simp only [Option.map_some, hr, hset]
  rw [View.discardReadBytes, if_neg hzero, if_neg hnone, ← hcontents, ← hgrants]
  cases hp : e.bytes with
  | none =>
      have hoffset : view.readerIndex.toNat ≠ 0 := Nat.ne_of_gt (toNat_pos_of_ne_zero hzero)
      obtain ⟨m', e', n, hset, hupdates, hf, hc⟩ :=
        setBytes_own_null halone.updates.owned hself hp hnone hoffset (a := a)
      have hempty : e.contents store.world = none := by simp [ByteBufferStorage.contents, hp]
      have hset' := halone.set hupdates
      rw [hempty]
      dsimp only
      cases hgrows : grants a store.world e with
      | true =>
          rw [hgrows] at hf hc
          refine does_of_eq hi _ _ (hcode m' e' n hset) ((hset'.follows _ _ [.source] ?_).congr ?_ rfl)
          · rw [show (store.setElement b m' e').world = m' from rfl, hf, hfaults]
            rfl
          · rw [show (store.setElement b m' e').world = m' from rfl, hc]
            rfl
      | false =>
          rw [hgrows] at hf hc
          refine does_of_eq hi _ _ (hcode m' e' n hset) ((hset'.follows _ _ [] ?_).congr ?_ rfl)
          · rw [show (store.setElement b m' e').world = m' from rfl, hf, hfaults]
            rfl
          · rw [show (store.setElement b m' e').world = m' from rfl, hc]
            rfl
  | some p =>
      obtain ⟨cells, hcells, hsome, -, -⟩ := halone.updates.owned.contents hself hp
      have hblock : view.block = some cells := View.block_of_unique (hcontents.symm.trans hsome)
      obtain ⟨m', hset, hupdates, hf, hc⟩ := setBytes_own halone.updates.owned hself hp hsome hnone
        (hvalid.readable_le hblock) (a := a)
      have hset' := halone.set hupdates
      rw [hsome]
      refine does_of_eq hi _ _ (hcode m' e view.readable hset) ((hset'.follows _ _ [] ?_).congr ?_ rfl)
      · rw [show (store.setElement b m' e).world = m' from rfl, hf, hfaults, List.append_nil]
      · rw [show (store.setElement b m' e).world = m' from rfl, hc]

/-! ## A whole step -/

variable {v v' : ι → Variable View} {result : Result} {faults : List Fault} {op : BufferOp ι}

/-- What the machine has to do to keep up with the model. -/
def KeepsUp (a : ByteBufferAllocator) (s : Machine ι κ) (op : BufferOp ι) (v' : ι → Variable View)
    (result : Result) (faults : List Fault) : Prop :=
  ∃ s', s.bufferStep a op = some (s', result) ∧ Follows s s' v' faults

omit [DecidableEq κ] in
theorem onView_keepsUp {f : View → Outcome}
    {g : ByteBuffer → Option (Storages × ByteBuffer × Result)}
    (hstep : onView s.view i f = some (v', result, faults))
    (hop : s.bufferStep a op = s.onBuffer i g)
    (hdoes : ∀ view, s.view i = .holds view → Does s i g (f view)) :
    KeepsUp a s op v' result faults := by
  unfold onView at hstep
  split at hstep
  · rename_i view hview
    obtain ⟨rfl, hrest⟩ := Prod.mk.inj (Option.some.inj hstep)
    obtain ⟨rfl, rfl⟩ := Prod.mk.inj hrest
    obtain ⟨s', hs', hfollows⟩ := hdoes view hview
    exact ⟨s', hop.trans hs', hfollows⟩
  · exact absurd hstep (by simp)

omit [DecidableEq κ] in
/-- A step that changes nothing. -/
theorem keepsUp_self (hs : s.Good) (hop : s.bufferStep a op = some (s, .unit)) :
    KeepsUp a s op s.view .unit [] :=
  ⟨s, hop, hs.counted, hs.owned, rfl, by rw [List.append_nil], rfl⟩

omit [DecidableEq κ] in
theorem structural_keepsUp {op' : Op ι View}
    (hstep : structural s.view op' = some (v', result, faults))
    (hkeeps : ∀ v', modelStep s.view op' = some v' → KeepsUp a s op v' .unit []) :
    KeepsUp a s op v' result faults := by
  obtain ⟨v₁, hv₁, heq⟩ := Option.map_eq_some_iff.mp hstep
  obtain ⟨rfl, hrest⟩ := Prod.mk.inj heq
  obtain ⟨rfl, rfl⟩ := Prod.mk.inj hrest
  exact hkeeps v₁ hv₁

theorem copyAssign_keepsUp (hs : s.Good) (hfew : FewAfter a s (.copyAssign i j))
    (hstep : modelStep s.view (.copyAssign i j) = some v') :
    KeepsUp a s (.copyAssign i j) v' .unit [] := by
  simp only [modelStep] at hstep
  split at hstep
  · exact absurd hstep (by simp)
  · rename_i view hj hi
    obtain rfl := Option.some.inj hstep
    exact copyAssign_follows hs hi hj hfew
  · rename_i hi hj
    split at hstep
    · -- a buffer that was moved from, assigned to itself
      rename_i heq
      subst heq
      obtain rfl := Option.some.inj hstep
      obtain ⟨this, hthis⟩ := exists_buffer (s := s) (i := i) (by rw [hi]; simp)
      have hself : s.setBuffer s.store i (some this) = s := by
        rw [Machine.setBuffer, ← hthis, Function.update_eq_self]
      refine keepsUp_self hs ?_
      simp only [Machine.bufferStep, hthis, copyAssign, ne_eq, not_true, if_false, Option.map_some]
      rw [hself]
    · exact absurd hstep (by simp)
  · exact absurd hstep (by simp)

theorem moveAssign_keepsUp (hs : s.Good)
    (hstep : modelStep s.view (.moveAssign i j) = some v') :
    KeepsUp a s (.moveAssign i j) v' .unit [] := by
  simp only [modelStep] at hstep
  split at hstep
  · rename_i heq
    subst heq
    split at hstep
    · exact absurd hstep (by simp)
    · rename_i hi
      obtain rfl := Option.some.inj hstep
      obtain ⟨this, hthis⟩ := exists_buffer (s := s) (i := i) hi
      exact keepsUp_self hs (by simp [Machine.bufferStep, hthis])
  · rename_i hne
    split at hstep
    · exact absurd hstep (by simp)
    · rename_i view hj hi
      obtain rfl := Option.some.inj hstep
      exact moveAssign_follows hs hne hi hj
    · exact absurd hstep (by simp)

theorem step_keepsUp (hs : s.Good)
    (hstep : privateStep (s.answers a op.target) s.view op = some (v', result, faults))
    (hfew : FewAfter a s op) : KeepsUp a s op v' result faults := by
  cases op with
  | construct i capacity =>
      refine structural_keepsUp hstep fun v₁ hv₁ => ?_
      simp only [modelStep] at hv₁
      split at hv₁
      · rename_i hi
        obtain rfl := Option.some.inj hv₁
        exact construct_follows hs hi capacity
      · exact absurd hv₁ (by simp)
  | copyConstruct i j =>
      refine structural_keepsUp hstep fun v₁ hv₁ => ?_
      simp only [modelStep] at hv₁
      split at hv₁
      · rename_i view hi hj
        obtain rfl := Option.some.inj hv₁
        exact copyConstruct_follows hs hi hj hfew
      · exact absurd hv₁ (by simp)
  | moveConstruct i j =>
      refine structural_keepsUp hstep fun v₁ hv₁ => ?_
      simp only [modelStep] at hv₁
      split at hv₁
      · rename_i view hi hj
        obtain rfl := Option.some.inj hv₁
        exact moveConstruct_follows hs hi hj
      · exact absurd hv₁ (by simp)
  | copyAssign i j =>
      exact structural_keepsUp hstep fun v₁ hv₁ => copyAssign_keepsUp hs hfew hv₁
  | moveAssign i j =>
      exact structural_keepsUp hstep fun v₁ hv₁ => moveAssign_keepsUp hs hv₁
  | destruct i =>
      refine structural_keepsUp hstep fun v₁ hv₁ => ?_
      simp only [modelStep] at hv₁
      split at hv₁
      · exact absurd hv₁ (by simp)
      · rename_i hi
        obtain rfl := Option.some.inj hv₁
        exact destruct_follows hs hi
  | writeBytes i source size =>
      exact onView_keepsUp hstep rfl fun view hview => writeBytes_does hs hview source size
  | writeString i string =>
      exact onView_keepsUp hstep rfl fun view hview =>
        writeBytes_does hs hview string.source string.size
  | writeCString i cString =>
      cases cString with
      | none => exact onView_keepsUp hstep rfl fun view hview => same_does hs hview fun _ _ => rfl
      | some cString =>
          exact onView_keepsUp hstep rfl fun view hview =>
            writeBytes_does hs hview cString.source cString.strlen
  | readBytes i destination size =>
      exact onView_keepsUp hstep rfl fun view hview => readBytes_does hs hview destination size
  | readString i size =>
      exact onView_keepsUp hstep rfl fun view hview => readString_does hs hview size
  | skipBytes i size =>
      exact onView_keepsUp hstep rfl fun view hview => skipBytes_does hs hview size
  | discardReadBytes i =>
      exact onView_keepsUp hstep rfl fun view hview => discardReadBytes_does hs hview
  | clear i => exact onView_keepsUp hstep rfl fun view hview => clear_does hs hview
  | mutableBytes i =>
      exact onView_keepsUp hstep rfl fun view hview => mutableBytes_does hs hview
  | store i k value =>
      exact onView_keepsUp hstep rfl fun view hview => store_does hs hview k value

/-- **One step.** Whatever the model with private views allows, the machine does, with the same
result and the same faults, and stays good. -/
theorem bufferStep_refines (hs : s.Good)
    (hstep : privateStep (s.answers a op.target) s.view op = some (v', result, faults))
    (hfew : FewAfter a s op) :
    ∃ s', s.bufferStep a op = some (s', result) ∧ s'.Good ∧ s'.view = v'
      ∧ s'.memory.faults = s.memory.faults ++ faults ∧ s'.storages = s.storages := by
  obtain ⟨s', hs', hfollows⟩ := step_keepsUp hs hstep hfew
  refine ⟨s', hs', ⟨hfollows.counted, hfollows.owned, ?_⟩, hfollows.view, hfollows.faults,
    hfollows.storages⟩
  rw [hfollows.view]
  exact privateStep_valid hs.valid hstep

end NPFoundation
