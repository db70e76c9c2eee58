import NPFoundation.ByteBuffer.Programs

/-!
# Pointers into the blocks

`bytes()`, `mutableBytes()` and `getBytes()` hand out pointers into the allocator's memory,
and a program may pass one back: write a buffer to itself, read one buffer into the block of
another, or use a pointer after the block it pointed into was moved or freed. What the bytes
are then is a question of its own. What the allocator sees is not: a call asks for, passes on
and gives back the same blocks wherever its bytes come from and wherever they go.

So each such call has a plain one that stands in for it, and the two machines are `Alike`
afterwards: they differ in what is in the cells, and in the faults.
-/

namespace NPFoundation

open Slice CopyOnWrite CopyOnWrite.Store Transition

/-! ## Programs with pointers -/

/-- What a program does when its pointers may be into a block, live or not. A C string inside of a
block is written as so many bytes. -/
inductive PointerOp (ι κ : Type) where
  | plain (op : ProgramOp ι κ)
  | writeBytes (i : ι) (bytes : ConstBytes) (size : Size)
  /-- The destination is `destination + offset`, in a block of the allocator. -/
  | readBytes (i : ι) (destination : Address) (offset : ℕ) (size : Size)
  | setBytes (k : κ) (bytes : ConstBytes) (size atIndex : Size)
  | copyBytesTo (k : κ) (destination : Address) (offset : ℕ) (size fromIndex : Size)

namespace Machine

variable {ι κ : Type}

/-- What was read goes into a block; with nothing to copy nothing is touched. -/
def place (s : Machine ι κ) (destination : Address) (offset : ℕ) (data : List (Option UInt8)) :
    Machine ι κ :=
  if data = [] then s
  else { s with store := { s.store with world := s.memory.writeCells destination offset data } }

variable [DecidableEq ι] [DecidableEq κ] (a : ByteBufferAllocator)

/-- One operation, without its result. -/
def pointerNext (s : Machine ι κ) : PointerOp ι κ → Option (Machine ι κ)
  | .plain op => s.next a op
  | .writeBytes i bytes size =>
      (s.onBuffer i fun buffer => buffer.writeBytes a s.store bytes size).map Prod.fst
  | .readBytes i destination offset size =>
      (s.onBuffer i fun buffer => buffer.readBytes s.store true size).map fun r =>
        r.1.place destination offset r.2.data
  | .setBytes k bytes size atIndex =>
      match s.storages k with
      | none => none
      | some storage =>
          let set := storage.setBytes a s.memory bytes size atIndex
          some (s.setStorage set.1 k (some set.2.1))
  | .copyBytesTo k destination offset size fromIndex =>
      match s.storages k with
      | none => none
      | some storage =>
          let copied := storage.copyBytesTo s.memory true size fromIndex
          some ((s.setStorage copied.1 k (some storage)).place destination offset copied.2.2)

end Machine

/-- The plain operation that does the same to the blocks: from or to memory of the program's
own. -/
def PointerOp.standIn {ι κ : Type} : PointerOp ι κ → ProgramOp ι κ
  | .plain op => op
  | .writeBytes i bytes size =>
      .buffer (.writeBytes i (if bytes.isNull then none else some fun _ => 0) size)
  | .readBytes i _ _ size => .buffer (.readBytes i true size)
  | .setBytes k bytes size atIndex =>
      .storage (.setBytes k (if bytes.isNull then none else some fun _ => 0) size atIndex)
  | .copyBytesTo k _ _ size fromIndex => .storage (.copyBytesTo k true size fromIndex)

/-- Pointers do not change what a program may do with its variables. -/
def pointerStatus {ι κ : Type} [DecidableEq ι] [DecidableEq κ] (st : Status ι κ)
    (op : PointerOp ι κ) : Option (Status ι κ) :=
  statusStep st op.standIn

/-! ## Memories that differ in their cells -/

/-- The same regions, each as long, and the same calls. -/
structure Memory.Alike (m m' : Memory) : Prop where
  lengths : ∀ p, (m.regions p).map List.length = (m'.regions p).map List.length
  next : m.next = m'.next
  /-- So the allocator goes on to answer both the same way. -/
  requests : m.requests = m'.requests
  log : m.log = m'.log

namespace Memory

variable {m m' m'' : Memory}

theorem Alike.refl (m : Memory) : m.Alike m := ⟨fun _ => rfl, rfl, rfl, rfl⟩

theorem Alike.symm (h : m.Alike m') : m'.Alike m :=
  ⟨fun p => (h.lengths p).symm, h.next.symm, h.requests.symm, h.log.symm⟩

theorem Alike.trans (h : m.Alike m') (h' : m'.Alike m'') : m.Alike m'' :=
  ⟨fun p => (h.lengths p).trans (h'.lengths p), h.next.trans h'.next,
    h.requests.trans h'.requests, h.log.trans h'.log⟩

theorem fault_alike (m : Memory) (f : Fault) : (m.fault f).Alike m := ⟨fun _ => rfl, rfl, rfl, rfl⟩

theorem assert_alike (m : Memory) (condition : Bool) (f : Fault) :
    (m.assert condition f).Alike m := by
  unfold Memory.assert
  split
  · exact .refl m
  · exact m.fault_alike f

/-- Cells are overwritten in their place. -/
theorem writeCells_alike (m : Memory) (p : Address) (offset : ℕ) (data : List (Option UInt8)) :
    (m.writeCells p offset data).Alike m := by
  unfold Memory.writeCells
  split
  · rename_i cells hp
    split
    · rename_i hfits
      refine ⟨fun q => ?_, rfl, rfl, rfl⟩
      dsimp only
      rcases eq_or_ne q p with rfl | hne
      · rw [Function.update_self, hp, Option.map_some, Option.map_some, length_splice hfits]
      · rw [Function.update_of_ne hne]
    · exact m.fault_alike _
  · exact m.fault_alike _

theorem copybytes_alike (m : Memory) (p : Address) (offset : ℕ) (source : ConstBytes) (len : ℕ) :
    (m.copybytes p offset source len).Alike m :=
  (writeCells_alike _ p offset _).trans (m.assert_alike _ _)

/-- A region of one is a region of the other. -/
theorem Alike.region (h : m.Alike m') {p : Address} {cells : Region}
    (hp : m.regions p = some cells) :
    ∃ cells', m'.regions p = some cells' ∧ cells'.length = cells.length := by
  have hlengths := h.lengths p
  rw [hp, Option.map_some] at hlengths
  exact Option.map_eq_some_iff.mp hlengths.symm

theorem Alike.no_region (h : m.Alike m') {p : Address} (hp : m.regions p = none) :
    m'.regions p = none := by
  have hlengths := h.lengths p
  rw [hp, Option.map_none] at hlengths
  exact Option.map_eq_none_iff.mp hlengths.symm

end Memory

/-- Who owns what does not depend on the cells. -/
theorem Owned.alike {Ω : Type} {m m' : Memory} {elems : Ω → Option ByteBufferStorage}
    (h : Owned m elems) (halike : m.Alike m') : Owned m' elems where
  block := by
    intro o e p he hp
    obtain ⟨cells, hcells, hlen, hpos⟩ := h.block he hp
    obtain ⟨cells', hcells', hsame⟩ := halike.region hcells
    exact ⟨cells', hcells', hsame.trans hlen, by omega⟩
  null := h.null
  unshared := h.unshared
  owner := by
    intro p cells hcells
    obtain ⟨cells', hcells', -⟩ := halike.symm.region hcells
    exact h.owner hcells'
  fresh := by
    intro p hp
    exact halike.no_region (h.fresh (halike.next ▸ hp))
  log := by
    obtain ⟨live, hlive, hagrees⟩ := h.log
    exact ⟨live, by rw [← halike.log]; exact hlive,
      fun p => (hagrees p).trans (halike.lengths p)⟩

/-! ## Machines that differ in their cells -/

/-- The same variables and blocks, over memories that are alike. -/
structure Machine.Alike {ι κ : Type} (s t : Machine ι κ) : Prop where
  memory : s.memory.Alike t.memory
  store : { s.store with world := t.memory } = t.store
  buffers : s.buffers = t.buffers
  storages : s.storages = t.storages

namespace Machine.Alike

variable {ι κ : Type} {s t : Machine ι κ}

theorem symm (h : s.Alike t) : t.Alike s where
  memory := h.memory.symm
  store := by
    rw [← h.store]
    rfl
  buffers := h.buffers.symm
  storages := h.storages.symm

theorem elements_eq (h : s.Alike t) : t.store.elements = s.store.elements := by
  rw [← h.store]
  rfl

theorem handles_eq (h : s.Alike t) : t.handles = s.handles := by
  funext i
  rw [Machine.handles, Machine.handles, h.buffers]

theorem present_eq (h : s.Alike t) : t.present = s.present := by
  funext k
  rw [Machine.present, Machine.present, h.storages]

/-- The views have the same cursors, and blocks of the same length. -/
def SameSize (v v' : View) : Prop :=
  v.readerIndex = v'.readerIndex ∧ v.writerIndex = v'.writerIndex
    ∧ v.block.map List.length = v'.block.map List.length

theorem view (h : s.Alike t) (i : ι) : Variable.Related SameSize (s.view i) (t.view i) := by
  rw [Machine.view, Machine.view, ← h.buffers]
  cases s.buffers i with
  | none => exact .absent
  | some buffer =>
      cases hb : buffer.storage with
      | none =>
          rw [viewOf_null hb, viewOf_null hb]
          exact .movedFrom
      | some b =>
          cases he : s.store.elements b with
          | none =>
              -- a handle on a block that is gone shows as little as a null one
              have hgone : ∀ store : Storages, store.elements b = none →
                  viewOf store (some buffer) = .movedFrom := by
                intro store hstore
                have hread : buffer.read store = none := by
                  rw [ByteBuffer.read, hb]
                  exact hstore
                rw [viewOf, hread]
              rw [hgone _ he, hgone _ (by rw [h.elements_eq]; exact he)]
              exact .movedFrom
          | some e =>
              rw [viewOf_block hb he, viewOf_block hb (by rw [h.elements_eq]; exact he)]
              refine .holds ⟨rfl, rfl, ?_⟩
              dsimp only [ByteBufferStorage.contents]
              cases e.bytes with
              | none => rfl
              | some p => exact h.memory.lengths p

variable [Fintype ι]

theorem good (h : s.Alike t) (hs : s.Good) : t.Good where
  counted := by
    rw [h.handles_eq, ← h.store]
    exact hs.counted.world t.memory
  owned := by
    have howned := hs.owned.alike h.memory
    rw [owners, h.elements_eq, ← h.storages]
    exact howned
  valid := by
    intro i view hview
    have hrelated := h.view i
    rw [hview] at hrelated
    obtain ⟨v, hv, hreader, hwriter, hlengths⟩ := hrelated.exists_holds
    have hvalid := hs.valid i v hv
    refine ⟨by rw [← hreader, ← hwriter]; exact hvalid.reader_le, fun cells hcells => ?_⟩
    rw [hcells, Option.map_some] at hlengths
    obtain ⟨cells', hcells', hlen⟩ := Option.map_eq_some_iff.mp hlengths
    rw [← hwriter, ← hlen]
    exact hvalid.writer_le cells' hcells'

theorem orderly [DecidableEq ι] [DecidableEq κ] {st : Status ι κ} (h : s.Alike t)
    (hs : Orderly s st) : Orderly t st where
  good := h.good hs.good
  buffers := by
    intro i
    have hrelated := h.view i
    have hfits := hs.buffers i
    generalize s.view i = x at hrelated hfits
    generalize t.view i = y at hrelated ⊢
    generalize st.buffers i = z at hfits ⊢
    cases hrelated with
    | absent => exact hfits
    | movedFrom => exact hfits
    | holds _ =>
        cases hfits with
        | holds _ => exact .holds trivial
  storages := by rw [h.present_eq]; exact hs.storages

end Machine.Alike

/-! ## A call and its stand-in -/

section

variable {ι κ : Type} {a : ByteBufferAllocator}

theorem isNull_source (bytes : ConstBytes) :
    (ConstBytes.source (if bytes.isNull then none else some fun _ => 0)).isNull
      = bytes.isNull := by
  cases bytes.isNull with
  | false => rfl
  | true => rfl

/-- What `setBytes` asks for and returns depends on its source being null, and on nothing else of
it. -/
theorem setBytes_alike (m : Memory) (e : ByteBufferStorage) {bytes bytes' : ConstBytes}
    (hnull : bytes.isNull = bytes'.isNull) (size atIndex : Size) :
    (e.setBytes a m bytes size atIndex).1.Alike (e.setBytes a m bytes' size atIndex).1
      ∧ (e.setBytes a m bytes size atIndex).2 = (e.setBytes a m bytes' size atIndex).2 := by
  simp only [ByteBufferStorage.setBytes, hnull]
  split
  · exact ⟨.refl m, rfl⟩
  split
  · exact ⟨.refl m, rfl⟩
  split
  · exact ⟨.refl _, rfl⟩
  · rename_i m₁ e₁ _
    cases e₁.bytes with
    | none => exact ⟨.refl _, rfl⟩
    | some target =>
        exact ⟨(m₁.copybytes_alike _ _ _ _).trans (m₁.copybytes_alike _ _ _ _).symm, rfl⟩

/-- The cursor moves the same way whatever is in the cells. -/
theorem moveWriterIndexForwardBy_alike {s : Storages} {buffer : ByteBuffer} {w : Memory}
    {offset : Size} {r' : Storages × ByteBuffer} (hw : s.world.Alike w)
    (h : buffer.moveWriterIndexForwardBy { s with world := w } offset = some r') :
    ∃ r, buffer.moveWriterIndexForwardBy s offset = some r ∧ r.1.world.Alike r'.1.world
      ∧ { r.1 with world := r'.1.world } = r'.1 ∧ r.2 = r'.2 := by
  have hsame : buffer.capacity { s with world := w } = buffer.capacity s := rfl
  obtain ⟨capacity, hcapacity, rfl⟩ := Option.map_eq_some_iff.mp h
  rw [hsame] at hcapacity
  refine ⟨_, Option.map_eq_some_iff.mpr ⟨capacity, hcapacity, rfl⟩, ?_, rfl, rfl⟩
  exact (s.world.assert_alike _ _).trans (hw.trans (w.assert_alike _ _).symm)

/-- A write puts the result of `setBytes` into the store and moves the cursor. -/
theorem writeBytes_alike {s : Storages} {buffer : ByteBuffer} {bytes bytes' : ConstBytes}
    (hnull : bytes.isNull = bytes'.isNull) {size : Size} {r' : Storages × ByteBuffer × Result}
    (h : buffer.writeBytes a s bytes' size = some r') :
    ∃ r, buffer.writeBytes a s bytes size = some r ∧ r.1.world.Alike r'.1.world
      ∧ { r.1 with world := r'.1.world } = r'.1 ∧ r.2 = r'.2 := by
  unfold ByteBuffer.writeBytes at h ⊢
  cases hunique : buffer.unique a s with
  | none =>
      rw [hunique] at h
      exact absurd h (by simp)
  | some split =>
      obtain ⟨s₁, buffer₁, b, e⟩ := split
      rw [hunique] at h
      obtain ⟨halike, hsame⟩ :=
        setBytes_alike s₁.world e hnull size buffer₁.writerIndex (a := a)
      dsimp only at h ⊢
      generalize e.setBytes a s₁.world bytes size buffer₁.writerIndex = set at halike hsame ⊢
      generalize e.setBytes a s₁.world bytes' size buffer₁.writerIndex = set' at h halike hsame
      obtain ⟨m', e', n'⟩ := set'
      obtain ⟨m, e₁, n⟩ := set
      obtain ⟨rfl, rfl⟩ := Prod.mk.inj hsame
      obtain ⟨moved, hmoved, rfl⟩ := Option.map_eq_some_iff.mp h
      obtain ⟨r, hr, hworld, hstore, hbuffer⟩ :=
        moveWriterIndexForwardBy_alike (s := s₁.setElement b m e₁) halike hmoved
      refine ⟨_, Option.map_eq_some_iff.mpr ⟨r, hr, rfl⟩, hworld, hstore, ?_⟩
      rw [hbuffer]

theorem place_alike (s : Machine ι κ) (destination : Address) (offset : ℕ)
    (data : List (Option UInt8)) : (s.place destination offset data).Alike s := by
  unfold Machine.place
  split
  · exact ⟨.refl _, rfl, rfl, rfl⟩
  · exact ⟨Memory.writeCells_alike _ _ _ _, rfl, rfl, rfl⟩

variable [DecidableEq κ]

theorem setStorage_alike (s : Machine ι κ) {m m' : Memory} (h : m.Alike m') (k : κ)
    (x : Option ByteBufferStorage) : (s.setStorage m k x).Alike (s.setStorage m' k x) :=
  ⟨h, rfl, rfl, rfl⟩

variable [DecidableEq ι] {s t : Machine ι κ}

/-- **A call and its stand-in.** -/
theorem pointerNext_alike {op : PointerOp ι κ} (h : s.next a op.standIn = some t) :
    ∃ s', s.pointerNext a op = some s' ∧ s'.Alike t := by
  cases op with
  | plain op => exact ⟨t, h, .refl _, rfl, rfl, rfl⟩
  | writeBytes i bytes size =>
      obtain ⟨⟨t', result⟩, hstep, rfl⟩ := Option.map_eq_some_iff.mp h
      simp only [Machine.step, PointerOp.standIn, Machine.bufferStep, Machine.onBuffer] at hstep
      simp only [Machine.pointerNext, Machine.onBuffer]
      split at hstep
      · exact absurd hstep (by simp)
      · rename_i buffer hi
        obtain ⟨r', hwrite, heq⟩ := Option.map_eq_some_iff.mp hstep
        obtain rfl := (Prod.mk.inj heq).1
        obtain ⟨r, hr, halike, hstore, hsame⟩ :=
          writeBytes_alike (isNull_source bytes).symm hwrite
        refine ⟨s.setBuffer r.1 i (some r.2.1), by rw [hr]; rfl, halike, hstore, ?_, rfl⟩
        rw [hsame]
        rfl
  | readBytes i destination offset size =>
      obtain ⟨⟨t', result⟩, hstep, rfl⟩ := Option.map_eq_some_iff.mp h
      simp only [Machine.step, PointerOp.standIn, Machine.bufferStep] at hstep
      exact ⟨t'.place destination offset result.data,
        by simp only [Machine.pointerNext, hstep, Option.map_some], place_alike _ _ _ _⟩
  | setBytes k bytes size atIndex =>
      obtain ⟨⟨t', result⟩, hstep, rfl⟩ := Option.map_eq_some_iff.mp h
      simp only [Machine.step, PointerOp.standIn, Machine.storageStep] at hstep
      split at hstep
      · exact absurd hstep (by simp)
      · rename_i e he
        obtain rfl := (Prod.mk.inj (Option.some.inj hstep)).1
        obtain ⟨halike, hsame⟩ :=
          setBytes_alike s.memory e (isNull_source bytes).symm size atIndex (a := a)
        refine ⟨s.setStorage (e.setBytes a s.memory bytes size atIndex).1 k
          (some (e.setBytes a s.memory bytes size atIndex).2.1),
          by simp only [Machine.pointerNext, he], ?_⟩
        rw [← hsame]
        exact setStorage_alike s halike k _
  | copyBytesTo k destination offset size fromIndex =>
      obtain ⟨⟨t', result⟩, hstep, rfl⟩ := Option.map_eq_some_iff.mp h
      simp only [Machine.step, PointerOp.standIn, Machine.storageStep] at hstep
      split at hstep
      · exact absurd hstep (by simp)
      · rename_i e he
        obtain rfl := (Prod.mk.inj (Option.some.inj hstep)).1
        exact ⟨_, by simp only [Machine.pointerNext, he],
          place_alike _ destination offset (e.copyBytesTo s.memory true size fromIndex).2.2⟩

/-! ## Whole programs -/

variable [Fintype ι] {st st' : Status ι κ}

/-- Every state the program reaches has fewer than `2 ^ 32` handles on each block. -/
def FewHandlesThroughout (a : ByteBufferAllocator) (s : Machine ι κ) (ops : List (PointerOp ι κ)) :
    Prop :=
  Along (Machine.pointerNext a)
    (fun s op => ∀ s', s.pointerNext a op = some s' → FewHandles s'.handles) s ops

/-- A program with fewer than `2 ^ 32` buffers cannot have more handles than that. -/
theorem fewHandlesThroughout_of_card (hcard : Fintype.card ι < 2 ^ 32) (a : ByteBufferAllocator)
    (s : Machine ι κ) (ops : List (PointerOp ι κ)) : FewHandlesThroughout a s ops :=
  along_of_forall_states (C := fun s : Machine ι κ => FewHandles s.handles)
    (fun _ _ => Nat.lt_of_le_of_lt (Finset.card_le_univ _) hcard) s

/-- **One step of a program with pointers.** It is that of the stand-in, up to the cells. -/
theorem pointerNext_orderly (hs : Orderly s st) {op : PointerOp ι κ}
    (h : pointerStatus st op = some st')
    (hfew : ∀ s', s.pointerNext a op = some s' → FewHandles s'.handles) :
    ∃ s' t, s.pointerNext a op = some s' ∧ s.next a op.standIn = some t ∧ s'.Alike t
      ∧ Orderly s' st' := by
  obtain ⟨t, ht, horderly, -⟩ := step_orderly hs h fun t ht => by
    obtain ⟨s', hs', halike⟩ := pointerNext_alike ht
    rw [halike.handles_eq]
    exact hfew s' hs'
  obtain ⟨s', hs', halike⟩ := pointerNext_alike ht
  exact ⟨s', t, hs', ht, halike, halike.symm.orderly horderly⟩

/-- What the steps of the stand-ins keep, and what does not depend on the cells, holds at the end
of every legal program with pointers. -/
theorem run_pointers {I : Machine ι κ → Prop} (halike : ∀ {s t}, s.Alike t → I t → I s)
    (hnext : ∀ {s op t}, s.Good → I s → s.next a op = some t → I t) {ops : List (PointerOp ι κ)}
    (hs : Orderly s st) (hI : I s) (h : run pointerStatus st ops = some st')
    (hfew : FewHandlesThroughout a s ops) :
    ∃ s', run (Machine.pointerNext a) s ops = some s' ∧ Orderly s' st' ∧ I s' := by
  induction ops generalizing s st with
  | nil =>
      obtain rfl := Option.some.inj h
      exact ⟨s, rfl, hs, hI⟩
  | cons op ops ih =>
      obtain ⟨st₁, hst₁, hrest⟩ := run_cons_some.mp h
      obtain ⟨s₁, t, hs₁, ht, hsame, horderly⟩ := pointerNext_orderly hs hst₁ hfew.1
      obtain ⟨s₂, hs₂, hfinal⟩ := ih horderly (halike hsame (hnext hs.good hI ht)) hrest
        ((along_cons hs₁).mp hfew).2
      exact ⟨s₂, run_cons_some.mpr ⟨s₁, hs₁, hs₂⟩, hfinal⟩

/-- Every legal program with pointers runs, and ends in a good state. -/
theorem run_orderly {ops : List (PointerOp ι κ)} (hs : Orderly s st)
    (h : run pointerStatus st ops = some st') (hfew : FewHandlesThroughout a s ops) :
    ∃ s', run (Machine.pointerNext a) s ops = some s' ∧ Orderly s' st' := by
  obtain ⟨s', hrun, horderly, -⟩ :=
    run_pointers (I := fun _ => True) (fun _ _ => trivial) (fun _ _ _ => trivial) hs trivial h hfew
  exact ⟨s', hrun, horderly⟩

end

end NPFoundation
