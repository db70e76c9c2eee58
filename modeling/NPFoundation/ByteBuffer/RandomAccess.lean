import NPFoundation.ByteBuffer.Protocol

/-!
# A storage as a random-access store

What a storage owes its users, whatever the allocator answers and whatever sizes and indices
they pass. `BoundsSafe` lists it for a storage in a memory: what its capacity is like, and for
each of `reserve`, `setBytes` and `copyBytesTo` what it returns and what becomes of the cells.
Every storage that a program can make has it.
-/

namespace NPFoundation

open Slice Transition

/-- The byte at an index of the block; `none` where the block has none. -/
def ByteBufferStorage.cellAt (m : Memory) (e : ByteBufferStorage) (i : ℕ) : Option (Option UInt8) :=
  (e.contents m).bind fun cells => cells[i]?

/-- A power of two, or `SIZE_MAX`. -/
def IsRounded (capacity : Size) : Prop := (∃ j, capacity.toNat = 2 ^ j) ∨ capacity = sizeMax

/-- What `reserve` returns and leaves behind. -/
structure ReserveSafe (m : Memory) (e : ByteBufferStorage) (n : Size)
    (after : Memory × ByteBufferStorage × Bool) : Prop where
  quiet : after.1.faults = m.faults
  large : after.2.2 = true → n ≤ after.2.1.capacity ∧ e.capacity ≤ after.2.1.capacity
  kept : after.2.2 = true → ∀ i, i < e.capacity.toNat →
    after.2.1.cellAt after.1 i = e.cellAt m i
  failed : after.2.2 = false → after.2.1 = e ∧ e.contents after.1 = e.contents m

/-- What `setBytes` returns and leaves behind. -/
structure SetSafe (m : Memory) (e : ByteBufferStorage) (source : Option (ℕ → UInt8))
    (size atIndex : Size) (after : Memory × ByteBufferStorage × Size) : Prop where
  quiet : after.1.faults = m.faults
  /-- All or nothing. -/
  result : after.2.2 = size ∨ after.2.2 = 0
  failed : after.2.2 = 0 → after.2.1 = e ∧ e.contents after.1 = e.contents m
  within : after.2.2 = size → size ≠ 0 →
    atIndex.toNat + size.toNat ≤ after.2.1.capacity.toNat
  written : after.2.2 = size → size ≠ 0 → ∃ data, source = some data ∧
    ∀ i, i < size.toNat → after.2.1.cellAt after.1 (atIndex.toNat + i) = some (some (data i))
  kept : after.2.2 = size → ∀ i, i < e.capacity.toNat →
    ¬ (atIndex.toNat ≤ i ∧ i < atIndex.toNat + size.toNat) →
    after.2.1.cellAt after.1 i = e.cellAt m i
  /-- And it can be read back. -/
  readBack : after.2.2 = size → size ≠ 0 → ∃ data, source = some data ∧
    after.2.1.copyBytesTo after.1 true size atIndex = (after.1, size, sourceBytes data size)

/-- What `copyBytesTo` returns and hands out. -/
structure CopySafe (m : Memory) (e : ByteBufferStorage) (destination : Bool)
    (size fromIndex : Size) (after : Memory × Size × List (Option UInt8)) : Prop where
  /-- Nothing changes, and nothing is read outside of the block. -/
  unchanged : after.1 = m
  count : after.2.1 = if destination = false ∨ e.bytes = none ∨ e.capacity ≤ fromIndex then 0
    else minimumOf size (e.capacity - fromIndex)
  length_eq : after.2.2.length = after.2.1.toNat
  cells : ∀ i, i < after.2.1.toNat → after.2.2[i]? = e.cellAt m (fromIndex.toNat + i)

structure BoundsSafe (a : ByteBufferAllocator) (m : Memory) (e : ByteBufferStorage) : Prop where
  null : e.bytes = none ↔ e.capacity = 0
  rounded : e.bytes ≠ none → IsRounded e.capacity
  reserve : ∀ n, ReserveSafe m e n (e.reserve a m n)
  setBytes : ∀ source size atIndex,
    SetSafe m e source size atIndex (e.setBytes a m (.source source) size atIndex)
  copyBytesTo : ∀ destination size fromIndex,
    CopySafe m e destination size fromIndex (e.copyBytesTo m destination size fromIndex)

section

variable {Ω : Type} [DecidableEq Ω] {a : ByteBufferAllocator} {m m' : Memory}
  {elems : Ω → Option ByteBufferStorage} {o : Ω} {e e' : ByteBufferStorage}

omit [DecidableEq Ω] in
theorem Owned.null_iff (h : Owned m elems) (he : elems o = some e) :
    e.bytes = none ↔ e.capacity = 0 := by
  constructor
  · exact fun hp => h.null he hp
  · intro hzero
    by_contra hne
    obtain ⟨p, hp⟩ := Option.ne_none_iff_exists'.mp hne
    obtain ⟨cells, -, -, hlen, hpos⟩ := h.contents he hp
    rw [hzero] at hlen
    exact absurd hlen (Nat.ne_of_gt hpos)

theorem Updates.capacity_eq (h : Updates m m' elems o e') :
    e'.capacity.toNat = roomOf (e'.contents m') :=
  (h.owned.capacity_eq (Function.update_self o (some e') elems)).1

omit [DecidableEq Ω] in
/-- What is below the capacity is not disturbed by what comes behind it. -/
theorem getElem?_contents_append (hcapacity : e.capacity.toNat = roomOf (e.contents m)) {i : ℕ}
    (hi : i < e.capacity.toNat) (extra : ℕ) :
    ((e.contents m).getD [] ++ List.replicate extra none)[i]? = e.cellAt m i := by
  rw [hcapacity] at hi
  unfold ByteBufferStorage.cellAt
  cases hc : e.contents m with
  | none =>
      rw [hc] at hi
      exact absurd hi (Nat.not_lt_zero i)
  | some old =>
      rw [hc] at hi
      exact List.getElem?_append_left hi

/-- All that `reserve` can make of a storage. -/
theorem reserve_cases (a : ByteBufferAllocator) (m : Memory) (e : ByteBufferStorage) (n : Size) :
    (∃ ok, (e.reserve a m n).2 = (e, ok))
      ∨ ∃ p, (e.reserve a m n).2 = (⟨some p, nextPowerOf2ClampedToMax n⟩, true) := by
  unfold ByteBufferStorage.reserve
  split
  · exact .inl ⟨true, rfl⟩
  · dsimp only
    split
    · exact .inl ⟨false, rfl⟩
    · split
      · exact .inl ⟨false, rfl⟩
      · exact .inr ⟨_, rfl⟩

/-- A request that fails is answered by the storage as it is. -/
theorem reserve_failed {n : Size} (h : (e.reserve a m n).2.2 = false) :
    (e.reserve a m n).2.1 = e := by
  rcases reserve_cases a m e n with ⟨ok, heq⟩ | ⟨p, heq⟩
  · rw [heq]
  · rw [heq] at h
    exact absurd h (by simp)

theorem reserveSafe (h : Owned m elems) (he : elems o = some e) (n : Size) :
    ReserveSafe m e n (e.reserve a m n) := by
  obtain ⟨hcapacity, -⟩ := h.capacity_eq he
  have hfailed := @reserve_failed a m e n
  obtain ⟨m', e', ok, heq, hupdates, hfaults, hblock⟩ := reserve_spec h he n (a := a)
  have hcapacity' := hupdates.capacity_eq
  rw [heq] at hfailed ⊢
  cases ok with
  | false =>
      obtain rfl : e' = e := hfailed rfl
      refine ⟨hfaults, fun hok => absurd hok (by simp), fun hok => absurd hok (by simp), ?_⟩
      intro _
      refine ⟨rfl, ?_⟩
      unfold reserveBlock at hblock
      split at hblock
      · exact absurd (Prod.mk.inj hblock).2 (by simp)
      · split at hblock
        · exact absurd (Prod.mk.inj hblock).2 (by simp)
        · exact (Prod.mk.inj hblock).1
  | true =>
      -- the block is the old one, perhaps with some cells more
      obtain ⟨cells, hcells, hroom⟩ := reserveBlock_room hblock.symm
      obtain ⟨cells', extra, hreserved, happend⟩ :
          ∃ cells extra, reserveBlock (grants a m e) (e.contents m) n = (some cells, true)
            ∧ cells = (e.contents m).getD [] ++ List.replicate extra none := by
        refine reserveBlock_cells ?_
        by_contra hno
        obtain ⟨hfits, hgrants⟩ := not_or.mp hno
        rw [reserveBlock, if_neg hfits, if_neg hgrants] at hblock
        exact absurd (Prod.mk.inj hblock).2 (by simp)
      rw [← hblock, Prod.mk.injEq, hcells, Option.some.injEq] at hreserved
      obtain rfl := hreserved.1
      have hlength : cells.length = e.capacity.toNat + extra := by
        rw [happend, hcapacity, List.length_append, List.length_replicate]
        rfl
      rw [hcells] at hcapacity'
      change e'.capacity.toNat = cells.length at hcapacity'
      refine ⟨hfaults, fun _ => ⟨?_, ?_⟩, fun _ i hi => ?_, fun hok => absurd hok (by simp)⟩
      · rw [BitVec.le_def, hcapacity']
        exact hroom
      · rw [BitVec.le_def, hcapacity', hlength]
        exact Nat.le_add_right _ _
      · -- the cells that were there come first
        rw [ByteBufferStorage.cellAt, hcells, Option.bind_some, happend]
        exact getElem?_contents_append hcapacity hi extra

/-- All that `setBytes` can make of a storage. -/
theorem setBytes_cases (a : ByteBufferAllocator) (m : Memory) (e : ByteBufferStorage)
    (bytes : ConstBytes) (size atIndex : Size) :
    (e.setBytes a m bytes size atIndex).2 = (e, 0)
      ∨ size ≠ 0 ∧ ∃ e', (e.setBytes a m bytes size atIndex).2 = (e', size)
        ∧ (e.reserve a m (atIndex + size)).2 = (e', true) := by
  unfold ByteBufferStorage.setBytes
  split
  · exact .inl rfl
  · rename_i hsource
    split
    · exact .inl rfl
    · have hfailed := @reserve_failed a m e (atIndex + size)
      generalize e.reserve a m (atIndex + size) = reserved at hfailed ⊢
      obtain ⟨m', e', ok⟩ := reserved
      cases ok with
      | false =>
          obtain rfl : e' = e := hfailed rfl
          exact .inl rfl
      | true =>
          refine .inr ⟨fun hzero => hsource (.inr hzero), e', ?_, rfl⟩
          dsimp only
          split <;> rfl

/-- Reading back what was just written. -/
theorem copyBlock_splice {cells data : Region} {size atIndex : Size} (hsize : size ≠ 0)
    (hdata : data.length = size.toNat) (hroom : atIndex.toNat + size.toNat ≤ cells.length)
    (hlength : cells.length < 2 ^ 64) :
    copyBlock (some (splice cells atIndex.toNat data)) true size atIndex = (size, data) := by
  have hpos : 0 < size.toNat := by
    refine Nat.pos_of_ne_zero fun hzero => hsize (BitVec.eq_of_toNat_eq ?_)
    rw [hzero]
    rfl
  have hsplice : (splice cells atIndex.toNat data).length = cells.length :=
    length_splice (by rw [hdata]; exact hroom)
  have hcount : minimumOf size (BitVec.ofNat 64 cells.length - atIndex) = size := by
    refine BitVec.eq_of_toNat_eq ?_
    have hofNat : (BitVec.ofNat 64 cells.length).toNat = cells.length := by
      rw [BitVec.toNat_ofNat, Nat.mod_eq_of_lt hlength]
    have hsub : (BitVec.ofNat 64 cells.length - atIndex).toNat = cells.length - atIndex.toNat := by
      rw [BitVec.toNat_sub_of_le (BitVec.le_def.mpr (by omega)), hofNat]
    rw [toNat_minimumOf, hsub]
    omega
  rw [copyBlock, hsplice, if_neg (by simp; omega)]
  dsimp only
  rw [hcount, ← hdata, slice_splice_self (by rw [hdata]; exact hroom)]

theorem setSafe (h : Owned m elems) (he : elems o = some e) (source : Option (ℕ → UInt8))
    (size atIndex : Size) :
    SetSafe m e source size atIndex (e.setBytes a m (.source source) size atIndex) := by
  obtain ⟨hcapacity, -⟩ := h.capacity_eq he
  have hcases := setBytes_cases a m e (.source source) size atIndex
  obtain ⟨m', e', n, heq, hupdates, hfaults, hblock⟩ := setBytes_spec h he source size atIndex (a := a)
  have hcapacity' := hupdates.capacity_eq
  have hself := Function.update_self o (some e') elems
  rw [heq] at hcases ⊢
  by_cases haccepts : accepts (grants a m e) (e.contents m) source size atIndex
  · obtain ⟨data, cells, extra, rfl, happend, hroom, hset⟩ := setBlock_accepted haccepts
    have hsize : size ≠ 0 := haccepts.2.1
    rw [hset, Prod.mk.injEq] at hblock
    obtain ⟨hcontents, rfl⟩ := hblock
    have hsplice : atIndex.toNat + (sourceBytes data n).length ≤ cells.length := by
      rw [length_sourceBytes]
      exact hroom
    rw [hcontents, roomOf, Option.getD_some, length_splice hsplice] at hcapacity'
    -- one cell at a time; everything below is read off this
    have hcell : ∀ i, e'.cellAt m' i
        = if atIndex.toNat ≤ i ∧ i < atIndex.toNat + n.toNat then some (some (data (i - atIndex.toNat)))
          else cells[i]? := by
      intro i
      unfold ByteBufferStorage.cellAt
      rw [hcontents, Option.bind_some, getElem?_splice hsplice, length_sourceBytes]
      split
      · rename_i hi
        rw [sourceBytes, List.getElem?_map, List.getElem?_range (by omega)]
        rfl
      · rfl
    refine ⟨hfaults, .inl rfl, fun hzero => absurd hzero hsize, fun _ _ => ?_,
      fun _ _ => ⟨data, rfl, fun i hi => ?_⟩, fun _ i hi hout => ?_, fun _ _ => ⟨data, rfl, ?_⟩⟩
    · rw [hcapacity']
      exact hroom
    · rw [hcell, if_pos (by omega), Nat.add_sub_cancel_left]
    · rw [hcell, if_neg hout, happend]
      exact getElem?_contents_append hcapacity hi extra
    · rw [copyBytesTo_spec hupdates.owned hself, hcontents,
        copyBlock_splice hsize (length_sourceBytes _ _) hroom (by rw [← hcapacity']; exact e'.capacity.isLt)]
  · rw [setBlock_refused haccepts, Prod.mk.injEq] at hblock
    obtain ⟨hcontents, rfl⟩ := hblock
    -- a failure: the storage is the one that was there
    obtain rfl : e' = e := by
      rcases hcases with hsame | ⟨hsize, e'', hset, -⟩
      · exact (Prod.mk.inj hsame).1
      · exact absurd (Prod.mk.inj hset).2.symm hsize
    exact ⟨hfaults, .inr rfl, fun _ => ⟨rfl, hcontents⟩, fun heq hne => absurd heq.symm hne,
      fun heq hne => absurd heq.symm hne,
      fun _ i _ _ => by unfold ByteBufferStorage.cellAt; rw [hcontents],
      fun heq hne => absurd heq.symm hne⟩

omit [DecidableEq Ω] in
theorem copySafe (h : Owned m elems) (he : elems o = some e) (destination : Bool)
    (size fromIndex : Size) :
    CopySafe m e destination size fromIndex (e.copyBytesTo m destination size fromIndex) := by
  rw [copyBytesTo_spec h he]
  cases hp : e.bytes with
  | none =>
      have hnone : e.contents m = none := by simp [ByteBufferStorage.contents, hp]
      rw [hnone]
      exact ⟨rfl, by simp [copyBlock, hp], rfl, fun i hi => absurd hi (by simp [copyBlock])⟩
  | some p =>
      obtain ⟨cells, -, hcontents, hlen, -⟩ := h.contents he hp
      have hofNat : BitVec.ofNat 64 cells.length = e.capacity := by
        rw [hlen, BitVec.ofNat_toNat, BitVec.setWidth_eq]
      have hiff : cells.length ≤ fromIndex.toNat ↔ e.capacity ≤ fromIndex := by
        rw [hlen]
        exact BitVec.le_def.symm
      rw [hcontents, copyBlock, hofNat]
      by_cases hno : destination = false ∨ cells.length ≤ fromIndex.toNat
      · rw [if_pos hno]
        rw [hiff] at hno
        refine ⟨rfl, ?_, rfl, fun i hi => absurd hi (by simp)⟩
        rw [if_pos]
        rcases hno with hno | hno
        · exact .inl hno
        · exact .inr (.inr hno)
      · rw [if_neg hno]
        have hroom : fromIndex.toNat + (minimumOf size (e.capacity - fromIndex)).toNat
            ≤ cells.length := by
          rw [not_or] at hno
          rw [hlen]
          exact clamped_le size (by omega)
        rw [hiff] at hno
        refine ⟨rfl, ?_, length_slice hroom, fun i hi => ?_⟩
        · rw [if_neg (by simpa [hp] using hno)]
        · unfold ByteBufferStorage.cellAt
          rw [hcontents, Option.bind_some, getElem?_slice, if_pos hi]

/-! ## When the answer is yes -/

/-- `reserve` succeeds where the capacity does, or the allocator has to. -/
theorem reserve_true_iff (h : Owned m elems) (he : elems o = some e) (n : Size) :
    (e.reserve a m n).2.2 = true
      ↔ e.bytes.isSome ∧ n ≤ e.capacity ∨ grants a m e = true := by
  obtain ⟨hcapacity, hsome⟩ := h.capacity_eq he
  obtain ⟨m', e', ok, heq, -, -, hblock⟩ := reserve_spec h he n (a := a)
  have hok : ok = (reserveBlock (grants a m e) (e.contents m) n).2 := congrArg Prod.snd hblock
  have hfits : (e.bytes.isSome ∧ n ≤ e.capacity)
      ↔ (e.contents m).isSome ∧ n.toNat ≤ roomOf (e.contents m) := by
    rw [← hsome, ← hcapacity, BitVec.le_def]
  rw [heq, hfits, hok]
  unfold reserveBlock
  split
  · rename_i hyes
    exact iff_of_true rfl (.inl hyes)
  · rename_i hno
    split
    · rename_i hgrants
      exact iff_of_true rfl (.inr hgrants)
    · rename_i hrefused
      refine iff_of_false (by simp) ?_
      rintro (hyes | hgrants)
      · exact hno hyes
      · exact hrefused hgrants

/-- `setBytes` returns its size where there is something to copy, its end is an index, and
`reserve` makes room up to there. -/
theorem setBytes_eq_size_iff (h : Owned m elems) (he : elems o = some e)
    (source : Option (ℕ → UInt8)) (size atIndex : Size) :
    (e.setBytes a m (.source source) size atIndex).2.2 = size
      ↔ size = 0 ∨ source.isSome ∧ atIndex.toNat + size.toNat < 2 ^ 64
        ∧ (e.bytes.isSome ∧ atIndex.toNat + size.toNat ≤ e.capacity.toNat
          ∨ grants a m e = true) := by
  obtain ⟨hcapacity, hsome⟩ := h.capacity_eq he
  obtain ⟨m', e', n, heq, -, -, hblock⟩ := setBytes_spec h he source size atIndex (a := a)
  have hn : n = (setBlock (grants a m e) (e.contents m) source size atIndex).2 :=
    congrArg Prod.snd hblock
  rw [heq, hn, hsome, hcapacity]
  by_cases haccepts : accepts (grants a m e) (e.contents m) source size atIndex
  · obtain ⟨data, cells, extra, -, -, -, hset⟩ := setBlock_accepted haccepts
    rw [hset]
    exact iff_of_true rfl (.inr ⟨haccepts.1, haccepts.2.2⟩)
  · rw [setBlock_refused haccepts]
    constructor
    · exact fun hzero => .inl hzero.symm
    · rintro (hzero | ⟨hsource, hend, hroom⟩)
      · exact hzero.symm
      · by_contra hne
        exact haccepts ⟨hsource, fun hzero => hne hzero.symm, hend, hroom⟩

end

/-! ## Every capacity is a rounded one -/

/-- A block is as long as a rounding came out. -/
def ByteBufferStorage.Rounded (e : ByteBufferStorage) : Prop := e.bytes ≠ none → IsRounded e.capacity

theorem isRounded_nextPowerOf2ClampedToMax (n : Size) : IsRounded (nextPowerOf2ClampedToMax n) := by
  rcases roundUp_cases 64 n.toNat with ⟨j, hj⟩ | hmax
  · exact .inl ⟨j, by rw [toNat_rounded, hj]⟩
  · refine .inr (BitVec.eq_of_toNat_eq ?_)
    rw [toNat_rounded, hmax, BitVec.toNat_allOnes]

theorem rounded_null (capacity : Size) : (⟨none, capacity⟩ : ByteBufferStorage).Rounded :=
  fun hne => absurd rfl hne

theorem construct_rounded (a : ByteBufferAllocator) (m : Memory) (capacity : Size) :
    (ByteBufferStorage.construct a m capacity).2.Rounded := by
  unfold ByteBufferStorage.construct
  dsimp only
  split
  · exact fun _ => isRounded_nextPowerOf2ClampedToMax capacity
  · exact rounded_null 0

section

variable {a : ByteBufferAllocator} {m : Memory} {e : ByteBufferStorage}

/-- A copy is as long as its original. -/
theorem ByteBufferStorage.Rounded.copyConstruct (h : e.Rounded) : (e.copyConstruct a m).2.Rounded := by
  unfold ByteBufferStorage.copyConstruct
  split
  · exact rounded_null 0
  · rename_i p hp
    split
    · exact rounded_null 0
    · exact fun _ => h (by rw [hp]; simp)

theorem ByteBufferStorage.Rounded.reserve (h : e.Rounded) (n : Size) :
    (e.reserve a m n).2.1.Rounded := by
  rcases reserve_cases a m e n with ⟨ok, heq⟩ | ⟨p, heq⟩
  · rw [heq]
    exact h
  · rw [heq]
    exact fun _ => isRounded_nextPowerOf2ClampedToMax n

theorem ByteBufferStorage.Rounded.setBytes (h : e.Rounded) (bytes : ConstBytes)
    (size atIndex : Size) : (e.setBytes a m bytes size atIndex).2.1.Rounded := by
  rcases setBytes_cases a m e bytes size atIndex with heq | ⟨-, e', heq, hreserve⟩
  · rw [heq]
    exact h
  · have hrounded := h.reserve (atIndex + size) (a := a) (m := m)
    rw [hreserve] at hrounded
    rw [heq]
    exact hrounded

end

section

variable {ι κ : Type} [DecidableEq κ] {a : ByteBufferAllocator} {s s' : Machine ι κ}

/-- Every storage of the program's own is such. -/
def Machine.Rounded (s : Machine ι κ) : Prop := ∀ {k e}, s.storages k = some e → e.Rounded

theorem Machine.Rounded.setStorage (h : s.Rounded) (m : Memory) (k : κ)
    {x : Option ByteBufferStorage} (hx : ∀ e, x = some e → e.Rounded) :
    (s.setStorage m k x).Rounded := by
  intro l e he
  dsimp only [Machine.setStorage] at he
  rcases eq_or_ne l k with rfl | hne
  · rw [Function.update_self] at he
    exact hx e he
  · rw [Function.update_of_ne hne] at he
    exact h he

/-- The same when a storage is replaced by a storage. -/
theorem Machine.Rounded.set (h : s.Rounded) (m : Memory) (k : κ) {e : ByteBufferStorage}
    (he : e.Rounded) : (s.setStorage m k (some e)).Rounded := by
  refine h.setStorage m k fun e' he' => ?_
  obtain rfl := Option.some.inj he'
  exact he

theorem storageStep_rounded (h : s.Rounded) {op : StorageOp κ} {result : Result}
    (hstep : s.storageStep a op = some (s', result)) : s'.Rounded := by
  cases op with
  | construct k capacity =>
      simp only [Machine.storageStep] at hstep
      split at hstep
      · obtain rfl := (Prod.mk.inj (Option.some.inj hstep)).1
        exact h.set _ k (construct_rounded a s.memory capacity)
      · exact absurd hstep (by simp)
  | copyConstruct k l =>
      simp only [Machine.storageStep] at hstep
      split at hstep
      · rename_i other _ hother
        obtain rfl := (Prod.mk.inj (Option.some.inj hstep)).1
        exact h.set _ k (h hother).copyConstruct
      · exact absurd hstep (by simp)
  | destruct k =>
      simp only [Machine.storageStep] at hstep
      split at hstep
      · exact absurd hstep (by simp)
      · obtain rfl := (Prod.mk.inj (Option.some.inj hstep)).1
        exact h.setStorage _ k fun e he => absurd he (by simp)
  | reserve k n =>
      simp only [Machine.storageStep] at hstep
      split at hstep
      · exact absurd hstep (by simp)
      · rename_i e he
        obtain rfl := (Prod.mk.inj (Option.some.inj hstep)).1
        exact h.set _ k ((h he).reserve n)
  | setBytes k source size atIndex =>
      simp only [Machine.storageStep] at hstep
      split at hstep
      · exact absurd hstep (by simp)
      · rename_i e he
        obtain rfl := (Prod.mk.inj (Option.some.inj hstep)).1
        exact h.set _ k ((h he).setBytes _ size atIndex)
  | copyBytesTo k destination size fromIndex =>
      simp only [Machine.storageStep] at hstep
      split at hstep
      · exact absurd hstep (by simp)
      · rename_i e he
        obtain rfl := (Prod.mk.inj (Option.some.inj hstep)).1
        exact h.set _ k (h he)

/-! ## Programs over storages -/

variable [Fintype ι]

/-- A storage in a good machine is bounds safe, once its capacity is a rounded one. -/
theorem boundsSafe (hs : s.Good) (hrounded : s.Rounded) {k : κ}
    {e : ByteBufferStorage} (he : s.storages k = some e) : BoundsSafe a s.memory e := by
  have howner : owners s.store s.storages (.inr k) = some e := he
  exact ⟨hs.owned.null_iff howner, hrounded he, reserveSafe hs.owned howner,
    setSafe hs.owned howner, copySafe hs.owned howner⟩

/-- A legal program over storages runs without a fault, whatever is refused to it. -/
theorem run_storages [DecidableEq ι] {st : κ → Bool} (hs : s.Good) (hrounded : s.Rounded)
    {ops : List (StorageOp κ)} (h : run storageStatus s.present ops = some st) :
    ∃ s', run (Machine.next a) s (ops.map .storage) = some s' ∧ s'.Good ∧ s'.Rounded
      ∧ s'.memory.faults = s.memory.faults := by
  induction ops generalizing s with
  | nil => exact ⟨s, rfl, hs, hrounded, rfl⟩
  | cons op ops ih =>
      obtain ⟨st₁, hst₁, hrest⟩ := run_cons_some.mp h
      obtain ⟨s₁, result, hstep, hgood₁, -, hfaults₁, rfl⟩ := storageStep_good hs hst₁ (a := a)
      obtain ⟨s₂, hrun, hgood₂, hrounded₂, hfaults₂⟩ :=
        ih hgood₁ (storageStep_rounded hrounded hstep) hrest
      have hnext : s.next a (.storage op) = some s₁ := by
        rw [Machine.next, Machine.step, hstep]
        rfl
      exact ⟨s₂, run_cons_some.mpr ⟨s₁, hnext, hrun⟩, hgood₂, hrounded₂, hfaults₂.trans hfaults₁⟩

end

/-- **Bounds safety.** Every legal program over storages runs without a fault, and every storage
it reaches is a random-access store within its bounds, whatever the allocator refuses. -/
theorem storages_bounds_safe {κ : Type} [DecidableEq κ] (a : ByteBufferAllocator)
    (ops : List (StorageOp κ)) {st : κ → Bool}
    (hlegal : run storageStatus (fun _ => false) ops = some st) :
    ∃ s : Machine Empty κ, run (Machine.next a) .start (ops.map .storage) = some s
      ∧ s.memory.faults = [] ∧ ∀ k e, s.storages k = some e → BoundsSafe a s.memory e := by
  have hstart : (Machine.start : Machine Empty κ).Rounded := fun he => absurd he (by simp [Machine.start])
  obtain ⟨s, hrun, hgood, hrounded, hfaults⟩ := run_storages (a := a) start_lawful.good hstart hlegal
  exact ⟨s, hrun, hfaults, fun k e he => boundsSafe hgood hrounded he⟩

/-- A storage that is refused its block and gets one from `setBytes` later, a copy that is
refused its own, and requests at the end of the address space. -/
def extremes : List (StorageOp ℕ) :=
  [.construct 0 5, .construct 1 0, .setBytes 0 (some fun _ => 7) 3 (2 ^ 64 - 2),
    .setBytes 1 (some fun _ => 8) 3 6, .destruct 0, .copyConstruct 0 1, .reserve 0 (2 ^ 63 + 1)]

theorem storages_bounds_safe_extremes :
    ∃ s : Machine Empty ℕ,
      run (Machine.next .stingy) .start (extremes.map .storage) = some s ∧ s.memory.faults = []
        ∧ ∀ k e, s.storages k = some e → BoundsSafe .stingy s.memory e :=
  storages_bounds_safe .stingy extremes rfl

/-- Of the same storages, when a request succeeds: if the capacity allows it, or else if the
allocator does. A body that refused everything would be as safe. -/
theorem storages_answer {κ : Type} [DecidableEq κ] (a : ByteBufferAllocator)
    (ops : List (StorageOp κ)) {st : κ → Bool}
    (hlegal : run storageStatus (fun _ => false) ops = some st) :
    ∃ s : Machine Empty κ, run (Machine.next a) .start (ops.map .storage) = some s
      ∧ ∀ k e, s.storages k = some e →
        (∀ n, (e.reserve a s.memory n).2.2 = true
          ↔ e.bytes.isSome ∧ n ≤ e.capacity ∨ grants a s.memory e = true)
        ∧ ∀ source size atIndex,
          (e.setBytes a s.memory (.source source) size atIndex).2.2 = size
            ↔ size = 0 ∨ source.isSome ∧ atIndex.toNat + size.toNat < 2 ^ 64
              ∧ (e.bytes.isSome ∧ atIndex.toNat + size.toNat ≤ e.capacity.toNat
                ∨ grants a s.memory e = true) := by
  have hstart : (Machine.start : Machine Empty κ).Rounded := fun he => absurd he (by simp [Machine.start])
  obtain ⟨s, hrun, hgood, -, -⟩ := run_storages (a := a) start_lawful.good hstart hlegal
  refine ⟨s, hrun, fun k e he => ?_⟩
  have howner : owners s.store s.storages (.inr k) = some e := he
  exact ⟨reserve_true_iff hgood.owned howner, setBytes_eq_size_iff hgood.owned howner⟩

end NPFoundation
