import NPFoundation.ByteBuffer.RandomAccess

/-!
# A source inside of the block

The header says of `setBytes` that the source range may overlap the block. The copy itself is
one that allows it. But a write that grows the block hands the old one to `reallocate` first,
and when that moves it, the source is gone by the time it is read. `setBytes` does what the
header says exactly when that does not happen.

A buffer that appends from its own bytes is in the same position as long as it is alone on its
block. When the block is shared, the split leaves the old one to the others, so the source
stays; but then the bytes that the buffer had are those of a copy, which may get no memory.
-/

namespace NPFoundation

open Slice CopyOnWrite CopyOnWrite.Store

/-- A storage on a live block, in a memory that gives out no address twice. -/
structure OnBlock (m : Memory) (e : ByteBufferStorage) (p : Address) (cells : Region) : Prop where
  bytes : e.bytes = some p
  region : m.regions p = some cells
  length_eq : cells.length = e.capacity.toNat
  pos : 0 < cells.length
  fresh : ∀ {q}, m.next ≤ q → m.regions q = none

/-- The bytes from `atIndex` on, as many as are written. -/
def InWindow (size atIndex : Size) (i : ℕ) : Prop :=
  atIndex.toNat ≤ i ∧ i < atIndex.toNat + size.toNat

instance (size atIndex : Size) (i : ℕ) : Decidable (InWindow size atIndex i) :=
  inferInstanceAs (Decidable (_ ∧ _))

/-- The header's promise for the `size` bytes of the block that begin at `offset`. `cells` are
those of the block before the call, and `faults` what had gone wrong by then. -/
structure Honoured (faults : List Fault) (cells : Region) (offset : ℕ) (size atIndex : Size)
    (after : Memory × ByteBufferStorage × Size) : Prop where
  /-- The source is only read from live memory. -/
  live : after.1.faults.count .source = faults.count .source
  written : after.2.2 = size → ∀ i, i < size.toNat →
    after.2.1.cellAt after.1 (atIndex.toNat + i) = cells[offset + i]?
  kept : after.2.2 = size → ∀ i, i < cells.length → ¬ InWindow size atIndex i →
    after.2.1.cellAt after.1 i = cells[i]?

section

variable {a : ByteBufferAllocator} {m m' : Memory} {e e' : ByteBufferStorage} {p r : Address}
  {cells : Region} {offset : ℕ} {size atIndex n : Size} {faults : List Fault}

theorem OnBlock.contents (h : OnBlock m e p cells) : e.contents m = some cells := by
  rw [ByteBufferStorage.contents, h.bytes]
  exact h.region

theorem OnBlock.lt_next (h : OnBlock m e p cells) : p < m.next := by
  by_contra hle
  have hregion := h.region
  rw [h.fresh (Nat.not_lt.mp hle)] at hregion
  exact absurd hregion (by simp)

/-- Nothing was done, and nothing was to be done. -/
theorem honoured_same (h : OnBlock m e p cells) (hcontents : e.contents m' = e.contents m)
    (hfaults : m'.faults = m.faults) (hsize : n = size → size = 0) :
    Honoured m.faults cells offset size atIndex (m', e, n) := by
  refine ⟨by rw [hfaults], fun hn i hi => ?_, fun _ i _ _ => ?_⟩
  · rw [hsize hn] at hi
    exact absurd hi (Nat.not_lt_zero i)
  · unfold ByteBufferStorage.cellAt
    rw [hcontents, h.contents]
    rfl

/-- The source was written over some cells. What is left to see is whether those were the ones
that the block had. -/
theorem honoured_splice_iff {base : Region} (hfaults : m'.faults = faults)
    (hsource : offset + size.toNat ≤ cells.length)
    (hroom : atIndex.toNat + size.toNat ≤ base.length)
    (hcontents : e'.contents m'
      = some (splice base atIndex.toNat (slice cells offset size.toNat))) :
    Honoured faults cells offset size atIndex (m', e', size)
      ↔ ∀ i, i < cells.length → ¬ InWindow size atIndex i → base[i]? = cells[i]? := by
  have hlength := length_slice hsource
  have hcell : ∀ i, e'.cellAt m' i
      = if InWindow size atIndex i then cells[offset + (i - atIndex.toNat)]? else base[i]? := by
    intro i
    unfold ByteBufferStorage.cellAt
    rw [hcontents, Option.bind_some, getElem?_splice (by rw [hlength]; exact hroom), hlength]
    by_cases hi : InWindow size atIndex i
    · have hin : atIndex.toNat ≤ i ∧ i < atIndex.toNat + size.toNat := hi
      rw [if_pos hi, if_pos hin, getElem?_slice, if_pos (by omega)]
    · have hout : ¬ (atIndex.toNat ≤ i ∧ i < atIndex.toNat + size.toNat) := hi
      rw [if_neg hi, if_neg hout]
  constructor
  · intro h i hi hout
    rw [← h.kept rfl i hi hout, hcell, if_neg hout]
  · intro hbase
    refine ⟨by rw [hfaults], fun _ i hi => ?_, fun _ i hi hout => ?_⟩
    · rw [hcell, if_pos ⟨by omega, by omega⟩, Nat.add_sub_cancel_left]
    · rw [hcell, if_neg hout]
      exact hbase i hi hout

/-! ## What `setBytes` does on a block -/

/-- A block that is long enough stays. -/
theorem OnBlock.reserve_fits (h : OnBlock m e p cells) (hfits : n.toNat ≤ cells.length) :
    e.reserve a m n = (m, e, true) := by
  have hle : n ≤ e.capacity := by
    rw [BitVec.le_def, ← h.length_eq]
    exact hfits
  rw [ByteBufferStorage.reserve, if_pos ⟨by rw [h.bytes]; rfl, hle⟩]

/-- One that is not goes to `reallocate`. -/
theorem OnBlock.reserve_grows (h : OnBlock m e p cells) (hfits : ¬ n.toNat ≤ cells.length) :
    e.reserve a m n = match m.reallocate a p (nextPowerOf2ClampedToMax n) with
      | (m', none) => (m', e, false)
      | (m', some q) => (m', ⟨some q, nextPowerOf2ClampedToMax n⟩, true) := by
  have hgt : ¬ (e.bytes.isSome ∧ n ≤ e.capacity) := by
    rw [BitVec.le_def, ← h.length_eq]
    exact fun hle => hfits hle.2
  rw [ByteBufferStorage.reserve, if_neg hgt]
  dsimp only
  rewrite [if_neg (not_nextPowerOf2ClampedToMax_lt n), h.bytes]
  rfl

/-- A pointer into a block passes the checks that come before the room is reserved. -/
theorem block_checks (hsize : size ≠ 0) (hend : atIndex.toNat + size.toNat < 2 ^ 64) (r : Address)
    (offset : ℕ) : ¬ ((ConstBytes.block (some r) offset).isNull = true ∨ size = 0)
      ∧ ¬ atIndex > sizeMax - size := by
  refine ⟨?_, ?_⟩
  · rw [not_or]
    exact ⟨by simp [ConstBytes.isNull], hsize⟩
  · rw [over_iff]
    omega

/-- What is left of `setBytes` once there is room. -/
theorem setBytes_copies (hsize : size ≠ 0) (hend : atIndex.toNat + size.toNat < 2 ^ 64)
    {m₁ : Memory} {t : Address} {e₁ : ByteBufferStorage} {cells₁ data : Region} {ok : Bool}
    (hreserve : e.reserve a m (atIndex + size) = (m₁, e₁, true)) (ht : e₁.bytes = some t)
    (hcells : m₁.regions t = some cells₁)
    (hread : m₁.readCells (.block (some r) offset) size.toNat = (data, ok))
    (hroom : atIndex.toNat + data.length ≤ cells₁.length) :
    ∃ m', e.setBytes a m (.block (some r) offset) size atIndex = (m', e₁, size)
      ∧ m'.faults = m₁.faults ++ (if ok then [] else [.source])
      ∧ e₁.contents m' = some (splice cells₁ atIndex.toNat data) := by
  obtain ⟨hsource, hover⟩ := block_checks hsize hend r offset
  refine ⟨m₁.copybytes t atIndex.toNat (.block (some r) offset) size.toNat, ?_, ?_, ?_⟩
  · rw [ByteBufferStorage.setBytes, if_neg hsource, if_neg hover, hreserve]
    simp only [ht]
  · rw [copybytes_eq _ hread hcells hroom]
  · rw [copybytes_eq _ hread hcells hroom, ByteBufferStorage.contents, ht]
    exact Function.update_self _ _ _

/-- A copy of nothing. -/
theorem setBytes_nothing (a : ByteBufferAllocator) (m : Memory) (e : ByteBufferStorage)
    (bytes : ConstBytes) (atIndex : Size) : e.setBytes a m bytes 0 atIndex = (m, e, 0) := by
  rw [ByteBufferStorage.setBytes, if_pos (.inr rfl)]

/-- And one that there is no room for. -/
theorem setBytes_unreserved (hsize : size ≠ 0) (hend : atIndex.toNat + size.toNat < 2 ^ 64)
    {m₁ : Memory} {e₁ : ByteBufferStorage}
    (hreserve : e.reserve a m (atIndex + size) = (m₁, e₁, false)) :
    e.setBytes a m (.block (some r) offset) size atIndex = (m₁, e₁, 0) := by
  obtain ⟨hsource, hover⟩ := block_checks hsize hend r offset
  rw [ByteBufferStorage.setBytes, if_neg hsource, if_neg hover, hreserve]

/-- The source, wherever the cells are, if there are more behind them or not. -/
theorem readCells_append {extra : ℕ} (hr : m.regions r = some (cells ++ List.replicate extra none))
    {len : ℕ} (hsource : offset + len ≤ cells.length) :
    m.readCells (.block (some r) offset) len = (slice cells offset len, true) := by
  have hle : offset + len ≤ (cells ++ List.replicate extra none).length := by
    rw [List.length_append]
    omega
  simp only [Memory.readCells, hr, if_pos hle, slice_append_left hsource]

/-- There is room, and the source is where it was. -/
theorem setBytes_honoured_of_room (hsize : size ≠ 0) (hend : atIndex.toNat + size.toNat < 2 ^ 64)
    (hsource : offset + size.toNat ≤ cells.length) {m₁ : Memory} {t : Address}
    {e₁ : ByteBufferStorage} {extra extra' : ℕ}
    (hreserve : e.reserve a m (atIndex + size) = (m₁, e₁, true)) (ht : e₁.bytes = some t)
    (hcells : m₁.regions t = some (cells ++ List.replicate extra none))
    (hr : m₁.regions r = some (cells ++ List.replicate extra' none))
    (hfaults : m₁.faults = m.faults)
    (hroom : atIndex.toNat + size.toNat ≤ cells.length + extra) :
    Honoured m.faults cells offset size atIndex
      (e.setBytes a m (.block (some r) offset) size atIndex) := by
  have hfits : atIndex.toNat + (slice cells offset size.toNat).length
      ≤ (cells ++ List.replicate extra (none : Option UInt8)).length := by
    rw [length_slice hsource, List.length_append, List.length_replicate]
    exact hroom
  obtain ⟨m', heq, hquiet, hcontents⟩ :=
    setBytes_copies hsize hend hreserve ht hcells (readCells_append hr hsource) hfits
  rw [length_slice hsource] at hfits
  rw [heq, honoured_splice_iff (by rw [hquiet, hfaults]; exact List.append_nil _) hsource hfits
    hcontents]
  exact fun i hi _ => List.getElem?_append_left hi

/-- The write needs a longer block, and `reallocate` moves it. -/
def Moved (a : ByteBufferAllocator) (m : Memory) (cells : Region) (size atIndex : Size) : Prop :=
  size ≠ 0 ∧ cells.length < atIndex.toNat + size.toNat ∧ a.reallocates m.requests = .moves

/-- The source is in a block with the same cells, which is this one or another. -/
theorem setBytes_honoured (h : OnBlock m e p cells) (hr : m.regions r = some cells)
    (hsource : offset + size.toNat ≤ cells.length) (hend : atIndex.toNat + size.toNat < 2 ^ 64)
    (hmoved : r = p → ¬ Moved a m cells size atIndex) :
    Honoured m.faults cells offset size atIndex
      (e.setBytes a m (.block (some r) offset) size atIndex) := by
  by_cases hsize : size = 0
  · subst hsize
    rw [setBytes_nothing]
    exact honoured_same h rfl rfl fun _ => rfl
  have hsum : (atIndex + size).toNat = atIndex.toNat + size.toNat :=
    BitVec.toNat_add_of_lt hend
  have happend : cells = cells ++ List.replicate 0 none := (List.append_nil cells).symm
  have hr₀ : m.regions r = some (cells ++ List.replicate 0 none) := by
    rw [← happend]
    exact hr
  by_cases hfits : (atIndex + size).toNat ≤ cells.length
  · have hp₀ : m.regions p = some (cells ++ List.replicate 0 none) := by
      rw [← happend]
      exact h.region
    exact setBytes_honoured_of_room hsize hend hsource (h.reserve_fits hfits) h.bytes hp₀ hr₀ rfl
      (by rw [← hsum]; exact hfits)
  · -- the block has to grow
    have hreserve := h.reserve_grows hfits (a := a)
    have hlength := (length_grown (c := some cells) (n := atIndex + size) (fun hle => hfits hle.2)).1
    have hroom : atIndex.toNat + size.toNat ≤ cells.length
        + ((nextPowerOf2ClampedToMax (atIndex + size)).toNat - roomOf (some cells)) := by
      have hle := BitVec.le_def.mp (le_nextPowerOf2ClampedToMax (atIndex + size))
      rw [grown, List.length_append, List.length_replicate] at hlength
      rw [← hsum]
      exact hle.trans (Nat.le_of_eq hlength.symm)
    rw [Memory.reallocate, h.region] at hreserve
    cases ha : a.reallocates m.requests with
    | fails =>
        -- 0 is returned, which is not `size`
        rw [ha] at hreserve
        rw [setBytes_unreserved hsize hend hreserve]
        exact honoured_same h rfl rfl fun hzero => hzero.symm
    | inPlace =>
        rw [ha] at hreserve
        dsimp only at hreserve
        rw [resize_eq_grown hfits] at hreserve
        by_cases hrp : r = p
        · exact setBytes_honoured_of_room hsize hend hsource hreserve rfl
            (Function.update_self _ _ _) (by rw [hrp]; exact Function.update_self _ _ _) rfl hroom
        · exact setBytes_honoured_of_room hsize hend hsource hreserve rfl
            (Function.update_self _ _ _) ((Function.update_of_ne hrp _ _).trans hr₀) rfl hroom
    | moves =>
        -- the source is not in the block that went, nor can it be in the one that came
        have hrp : r ≠ p := fun heq => hmoved heq ⟨hsize, by omega, ha⟩
        have hrnext : r ≠ m.next := by
          intro heq
          rw [heq, h.fresh (Nat.le_refl _)] at hr
          exact absurd hr (by simp)
        rw [ha] at hreserve
        dsimp only at hreserve
        rw [resize_eq_grown hfits] at hreserve
        exact setBytes_honoured_of_room hsize hend hsource hreserve rfl
          (Function.update_self _ _ _)
          ((Function.update_of_ne hrnext _ _).trans ((Function.update_of_ne hrp _ _).trans hr₀))
          rfl hroom

/-- The block was moved from under its own source. -/
theorem setBytes_not_honoured (h : OnBlock m e p cells) (hend : atIndex.toNat + size.toNat < 2 ^ 64)
    (hmoved : Moved a m cells size atIndex) :
    ¬ Honoured m.faults cells offset size atIndex
      (e.setBytes a m (.block (some p) offset) size atIndex) := by
  obtain ⟨hsize, hgrows, ha⟩ := hmoved
  have hsum : (atIndex + size).toNat = atIndex.toNat + size.toNat :=
    BitVec.toNat_add_of_lt hend
  have hfits : ¬ (atIndex + size).toNat ≤ cells.length := by
    rw [hsum]
    omega
  have hreserve := h.reserve_grows hfits (a := a)
  rw [Memory.reallocate, h.region, ha] at hreserve
  dsimp only at hreserve
  have hpnext : p ≠ m.next := Nat.ne_of_lt h.lt_next
  -- `reallocate` has given the old block back before `copybytes` reads from it
  have hgone : Function.update (Function.update m.regions p none) m.next
      (some (Memory.resize cells (nextPowerOf2ClampedToMax (atIndex + size)))) p = none := by
    rw [Function.update_of_ne hpnext, Function.update_self]
  have hread : ∀ m₁ : Memory, m₁.regions p = none →
      m₁.readCells (.block (some p) offset) size.toNat = (List.replicate size.toNat none, false) := by
    intro m₁ hm₁
    simp only [Memory.readCells, hm₁]
  obtain ⟨m', heq, hfaults, -⟩ := setBytes_copies hsize hend hreserve rfl
    (Function.update_self _ _ _) (hread _ hgone) (by
      rw [List.length_replicate, length_resize, ← hsum]
      exact BitVec.le_def.mp (le_nextPowerOf2ClampedToMax _))
  intro hhonoured
  -- one more fault than before
  have hlive := hhonoured.live
  rw [heq, hfaults, List.count_append] at hlive
  exact absurd hlive (by simp)

/-! ## A copy of the storage -/

/-- The copy that `unique()` makes gets a block: the cells are there twice. -/
theorem OnBlock.copyConstruct (h : OnBlock m e p cells) (ha : a.allocates m.requests = true) :
    ∃ m₁ e₁, e.copyConstruct a m = (m₁, e₁) ∧ OnBlock m₁ e₁ m.next cells
      ∧ m₁.regions p = some cells ∧ m₁.faults = m.faults := by
  have hpnext : p ≠ m.next := Nat.ne_of_lt h.lt_next
  have hread : ∀ m₁ : Memory, m₁.regions p = some cells →
      m₁.readCells (.block (some p) 0) e.capacity.toNat = (cells, true) := by
    intro m₁ hm₁
    have hle : 0 + e.capacity.toNat ≤ cells.length := by rw [h.length_eq, Nat.zero_add]
    simp only [Memory.readCells, hm₁, if_pos hle]
    rw [← h.length_eq, slice_all]
  have hp : Function.update m.regions m.next (some (List.replicate e.capacity.toNat none)) p
      = some cells := by
    rw [Function.update_of_ne hpnext]
    exact h.region
  have hcopy : e.copyConstruct a m = ({ m with
      regions := Function.update m.regions m.next (some cells)
      next := m.next + 1
      requests := m.requests + 1
      log := m.log ++ [.allocate e.capacity (some m.next)] }, ⟨some m.next, e.capacity⟩) := by
    rw [ByteBufferStorage.copyConstruct, h.bytes]
    dsimp only
    rw [Memory.allocate, if_pos ha]
    dsimp only
    rw [copybytes_eq 0 (hread _ hp) (Function.update_self _ _ _)
      (by rw [List.length_replicate, h.length_eq, Nat.zero_add]), Function.update_idem,
      splice_all (by rw [List.length_replicate, h.length_eq])]
    simp
  refine ⟨_, _, hcopy, ⟨rfl, Function.update_self _ _ _, h.length_eq, h.pos, ?_⟩, ?_, rfl⟩
  · intro q hq
    dsimp only at hq ⊢
    rw [Function.update_of_ne (Nat.ne_of_gt hq)]
    exact h.fresh (Nat.le_of_succ_le hq)
  · exact (Function.update_of_ne hpnext _ _).trans h.region

/-- Outside of the window there was nothing that a new block would not have. -/
def Blank (cells : Region) (size atIndex : Size) : Prop :=
  ∀ i, i < cells.length → ¬ InWindow size atIndex i →
    (List.replicate (nextPowerOf2ClampedToMax (atIndex + size)).toNat none : Region)[i]? = cells[i]?

/-- A storage without a block: what is written is written to a new one, and is all that is
there. -/
theorem setBytes_null_honoured (hr : m.regions r = some cells) (hrnext : r ≠ m.next)
    (hpos : 0 < cells.length) (hsource : offset + size.toNat ≤ cells.length)
    (hend : atIndex.toNat + size.toNat < 2 ^ 64) :
    Honoured m.faults cells offset size atIndex
        (ByteBufferStorage.setBytes a m ⟨none, 0⟩ (.block (some r) offset) size atIndex)
      ↔ size ≠ 0 ∧ (a.allocates m.requests = true → Blank cells size atIndex) := by
  by_cases hsize : size = 0
  · -- nothing is written, and the block is gone
    subst hsize
    rw [setBytes_nothing]
    refine ⟨fun h => ?_, fun h => absurd rfl h.1⟩
    have hout : ¬ InWindow 0 atIndex 0 := fun hin => absurd hin.2 (Nat.not_lt.mpr hin.1)
    have hfirst := h.kept rfl 0 hpos hout
    rw [List.getElem?_eq_getElem hpos] at hfirst
    exact absurd hfirst (by simp [ByteBufferStorage.cellAt, ByteBufferStorage.contents])
  have hround := not_nextPowerOf2ClampedToMax_lt (atIndex + size)
  have hreserve : ByteBufferStorage.reserve a m ⟨none, 0⟩ (atIndex + size)
      = match m.allocate a (nextPowerOf2ClampedToMax (atIndex + size)) with
        | (m', none) => (m', ⟨none, 0⟩, false)
        | (m', some q) => (m', ⟨some q, nextPowerOf2ClampedToMax (atIndex + size)⟩, true) := by
    rw [ByteBufferStorage.reserve, if_neg (by simp)]
    dsimp only
    rewrite [if_neg hround]
    rfl
  rw [Memory.allocate] at hreserve
  cases ha : a.allocates m.requests with
  | false =>
      rw [ha] at hreserve
      rw [setBytes_unreserved hsize hend hreserve]
      refine ⟨fun _ => ⟨hsize, fun hno => absurd hno (by simp)⟩, fun _ => ⟨rfl, ?_, ?_⟩⟩
      · exact fun hzero => absurd hzero.symm hsize
      · exact fun hzero => absurd hzero.symm hsize
  | true =>
      -- the new block is blank where it was not written to
      rw [ha] at hreserve
      have hr' : Function.update m.regions m.next
          (some (List.replicate (nextPowerOf2ClampedToMax (atIndex + size)).toNat none)) r
          = some (cells ++ List.replicate 0 none) := by
        rw [Function.update_of_ne hrnext, List.replicate_zero, List.append_nil]
        exact hr
      have hfits : atIndex.toNat + size.toNat ≤ (List.replicate
          (nextPowerOf2ClampedToMax (atIndex + size)).toNat (none : Option UInt8)).length := by
        have hle := BitVec.le_def.mp (le_nextPowerOf2ClampedToMax (atIndex + size))
        rw [BitVec.toNat_add_of_lt hend] at hle
        rw [List.length_replicate]
        exact hle
      obtain ⟨m', heq, hquiet, hcontents⟩ := setBytes_copies hsize hend hreserve rfl
        (Function.update_self _ _ _) (readCells_append hr' hsource)
        (by rw [length_slice hsource]; exact hfits)
      rw [heq, honoured_splice_iff (by rw [hquiet]; exact List.append_nil _) hsource hfits hcontents]
      exact ⟨fun hblank => ⟨hsize, fun _ => hblank⟩, fun h => h.2 rfl⟩

/-- Honouring looks at the regions and at the faults of one kind. -/
theorem Honoured.congr (h : Honoured faults cells offset size atIndex (m, e, n))
    (hregions : m'.regions = m.regions)
    (hfaults : m'.faults.count .source = m.faults.count .source) :
    Honoured faults cells offset size atIndex (m', e, n) := by
  have hcell : ∀ i, e.cellAt m' i = e.cellAt m i := by
    intro i
    unfold ByteBufferStorage.cellAt ByteBufferStorage.contents
    rw [hregions]
  refine ⟨hfaults.trans h.live, fun hn i hi => ?_, fun hn i hi hout => ?_⟩
  · rw [hcell]
    exact h.written hn i hi
  · rw [hcell]
    exact h.kept hn i hi hout

/-- The assertion on the writer does not matter to it. -/
theorem honoured_assert_iff {ok : Bool} :
    Honoured faults cells offset size atIndex (m.assert ok .writerIndex, e, n)
      ↔ Honoured faults cells offset size atIndex (m, e, n) := by
  have hregions : (m.assert ok .writerIndex).regions = m.regions := by
    cases ok with
    | true => rfl
    | false => rfl
  have hfaults : (m.assert ok .writerIndex).faults.count .source = m.faults.count .source := by
    cases ok with
    | true => rfl
    | false => simp [Memory.assert, Memory.fault]
  exact ⟨fun h => h.congr hregions.symm hfaults.symm, fun h => h.congr hregions hfaults⟩

end

/-! ## Buffers -/

/-- A buffer whose storage is on a live block; `block` counts the handles. -/
structure Held (s : Storages) (buffer : ByteBuffer) (b : ℕ) (block : Block ByteBufferStorage)
    (p : Address) (cells : Region) : Prop where
  storage : buffer.storage = some b
  live : s.blocks b = some block
  onBlock : OnBlock s.world block.element p cells
  fresh : s.blocks s.next = none

/-- The promise, for a call on a buffer: about the block that the buffer has after it. -/
def AppendHonoured (faults : List Fault) (cells : Region) (offset : ℕ) (size atIndex : Size) :
    Option (Storages × ByteBuffer × Result) → Prop
  | none => False
  | some (s, buffer, result) => ∃ e, buffer.read s = some e
      ∧ Honoured faults cells offset size atIndex (s.world, e, result.size)

section

variable {a : ByteBufferAllocator} {s : Storages} {buffer : ByteBuffer} {b : ℕ}
  {block : Block ByteBufferStorage} {p : Address} {cells : Region} {offset : ℕ} {size : Size}

/-- What the buffer hands out of its block. -/
theorem Held.views (h : Held s buffer b block p cells) :
    buffer.bytes s = some (.block (some p) 0)
      ∧ buffer.readableBytesView s = some (.block (some p) buffer.readerIndex.toNat) := by
  have hread : buffer.read s = some block.element := by
    rw [ByteBuffer.read, h.storage, Store.read, h.live]
    rfl
  have hbytes : block.element.bytes = some p := h.onBlock.bytes
  simp only [ByteBuffer.bytes, ByteBuffer.readableBytesView, hread, Option.map_some, hbytes,
    and_self]

theorem Held.unique_alone (h : Held s buffer b block p cells) (halone : ¬ 1 < block.retainCount) :
    buffer.unique a s = some (s, buffer, b, block.element) := by
  have hself : { buffer with storage := some b } = buffer := by rw [← h.storage]
  have hunique : s.unique (ByteBufferStorage.element a) buffer.storage = some (s, b) := by
    rw [h.storage, Store.unique]
    simp only [h.live, if_neg halone]
  have hread : s.read (some b) = some block.element := by
    rw [Store.read, h.live]
    rfl
  simp only [ByteBuffer.unique, hunique, hread, Option.map_some, hself]

/-- The split: the old block has one handle less, and the new one has the copy. -/
theorem Held.unique_shared (h : Held s buffer b block p cells) (hshared : 1 < block.retainCount)
    {m : Memory} {e : ByteBufferStorage} (hcopy : block.element.copyConstruct a s.world = (m, e)) :
    ∃ s₁ block₁, buffer.unique a s = some (s₁, { buffer with storage := some s.next }, s.next, e)
      ∧ s₁.world = m ∧ s₁.blocks s.next = some block₁ := by
  have hne : b ≠ s.next := by
    intro heq
    have hblock := h.live
    rw [heq, h.fresh] at hblock
    exact absurd hblock (by simp)
  -- `release` does not delete the old block
  have hone : block.retainCount ≠ 1 := by
    intro heq
    rw [heq] at hshared
    exact absurd hshared (by decide)
  have hcopied : (ByteBufferStorage.element a).copy s.world block.element = (m, e) := hcopy
  let split : Storages :=
    { world := m
      blocks := Function.update (Function.update s.blocks s.next (some ⟨e, 1⟩)) b
        (some { block with retainCount := block.retainCount - 1 })
      next := s.next + 1
      deleted := s.deleted }
  have hunique : s.unique (ByteBufferStorage.element a) buffer.storage = some (split, s.next) := by
    rw [h.storage, Store.unique]
    simp only [h.live, if_pos hshared, hcopied, newBlock, release, Function.update_of_ne hne,
      if_neg hone, Option.map_some, split]
  have hlast : split.blocks s.next = some ⟨e, 1⟩ := by
    dsimp only [split]
    rw [Function.update_of_ne hne.symm, Function.update_self]
  refine ⟨split, ⟨e, 1⟩, ?_, rfl, hlast⟩
  simp only [ByteBuffer.unique, hunique, Store.read, hlast, Option.map_some]

/-- A write of a buffer is one of the storage that `unique()` hands out. -/
theorem appendHonoured_iff {faults : List Fault} {source : ConstBytes} {s₁ : Storages}
    {b₁ : ℕ} {block₁ : Block ByteBufferStorage} {e₁ : ByteBufferStorage} {buffer₁ : ByteBuffer}
    (hunique : buffer.unique a s = some (s₁, buffer₁, b₁, e₁)) (hstorage : buffer₁.storage = some b₁)
    (hwriter : buffer₁.writerIndex = buffer.writerIndex) (hblock : s₁.blocks b₁ = some block₁) :
    AppendHonoured faults cells offset size buffer.writerIndex (buffer.writeBytes a s source size)
      ↔ Honoured faults cells offset size buffer.writerIndex
        (e₁.setBytes a s₁.world source size buffer.writerIndex) := by
  rw [ByteBuffer.writeBytes, hunique]
  dsimp only
  rw [hwriter]
  generalize e₁.setBytes a s₁.world source size buffer.writerIndex = set
  obtain ⟨m, e, n⟩ := set
  have hread : ∀ x : ByteBuffer, x.storage = some b₁ → ∀ m',
      x.read { s₁.setElement b₁ m e with world := m' } = some e := by
    intro x hx m'
    rw [ByteBuffer.read, hx]
    simp [Store.read, setElement, hblock]
  have hcapacity : buffer₁.capacity (s₁.setElement b₁ m e) = some e.capacity := by
    rw [ByteBuffer.capacity, show buffer₁.read (s₁.setElement b₁ m e) = some e from
      hread buffer₁ hstorage m]
    rfl
  rw [ByteBuffer.moveWriterIndexForwardBy, ByteBuffer.moveWriterIndexTo, hcapacity]
  simp only [Option.map_some, AppendHonoured]
  constructor
  · rintro ⟨e', he', hhonoured⟩
    obtain rfl := Option.some.inj ((hread _ hstorage _).symm.trans he')
    exact honoured_assert_iff.mp hhonoured
  · intro hhonoured
    exact ⟨e, hread _ hstorage _, honoured_assert_iff.mpr hhonoured⟩

end

/-! ## The storages and buffers of a program -/

theorem Owned.onBlock {Ω : Type} {m : Memory} {elems : Ω → Option ByteBufferStorage} {o : Ω}
    {e : ByteBufferStorage} (h : Owned m elems) (he : elems o = some e) {p : Address}
    (hp : e.bytes = some p) : ∃ cells, OnBlock m e p cells := by
  obtain ⟨cells, hcells, hlength, hpos⟩ := h.block he hp
  exact ⟨cells, hp, hcells, hlength, hpos, h.fresh⟩

/-- In a good machine a buffer that has a block at all holds a live one, and the count of its
storage is that of the handles. -/
theorem Machine.Good.held {ι κ : Type} [Fintype ι] {s : Machine ι κ} (hs : s.Good) {i : ι}
    {buffer : ByteBuffer} {b : ℕ} (hi : s.buffers i = some buffer) (hb : buffer.storage = some b) :
    ∃ block, block.retainCount.toNat = handlesOn s.handles b
      ∧ ∀ p, block.element.bytes = some p → ∃ cells, Held s.store buffer b block p cells := by
  have hhandle : s.handles i = some (some b) := by rw [Machine.handles, hi, Option.map_some, hb]
  obtain ⟨block, hblock, hcount⟩ := hs.counted.exists_block (handlesOn_pos hhandle)
  refine ⟨block, hcount, fun p hp => ?_⟩
  have howner : owners s.store s.storages (.inl b) = some block.element := by
    simp [owners, elements, hblock]
  obtain ⟨cells, hcells⟩ := hs.owned.onBlock howner hp
  exact ⟨cells, hb, hblock, hcells, hs.counted.fresh (Nat.le_refl _)⟩

/-! ## When the promise is kept -/

/-- When a buffer that appends from its own bytes gets what it asked for. On a block of its own,
when that is not moved. On a shared one, when the split gets its copy; without it there is
nothing left of the old bytes, which matters unless the write fails too or there was nothing in
them. -/
def AppendKept (a : ByteBufferAllocator) (m : Memory) (retainCount : UInt32) (cells : Region)
    (size atIndex : Size) : Prop :=
  if 1 < retainCount then a.allocates m.requests = false →
    size ≠ 0 ∧ (a.allocates (m.requests + 1) = true → Blank cells size atIndex)
  else ¬ Moved a m cells size atIndex

theorem Held.append_iff {a : ByteBufferAllocator} {s : Storages} {buffer : ByteBuffer} {b : ℕ}
    {block : Block ByteBufferStorage} {p : Address} {cells : Region} {offset : ℕ} {size : Size}
    (h : Held s buffer b block p cells) (hsource : offset + size.toNat ≤ cells.length)
    (hend : buffer.writerIndex.toNat + size.toNat < 2 ^ 64) :
    AppendHonoured s.world.faults cells offset size buffer.writerIndex
        (buffer.writeBytes a s (.block (some p) offset) size)
      ↔ AppendKept a s.world block.retainCount cells size buffer.writerIndex := by
  have hblock := h.onBlock
  unfold AppendKept
  by_cases hshared : 1 < block.retainCount
  · rw [if_pos hshared]
    cases ha : a.allocates s.world.requests with
    | true =>
        obtain ⟨m₁, e₁, hcopy, hcopied, hp, hfaults⟩ := hblock.copyConstruct ha
        obtain ⟨s₁, block₁, hunique, rfl, hnew⟩ := h.unique_shared hshared hcopy
        rw [appendHonoured_iff hunique rfl rfl hnew, ← hfaults]
        -- the source is in the block that the others keep
        have hne : p ≠ s.world.next := Nat.ne_of_lt hblock.lt_next
        exact ⟨fun _ hno => absurd hno (by simp),
          fun _ => setBytes_honoured hcopied hp hsource hend fun heq => absurd heq hne⟩
    | false =>
        -- the copy has no block, and the write begins with an `allocate`
        have hcopy : block.element.copyConstruct a s.world = ({ s.world with
            requests := s.world.requests + 1
            log := s.world.log ++ [.allocate block.element.capacity none] }, ⟨none, 0⟩) := by
          rw [ByteBufferStorage.copyConstruct, hblock.bytes]
          dsimp only
          rw [Memory.allocate, if_neg (by simp [ha])]
        obtain ⟨s₁, block₁, hunique, hworld, hnew⟩ := h.unique_shared hshared hcopy
        have hne : p ≠ s₁.world.next := by
          rw [hworld]
          exact Nat.ne_of_lt hblock.lt_next
        have hregion : s₁.world.regions p = some cells := by
          rw [hworld]
          exact hblock.region
        have hfaults : s₁.world.faults = s.world.faults := by rw [hworld]
        have hrequests : s₁.world.requests = s.world.requests + 1 := by rw [hworld]
        rw [appendHonoured_iff hunique rfl rfl hnew, ← hfaults,
          setBytes_null_honoured hregion hne hblock.pos hsource hend, hrequests]
        exact ⟨fun hkept _ => hkept, fun hkept => hkept rfl⟩
  · -- alone: the storage's own block
    rw [if_neg hshared, appendHonoured_iff (h.unique_alone hshared) h.storage rfl h.live]
    exact ⟨fun hhonoured hmoved => setBytes_not_honoured hblock hend hmoved hhonoured,
      fun hmoved => setBytes_honoured hblock hblock.region hsource hend fun _ => hmoved⟩

/-- **Overlapping sources.** `setBytes` from the storage's own block does what the header says,
exactly if the block is not moved; and a buffer that appends from its `bytes()` or its
`readableBytesView()`, from any offset on, gets them, exactly if `AppendKept` says so. -/
theorem overlap_honoured_iff (a : ByteBufferAllocator) :
    (∀ {m e p cells offset} {size atIndex : Size}, OnBlock m e p cells →
      offset + size.toNat ≤ cells.length → atIndex.toNat + size.toNat < 2 ^ 64 →
      (Honoured m.faults cells offset size atIndex
          (e.setBytes a m (.block (some p) offset) size atIndex)
        ↔ ¬ Moved a m cells size atIndex))
    ∧ ∀ {s buffer b block p cells offset} {size : Size}, Held s buffer b block p cells →
      offset + size.toNat ≤ cells.length → buffer.writerIndex.toNat + size.toNat < 2 ^ 64 →
      buffer.bytes s = some (.block (some p) 0)
        ∧ buffer.readableBytesView s = some (.block (some p) buffer.readerIndex.toNat)
        ∧ (AppendHonoured s.world.faults cells offset size buffer.writerIndex
            (buffer.writeBytes a s (.block (some p) offset) size)
          ↔ AppendKept a s.world block.retainCount cells size buffer.writerIndex) := by
  refine ⟨fun h hsource hend => ⟨?_, ?_⟩, fun h hsource hend =>
    ⟨h.views.1, h.views.2, h.append_iff hsource hend⟩⟩
  · exact fun hhonoured hmoved => setBytes_not_honoured h hend hmoved hhonoured
  · exact fun hmoved => setBytes_honoured h h.region hsource hend fun _ => hmoved

/-- An allocator that grants everything, and moves what it grows. -/
def ByteBufferAllocator.alwaysMoving : ByteBufferAllocator := ⟨fun _ => true, fun _ => .moves⟩

/-- A storage of two bytes, both written. -/
def twoBytes : Memory × ByteBufferStorage :=
  let made := ByteBufferStorage.construct .alwaysMoving .start 2
  let set := made.2.setBytes .alwaysMoving made.1 (.source (some fun i => UInt8.ofNat (i + 1))) 2 0
  (set.1, set.2.1)

theorem twoBytes_onBlock : OnBlock twoBytes.1 twoBytes.2 0 [some 1, some 2] := by
  refine ⟨rfl, rfl, rfl, by decide, fun {q} hq => ?_⟩
  have hpos : 0 < q := hq
  have hne : q ≠ 0 := Nat.ne_of_gt hpos
  have hregions : twoBytes.1.regions
      = Function.update (Function.update (fun _ : Address => none) 0 (some [none, none])) 0
        (some [some 1, some 2]) := rfl
  rw [hregions, Function.update_of_ne hne, Function.update_of_ne hne]

/-- Two buffers on that storage. -/
def sharedBytes : Storages :=
  ⟨twoBytes.1, Function.update (fun _ => none) 0 (some ⟨twoBytes.2, 2⟩), 1, []⟩

/-- The block grows where it is; and a buffer that shares its block appends from it, although
the copy is moved when it grows. -/
theorem overlap_honoured_in_place :
    Honoured [] [some 1, some 2] 0 2 1
        (twoBytes.2.setBytes .granting twoBytes.1 (.block (some 0) 0) 2 1)
      ∧ AppendHonoured [] [some 1, some 2] 0 2 2
        (ByteBuffer.writeBytes .alwaysMoving sharedBytes ⟨0, 2, some 0⟩ (.block (some 0) 0) 2) := by
  have hheld : Held sharedBytes ⟨0, 2, some 0⟩ 0 ⟨twoBytes.2, 2⟩ 0 [some 1, some 2] :=
    ⟨rfl, rfl, twoBytes_onBlock, rfl⟩
  refine ⟨((overlap_honoured_iff .granting).1 twoBytes_onBlock (by decide) (by decide)).mpr ?_,
    ((overlap_honoured_iff .alwaysMoving).2 hheld (by decide) (by decide)).2.2.mpr ?_⟩
  · exact fun hmoved => absurd hmoved.2.2 (by decide)
  · unfold AppendKept
    rw [if_pos (by decide)]
    exact fun hno => absurd hno (by decide)

/-- The header's promise broken: both bytes are to be written behind the first one, the block
moves, and they are read from where it was. -/
theorem overlap_not_honoured :
    ¬ ∀ a m e p cells offset (size atIndex : Size), OnBlock m e p cells →
      offset + size.toNat ≤ cells.length → atIndex.toNat + size.toNat < 2 ^ 64 →
      Honoured m.faults cells offset size atIndex
        (e.setBytes a m (.block (some p) offset) size atIndex) := by
  intro hall
  have hhonoured := hall .alwaysMoving twoBytes.1 twoBytes.2 0 [some 1, some 2] 0 2 1 twoBytes_onBlock
    (by decide) (by decide)
  exact setBytes_not_honoured twoBytes_onBlock (by decide) ⟨by decide, by decide, rfl⟩ hhonoured

end NPFoundation
