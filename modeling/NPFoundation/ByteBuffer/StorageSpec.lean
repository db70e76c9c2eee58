import NPFoundation.ByteBuffer.Ownership
import NPFoundation.ByteBuffer.Rounding

/-!
# What each function of a storage does to its block

A storage's block is seen as `Option Region`: no block, or its cells. `reserveBlock` and
`setBlock` say what `reserve` and `setBytes` do to it, given whether the allocator grants
the one request they may make. That the functions do exactly that, for the storage they
are called on and for no other, is one lemma for each.
-/

namespace NPFoundation

open Slice

/-! ## The rounding -/

/-- The rounded capacity is at least what was asked for. -/
theorem le_nextPowerOf2ClampedToMax (n : Size) : n ≤ nextPowerOf2ClampedToMax n :=
  le_clamped (by decide) (Nat.le_refl 64) n

/-- So the test for it in `reserve` never fails. -/
theorem not_nextPowerOf2ClampedToMax_lt (n : Size) : ¬ nextPowerOf2ClampedToMax n < n :=
  BitVec.not_lt.mpr (le_nextPowerOf2ClampedToMax n)

/-- It is never 0. -/
theorem nextPowerOf2ClampedToMax_ne_zero (n : Size) : nextPowerOf2ClampedToMax n ≠ 0 := by
  intro h
  have hle := le_nextPowerOf2ClampedToMax n
  rw [h] at hle
  have hn : n = 0 := by bv_omega
  subst hn
  exact absurd h (by decide)

/-! ## Blocks -/

/-- The test for an overflow that does not overflow. -/
theorem over_iff {size atIndex : Size} :
    atIndex > sizeMax - size ↔ 2 ^ 64 ≤ atIndex.toNat + size.toNat := by
  have hmax : sizeMax.toNat = 2 ^ 64 - 1 := BitVec.toNat_allOnes
  have hlt := size.isLt
  have hsub : (sizeMax - size).toNat = 2 ^ 64 - 1 - size.toNat := by
    rw [BitVec.toNat_sub, hmax]
    omega
  rw [gt_iff_lt, BitVec.lt_def, hsub]
  omega

/-- The room in a block; a storage without one has none. -/
def roomOf (c : Option Region) : ℕ := (c.getD []).length

/-- A block made large enough for `n` bytes. -/
def grown (c : Option Region) (n : Size) : Region :=
  c.getD [] ++ List.replicate ((nextPowerOf2ClampedToMax n).toNat - roomOf c) none

/-- `reserve`, when `grows` is the allocator's answer should it be asked. -/
def reserveBlock (grows : Bool) (c : Option Region) (n : Size) : Option Region × Bool :=
  if c.isSome ∧ n.toNat ≤ roomOf c then (c, true)
  else if grows then (some (grown c n), true)
  else (c, false)

/-- The bytes of a source of the program's own. -/
def sourceBytes (data : ℕ → UInt8) (size : Size) : Region :=
  (List.range size.toNat).map fun i => some (data i)

/-- `setBytes` from a source of the program's own. -/
def setBlock (grows : Bool) (c : Option Region) (source : Option (ℕ → UInt8))
    (size atIndex : Size) : Option Region × Size :=
  match source with
  | none => (c, 0)
  | some data =>
      if size = 0 ∨ atIndex > sizeMax - size then (c, 0)
      else
        match reserveBlock grows c (atIndex + size) with
        | (c', false) => (c', 0)
        | (c', true) => (c'.map fun cells => splice cells atIndex.toNat (sourceBytes data size), size)

@[simp] theorem length_sourceBytes (data : ℕ → UInt8) (size : Size) :
    (sourceBytes data size).length = size.toNat := by
  simp [sourceBytes]

theorem length_grown {c : Option Region} {n : Size} (h : ¬ (c.isSome ∧ n.toNat ≤ roomOf c)) :
    (grown c n).length = (nextPowerOf2ClampedToMax n).toNat ∧ roomOf c ≤ (grown c n).length := by
  have hle := BitVec.le_def.mp (le_nextPowerOf2ClampedToMax n)
  have hroom : roomOf c ≤ (nextPowerOf2ClampedToMax n).toNat := by
    cases c with
    | none => exact Nat.zero_le _
    | some cells =>
        simp only [Option.isSome_some, true_and, Nat.not_le] at h
        omega
  simp only [grown, List.length_append, List.length_replicate]
  unfold roomOf at *
  omega

/-- After a successful `reserve` there is a block with the room that was asked for. -/
theorem reserveBlock_room {grows : Bool} {c c' : Option Region} {n : Size}
    (h : reserveBlock grows c n = (c', true)) :
    ∃ cells, c' = some cells ∧ n.toNat ≤ cells.length := by
  unfold reserveBlock at h
  split at h
  · rename_i hfits
    obtain ⟨cells, hcells⟩ := Option.isSome_iff_exists.mp hfits.1
    obtain rfl := (Prod.mk.inj h).1
    refine ⟨cells, hcells, ?_⟩
    have hroom := hfits.2
    rw [hcells] at hroom
    exact hroom
  · rename_i hfits
    split at h
    · obtain rfl := (Prod.mk.inj h).1
      exact ⟨_, rfl, by rw [(length_grown hfits).1]
                        exact BitVec.le_def.mp (le_nextPowerOf2ClampedToMax n)⟩
    · exact absurd (Prod.mk.inj h).2 (by simp)

/-- When `setBytes` goes through: there is a source and something to copy, the end does not
overflow, and there is room or more is granted. -/
def accepts (grows : Bool) (c : Option Region) (source : Option (ℕ → UInt8))
    (size atIndex : Size) : Prop :=
  source.isSome ∧ size ≠ 0 ∧ atIndex.toNat + size.toNat < 2 ^ 64
    ∧ (c.isSome ∧ atIndex.toNat + size.toNat ≤ roomOf c ∨ grows = true)

/-- Reserved cells begin with the cells that were there; nothing was written to the others. -/
theorem reserveBlock_cells {grows : Bool} {c : Option Region} {n : Size}
    (h : c.isSome ∧ n.toNat ≤ roomOf c ∨ grows = true) :
    ∃ cells extra, reserveBlock grows c n = (some cells, true)
      ∧ cells = c.getD [] ++ List.replicate extra none := by
  by_cases hfits : c.isSome ∧ n.toNat ≤ roomOf c
  · obtain ⟨cells, rfl⟩ := Option.isSome_iff_exists.mp hfits.1
    exact ⟨cells, 0, by rw [reserveBlock, if_pos hfits], by simp⟩
  · have hgrows := h.resolve_left hfits
    exact ⟨grown c n, _, by rw [reserveBlock, if_neg hfits, if_pos hgrows], rfl⟩

theorem setBlock_accepted {grows : Bool} {c : Option Region} {source : Option (ℕ → UInt8)}
    {size atIndex : Size} (h : accepts grows c source size atIndex) :
    ∃ data cells extra, source = some data ∧ cells = c.getD [] ++ List.replicate extra none
      ∧ atIndex.toNat + size.toNat ≤ cells.length
      ∧ setBlock grows c source size atIndex
        = (some (splice cells atIndex.toNat (sourceBytes data size)), size) := by
  obtain ⟨hsome, hsize, hlt, hroom⟩ := h
  obtain ⟨data, rfl⟩ := Option.isSome_iff_exists.mp hsome
  have hsum : (atIndex + size).toNat = atIndex.toNat + size.toNat :=
    BitVec.toNat_add_of_lt hlt
  have hover : ¬ atIndex > sizeMax - size := by
    rw [over_iff]
    omega
  obtain ⟨cells, extra, hreserve, hcells⟩ := reserveBlock_cells (n := atIndex + size)
    (by rw [hsum]; exact hroom)
  obtain ⟨cells', hcells', hfits⟩ := reserveBlock_room hreserve
  obtain rfl := Option.some.inj hcells'
  refine ⟨data, cells, extra, rfl, hcells, by rw [← hsum]; exact hfits, ?_⟩
  rw [setBlock, if_neg (not_or.mpr ⟨hsize, hover⟩), hreserve]
  rfl

theorem setBlock_refused {grows : Bool} {c : Option Region} {source : Option (ℕ → UInt8)}
    {size atIndex : Size} (h : ¬ accepts grows c source size atIndex) :
    setBlock grows c source size atIndex = (c, 0) := by
  cases source with
  | none => rfl
  | some data =>
      rw [setBlock]
      split
      · rfl
      · rename_i hsize
        obtain ⟨hsize, hover⟩ := not_or.mp hsize
        rw [over_iff, Nat.not_le] at hover
        have hsum : (atIndex + size).toNat = atIndex.toNat + size.toNat :=
          BitVec.toNat_add_of_lt hover
        have hno : ¬ (c.isSome ∧ (atIndex + size).toNat ≤ roomOf c ∨ grows = true) := fun hroom =>
          h ⟨rfl, hsize, hover, by rw [← hsum]; exact hroom⟩
        obtain ⟨hfits, hgrows⟩ := not_or.mp hno
        rw [reserveBlock, if_neg hfits, if_neg hgrows]

/-! ## A storage and its block -/

variable {Ω : Type} [DecidableEq Ω] {a : ByteBufferAllocator} {m m' m₁ m₂ : Memory}
  {elems : Ω → Option ByteBufferStorage} {o : Ω} {e e' e₁ e₂ : ByteBufferStorage}

omit [DecidableEq Ω] in
theorem Owned.capacity_eq (h : Owned m elems) (he : elems o = some e) :
    e.capacity.toNat = roomOf (e.contents m) ∧ e.bytes.isSome = (e.contents m).isSome := by
  cases hp : e.bytes with
  | none => simp [h.null he hp, ByteBufferStorage.contents, hp, roomOf]
  | some p =>
      obtain ⟨cells, -, hcontents, hlen, -⟩ := h.contents he hp
      simp [hcontents, roomOf, hlen]

/-- One storage became `e'`; the family is still well owned and the others have what they had. -/
structure Updates (m m' : Memory) (elems : Ω → Option ByteBufferStorage) (o : Ω)
    (e' : ByteBufferStorage) : Prop where
  owned : Owned m' (Function.update elems o (some e'))
  frame : ∀ {o' e}, o' ≠ o → elems o' = some e → e.contents m' = e.contents m

theorem Owned.updates {old : Option ByteBufferStorage} (h : Owned m elems) (ho : elems o = old)
    (hr : Replaces m m' old (some e')) : Updates m m' elems o e' :=
  ⟨h.replace ho hr, fun hne he => hr.contents_eq h ho hne he⟩

theorem Owned.updates_self (h : Owned m elems) (he : elems o = some e) : Updates m m elems o e :=
  ⟨by rw [← he, Function.update_eq_self]; exact h, fun _ _ => rfl⟩

theorem Updates.trans (h₁ : Updates m m₁ elems o e₁)
    (h₂ : Updates m₁ m₂ (Function.update elems o (some e₁)) o e₂) : Updates m m₂ elems o e₂ where
  owned := by
    have h := h₂.owned
    rwa [Function.update_idem] at h
  frame := fun hne he =>
    (h₂.frame hne (by rw [Function.update_of_ne hne]; exact he)).trans (h₁.frame hne he)

omit [DecidableEq Ω] in
/-- Faults are only recorded. -/
theorem Owned.recorded (h : Owned m elems) (hregions : m'.regions = m.regions)
    (hnext : m'.next = m.next) (hlog : m'.log = m.log) : Owned m' elems := by
  refine ⟨?_, h.null, h.unshared, ?_, ?_, ?_⟩
  · rw [hregions]
    exact h.block
  · rw [hregions]
    exact h.owner
  · rw [hregions, hnext]
    exact h.fresh
  · obtain ⟨live, hlive, hagrees⟩ := h.log
    exact ⟨live, by rw [hlog]; exact hlive, fun p => by rw [hregions]; exact hagrees p⟩

/-! ## The functions -/

/-- The allocator's answer to the request a growth of `e` makes. -/
def grants (a : ByteBufferAllocator) (m : Memory) (e : ByteBufferStorage) : Bool :=
  match e.bytes with
  | none => a.allocates m.requests
  | some _ => a.reallocates m.requests ≠ .fails

omit [DecidableEq Ω] in
/-- A refused request leaves a family as it was. -/
theorem Owned.refused (h : Owned m elems) {len : Size} (hlen : len ≠ 0)
    (ha : a.allocates m.requests = false) :
    ∃ m₁, m.allocate a len = (m₁, none) ∧ Owned m₁ elems ∧ m₁.regions = m.regions
      ∧ m₁.faults = m.faults ∧ m₁.requests = m.requests + 1 := by
  obtain ⟨live, hlive, hagrees⟩ := h.log
  obtain ⟨live', hlive', hagrees'⟩ := replay_refused hlen live hagrees
  have heq : m.allocate a len = ({ m with
      requests := m.requests + 1
      log := m.log ++ [.allocate len none] }, none) := by
    rw [Memory.allocate, if_neg (by simp [ha])]
  exact ⟨_, heq, ⟨h.block, h.null, h.unshared, h.owner, h.fresh, live',
    Transition.run_append_some.mpr ⟨live, hlive, hlive'⟩, hagrees'⟩, rfl, rfl, rfl⟩

omit [DecidableEq Ω] in
/-- A request that is met, for a storage without a block. -/
theorem Owned.granted (h : Owned m elems) {len : Size} (hlen : len ≠ 0)
    (ha : a.allocates m.requests = true) (old : Option ByteBufferStorage)
    (hold : pointer old = none) :
    ∃ m₁, m.allocate a len = (m₁, some m.next) ∧ Replaces m m₁ old (some ⟨some m.next, len⟩)
      ∧ m₁.regions m.next = some (List.replicate len.toNat none)
      ∧ m₁.faults = m.faults ∧ m₁.requests = m.requests + 1 := by
  have hreplaces := allocate_replaces hold hlen ha h.fresh
  rw [Memory.allocate, if_pos ha] at hreplaces ⊢
  exact ⟨_, rfl, hreplaces, Function.update_self _ _ _, rfl, rfl⟩

/-- A storage without a block takes a name nobody has. -/
theorem Owned.updates_null (h : Owned m elems) (ho : elems o = none) :
    Updates m m elems o ⟨none, 0⟩ := by
  refine h.updates ho ⟨?_, ?_, ?_, fun _ _ => rfl, ?_, fun hf => hf, [], by simp,
    fun live hlive => ⟨live, rfl, hlive⟩⟩
  · intro e p he hp
    obtain rfl := Option.some.inj he
    exact absurd hp (by simp)
  · intro e he _
    obtain rfl := Option.some.inj he
    rfl
  · intro p hp
    exact absurd hp (by simp [pointer])
  · intro p hp
    exact absurd hp (by simp [pointer])

theorem construct_spec (h : Owned m elems) (ho : elems o = none) (capacity : Size) :
    ∃ m' e', ByteBufferStorage.construct a m capacity = (m', e') ∧ Updates m m' elems o e'
      ∧ m'.faults = m.faults
      ∧ e'.contents m' = (if a.allocates m.requests then
          some (List.replicate (nextPowerOf2ClampedToMax capacity).toNat none) else none) := by
  have hlen := nextPowerOf2ClampedToMax_ne_zero capacity
  cases ha : a.allocates m.requests with
  | true =>
      obtain ⟨m₁, heq, hreplaces, hregion, hfaults, -⟩ := h.granted hlen ha none rfl
      refine ⟨m₁, ⟨some m.next, nextPowerOf2ClampedToMax capacity⟩, ?_, h.updates ho hreplaces,
        hfaults, ?_⟩
      · rw [ByteBufferStorage.construct, heq]
      · simpa [ByteBufferStorage.contents] using hregion
  | false =>
      obtain ⟨m₁, heq, howned, hregions, hfaults, -⟩ := h.refused hlen ha
      exact ⟨m₁, ⟨none, 0⟩, by rw [ByteBufferStorage.construct, heq],
        ⟨(howned.updates_null ho).owned, fun _ _ => by rw [ByteBufferStorage.contents, hregions]; rfl⟩,
        hfaults, by simp [ByteBufferStorage.contents]⟩

/-- A copy to where there is room; what the source does not have is indeterminate. -/
theorem copybytes_eq {p : Address} (offset : ℕ) {len : ℕ} {source : ConstBytes}
    {data cells : Region} {ok : Bool} (hread : m.readCells source len = (data, ok))
    (hcells : m.regions p = some cells) (hroom : offset + data.length ≤ cells.length) :
    m.copybytes p offset source len
      = { m with
          regions := Function.update m.regions p (some (splice cells offset data))
          faults := m.faults ++ if ok then [] else [.source] } := by
  rw [Memory.copybytes, hread]
  cases ok with
  | true => simp [Memory.assert, Memory.writeCells, hcells, if_pos hroom]
  | false => simp [Memory.assert, Memory.fault, Memory.writeCells, hcells, if_pos hroom]

/-- The block of a storage is overwritten. -/
theorem Updates.copybytes (h : Updates m m₁ elems o e₁) {p : Address} (hp : e₁.bytes = some p)
    {cells : Region} (hcells : m₁.regions p = some cells) {source : ConstBytes} {len : ℕ}
    {data : Region} {ok : Bool} (hread : m₁.readCells source len = (data, ok)) (offset : ℕ)
    (hroom : offset + data.length ≤ cells.length) :
    Updates m (m₁.copybytes p offset source len) elems o e₁
      ∧ (m₁.copybytes p offset source len).faults = m₁.faults ++ (if ok then [] else [.source])
      ∧ e₁.contents (m₁.copybytes p offset source len) = some (splice cells offset data) := by
  have hself := Function.update_self o (some e₁) elems
  have hwritten := h.trans (h.owned.updates hself
    (h.owned.overwrite hself hp hcells (length_splice hroom)))
  rw [copybytes_eq offset hread hcells hroom]
  refine ⟨⟨?_, hwritten.frame⟩, rfl, by simp [ByteBufferStorage.contents, hp]⟩
  exact hwritten.owned.recorded rfl rfl rfl

/-- The copy has the cells of its original, or no block at all. -/
theorem copyConstruct_spec (h : Owned m elems) (ho : elems o = none) {o' : Ω}
    (he : elems o' = some e) :
    ∃ m' e', e.copyConstruct a m = (m', e') ∧ Updates m m' elems o e' ∧ m'.faults = m.faults
      ∧ m'.requests = m.requests + (if e.bytes.isSome then 1 else 0)
      ∧ e'.contents m' = (if a.allocates m.requests then e.contents m else none) := by
  cases hp : e.bytes with
  | none =>
      exact ⟨m, ⟨none, 0⟩, by rw [ByteBufferStorage.copyConstruct, hp], h.updates_null ho, rfl,
        rfl, by simp [ByteBufferStorage.contents, hp]⟩
  | some p =>
      obtain ⟨cells, hcells, hcontents, hlen, hpos⟩ := h.contents he hp
      have hne : e.capacity ≠ 0 := by
        intro heq
        rw [heq] at hlen
        exact absurd hlen (Nat.ne_of_gt hpos)
      cases ha : a.allocates m.requests with
      | false =>
          obtain ⟨m₁, heq, howned, hregions, hfaults, hrequests⟩ := h.refused hne ha
          refine ⟨m₁, ⟨none, 0⟩, ?_, ⟨(howned.updates_null ho).owned, fun _ _ => ?_⟩, hfaults,
            hrequests, by simp [ByteBufferStorage.contents]⟩
          · rw [ByteBufferStorage.copyConstruct, hp]
            simp only [heq]
          · rw [ByteBufferStorage.contents, hregions]
            rfl
      | true =>
          obtain ⟨m₁, heq, hreplaces, hregion, hfaults, hrequests⟩ :=
            h.granted hne ha none rfl
          have hmade := h.updates ho hreplaces
          have hother : o' ≠ o := by
            intro heq'
            rw [heq', ho] at he
            exact absurd he (by simp)
          have hsource : m₁.regions p = some cells := by
            have hframe := hmade.frame hother he
            rw [hcontents] at hframe
            simpa [ByteBufferStorage.contents, hp] using hframe
          have hread : m₁.readCells (.block (some p) 0) e.capacity.toNat = (cells, true) := by
            simp [Memory.readCells, hsource, ← hlen, slice_all]
          have hsize : cells.length = (List.replicate e.capacity.toNat (none : Option UInt8)).length :=
            by simp [hlen]
          obtain ⟨hup, hf, hc⟩ := hmade.copybytes rfl hregion hread 0 (by rw [hsize]; omega)
          refine ⟨_, ⟨some m.next, e.capacity⟩, ?_, hup, by simp [hf, hfaults], ?_, ?_⟩
          · rw [ByteBufferStorage.copyConstruct, hp]
            simp only [heq]
          · rw [copybytes_eq 0 hread hregion (by rw [hsize]; omega)]
            exact hrequests
          · rw [hc, splice_all hsize, if_pos rfl, hcontents]

/-- Making room keeps the cells. -/
theorem resize_eq_grown {cells : Region} {n : Size} (h : ¬ n.toNat ≤ cells.length) :
    Memory.resize cells (nextPowerOf2ClampedToMax n) = grown (some cells) n := by
  have hle := BitVec.le_def.mp (le_nextPowerOf2ClampedToMax n)
  rw [Memory.resize, grown, List.take_of_length_le (by omega)]
  rfl

theorem reserve_spec (h : Owned m elems) (he : elems o = some e) (n : Size) :
    ∃ m' e' ok, e.reserve a m n = (m', e', ok) ∧ Updates m m' elems o e' ∧ m'.faults = m.faults
      ∧ (e'.contents m', ok) = reserveBlock (grants a m e) (e.contents m) n := by
  obtain ⟨hcapacity, hsome⟩ := h.capacity_eq he
  have hround := not_nextPowerOf2ClampedToMax_lt n
  have hne := nextPowerOf2ClampedToMax_ne_zero n
  by_cases hfits : e.bytes.isSome ∧ n ≤ e.capacity
  · have hblock : (e.contents m).isSome ∧ n.toNat ≤ roomOf (e.contents m) := by
      rw [← hsome, ← hcapacity]
      exact hfits
    exact ⟨m, e, true, by rw [ByteBufferStorage.reserve, if_pos hfits], h.updates_self he, rfl,
      by rw [reserveBlock, if_pos hblock]⟩
  · have hblock : ¬ ((e.contents m).isSome ∧ n.toNat ≤ roomOf (e.contents m)) := by
      rw [← hsome, ← hcapacity]
      exact hfits
    rw [ByteBufferStorage.reserve, if_neg hfits]
    simp only [hround, if_false]
    rw [reserveBlock, if_neg hblock]
    cases hp : e.bytes with
    | none =>
        have hnone : e.contents m = none := by simp [ByteBufferStorage.contents, hp]
        cases ha : a.allocates m.requests with
        | false =>
            obtain ⟨m₁, heq, howned, hregions, hfaults, -⟩ := h.refused hne ha
            refine ⟨m₁, e, false, by simp only [heq], ⟨(howned.updates_self he).owned,
              fun _ _ => by rw [ByteBufferStorage.contents, hregions]; rfl⟩, hfaults, ?_⟩
            simp [grants, hp, ha, ByteBufferStorage.contents]
        | true =>
            obtain ⟨m₁, heq, hreplaces, hregion, hfaults, -⟩ := h.granted hne ha (some e) hp
            refine ⟨m₁, ⟨some m.next, nextPowerOf2ClampedToMax n⟩, true, by simp only [heq],
              h.updates he hreplaces, hfaults, ?_⟩
            simp [grants, hp, ha, ByteBufferStorage.contents, hregion, grown, roomOf]
    | some p =>
        obtain ⟨cells, hcells, hcontents, -, -⟩ := h.contents he hp
        obtain ⟨m', q, heq, hfaults, -, hcase⟩ := reallocate_spec h he hp hcells hne (a := a)
        rcases hcase with ⟨rfl, ha, hreplaces, hregions⟩ | ⟨q', rfl, ha, hreplaces, hregion⟩
        · refine ⟨m', e, false, by simp only [heq], h.updates he hreplaces, hfaults, ?_⟩
          simp [grants, hp, ha, ByteBufferStorage.contents, hregions]
        · refine ⟨m', _, true, by simp only [heq], h.updates he hreplaces, hfaults, ?_⟩
          rw [hcontents] at hblock ⊢
          rw [← resize_eq_grown (by simpa [roomOf] using hblock)]
          simp [grants, hp, ha, ByteBufferStorage.contents, hregion]

/-- `setBytes` from a source of the program's own. -/
theorem setBytes_spec (h : Owned m elems) (he : elems o = some e) (source : Option (ℕ → UInt8))
    (size atIndex : Size) :
    ∃ m' e' n, e.setBytes a m (.source source) size atIndex = (m', e', n)
      ∧ Updates m m' elems o e' ∧ m'.faults = m.faults
      ∧ (e'.contents m', n) = setBlock (grants a m e) (e.contents m) source size atIndex := by
  cases source with
  | none => exact ⟨m, e, 0, rfl, h.updates_self he, rfl, rfl⟩
  | some data =>
      rw [ByteBufferStorage.setBytes]
      by_cases hzero : size = 0
      · exact ⟨m, e, 0, by simp [hzero], h.updates_self he, rfl, by simp [setBlock, hzero]⟩
      by_cases hover : atIndex > sizeMax - size
      · exact ⟨m, e, 0, by simp [hover], h.updates_self he, rfl, by simp [setBlock, hover]⟩
      have hsource : ¬ ((ConstBytes.source (some data)).isNull = true ∨ size = 0) := fun h =>
        h.elim (fun hnull => absurd hnull (by simp [ConstBytes.source, ConstBytes.isNull])) hzero
      obtain ⟨m₁, e₁, ok, heq, hupdates, hfaults, hblock⟩ :=
        reserve_spec h he (atIndex + size) (a := a)
      have hset : setBlock (grants a m e) (e.contents m) (some data) size atIndex
          = if ok then ((e₁.contents m₁).map fun cells =>
              splice cells atIndex.toNat (sourceBytes data size), size)
            else (e₁.contents m₁, 0) := by
        rw [setBlock, if_neg (not_or.mpr ⟨hzero, hover⟩), ← hblock]
        cases ok with
        | false => rfl
        | true => rfl
      rw [if_neg hsource, if_neg hover, heq, hset]
      cases ok with
      | false => exact ⟨m₁, e₁, 0, rfl, hupdates, hfaults, rfl⟩
      | true =>
          obtain ⟨cells, hcontents, hroom⟩ := reserveBlock_room hblock.symm
          obtain ⟨p, hp, hcells⟩ := Option.bind_eq_some_iff.mp hcontents
          have hread : m₁.readCells (.source (some data)) size.toNat
              = (sourceBytes data size, true) := rfl
          have hfits : atIndex.toNat + (sourceBytes data size).length ≤ cells.length := by
            rw [length_sourceBytes]
            have hlt := over_iff.not.mp hover
            rw [BitVec.toNat_add_of_lt (by omega)] at hroom
            exact hroom
          obtain ⟨hup, hf, hc⟩ := hupdates.copybytes hp hcells hread _ hfits
          refine ⟨_, e₁, size, by simp only [hp], hup, by simp [hf, hfaults], ?_⟩
          rw [hc, hcontents]
          rfl

/-- `setBytes` of a part of the storage's own block at its front. -/
theorem setBytes_own (h : Owned m elems) (he : elems o = some e) {p : Address}
    (hp : e.bytes = some p) {cells : Region} (hcontents : e.contents m = some cells)
    {size : Size} (hsize : size ≠ 0) {offset : ℕ} (hroom : offset + size.toNat ≤ cells.length) :
    ∃ m', e.setBytes a m (.block e.bytes offset) size 0 = (m', e, size)
      ∧ Updates m m' elems o e ∧ m'.faults = m.faults
      ∧ e.contents m' = some (splice cells 0 (slice cells offset size.toNat)) := by
  have hcells : m.regions p = some cells := by
    simpa [ByteBufferStorage.contents, hp] using hcontents
  obtain ⟨hcapacity, -⟩ := h.capacity_eq he
  rw [hcontents] at hcapacity
  have hfits : e.bytes.isSome ∧ 0 + size ≤ e.capacity := by
    refine ⟨by simp [hp], BitVec.le_def.mpr ?_⟩
    rw [hcapacity, zero_add]
    exact (Nat.le_add_left _ _).trans hroom
  have hreserve : e.reserve a m (0 + size) = (m, e, true) := by
    rw [ByteBufferStorage.reserve, if_pos hfits]
  have hsource : ¬ ((ConstBytes.block e.bytes offset).isNull = true ∨ size = 0) := fun h =>
    h.elim (fun hnull => absurd hnull (by simp [hp, ConstBytes.isNull])) hsize
  have hover : ¬ (0 : Size) > sizeMax - size := by
    rw [over_iff]
    have := size.isLt
    simpa using this
  have hread : m.readCells (.block e.bytes offset) size.toNat
      = (slice cells offset size.toNat, true) := by
    simp [Memory.readCells, hp, hcells, hroom]
  have hlen := length_slice hroom
  obtain ⟨hup, hf, hc⟩ := (h.updates_self he).copybytes hp hcells hread 0
    (by rw [hlen]; omega)
  refine ⟨_, ?_, hup, by simp [hf], hc⟩
  rw [ByteBufferStorage.setBytes, if_neg hsource, if_neg hover, hreserve]
  simp only [hp]
  rfl

/-- The same on a storage that has no block: if it gets one, nothing sensible is in it. -/
theorem setBytes_own_null (h : Owned m elems) (he : elems o = some e) (hp : e.bytes = none)
    {size : Size} (hsize : size ≠ 0) {offset : ℕ} (hoffset : offset ≠ 0) :
    ∃ m' e' n, e.setBytes a m (.block e.bytes offset) size 0 = (m', e', n)
      ∧ Updates m m' elems o e'
      ∧ m'.faults = m.faults ++ (if grants a m e then [.source] else [])
      ∧ e'.contents m' = (if grants a m e then
          some (splice (grown none size) 0 (List.replicate size.toNat none)) else none) := by
  have hsource : ¬ ((ConstBytes.block e.bytes offset).isNull = true ∨ size = 0) := fun h =>
    h.elim (fun hnull => absurd hnull (by simp [hp, ConstBytes.isNull, hoffset])) hsize
  have hover : ¬ (0 : Size) > sizeMax - size := by
    rw [over_iff]
    have := size.isLt
    simpa using this
  have hnone : e.contents m = none := by simp [ByteBufferStorage.contents, hp]
  obtain ⟨m₁, e₁, ok, heq, hupdates, hfaults, hblock⟩ := reserve_spec h he (0 + size) (a := a)
  rw [ByteBufferStorage.setBytes, if_neg hsource, if_neg hover, heq]
  rw [hnone, reserveBlock, if_neg (by simp)] at hblock
  cases hgrants : grants a m e with
  | false =>
      simp only [hgrants, Bool.false_eq_true, if_false, Prod.mk.injEq] at hblock ⊢
      obtain ⟨hc, rfl⟩ := hblock
      exact ⟨m₁, e₁, 0, rfl, hupdates, by simp [hfaults], hc⟩
  | true =>
      simp only [hgrants, if_true, Prod.mk.injEq] at hblock ⊢
      obtain ⟨hcontents, rfl⟩ := hblock
      obtain ⟨q, hq, hcells⟩ := Option.bind_eq_some_iff.mp hcontents
      rw [zero_add] at hcells
      have hread : m₁.readCells (.block e.bytes offset) size.toNat
          = (List.replicate size.toNat none, false) := by
        simp [Memory.readCells, hp]
      have hroom : 0 + (List.replicate size.toNat (none : Option UInt8)).length
          ≤ (grown none size).length := by
        rw [(length_grown (by simp)).1, List.length_replicate, Nat.zero_add]
        exact BitVec.le_def.mp (le_nextPowerOf2ClampedToMax size)
      obtain ⟨hup, hf, hc⟩ := hupdates.copybytes hq hcells hread 0 hroom
      exact ⟨_, e₁, size, by simp only [hq]; rfl, hup, by simp [hf, hfaults], hc⟩

theorem toNat_minimumOf (x y : Size) : (minimumOf x y).toNat = min x.toNat y.toNat := by
  unfold minimumOf
  split
  · rename_i hlt
    rw [BitVec.lt_def] at hlt
    omega
  · rename_i hlt
    rw [BitVec.lt_def] at hlt
    omega

/-- A count that is clamped to what is left of `capacity` stays within it. -/
theorem clamped_le {fromIndex capacity : Size} (size : Size)
    (h : fromIndex.toNat ≤ capacity.toNat) :
    fromIndex.toNat + (minimumOf size (capacity - fromIndex)).toNat ≤ capacity.toNat := by
  have hsub : (capacity - fromIndex).toNat = capacity.toNat - fromIndex.toNat :=
    BitVec.toNat_sub_of_le (BitVec.le_def.mpr h)
  rw [toNat_minimumOf, hsub]
  omega

/-- What `copyBytesTo` reads of a block. -/
def copyBlock (c : Option Region) (destination : Bool) (size fromIndex : Size) : Size × Region :=
  match c with
  | none => (0, [])
  | some cells =>
      if destination = false ∨ cells.length ≤ fromIndex.toNat then (0, [])
      else
        let count := minimumOf size (BitVec.ofNat 64 cells.length - fromIndex)
        (count, slice cells fromIndex.toNat count.toNat)

omit [DecidableEq Ω] in
/-- It never reads outside of the block. -/
theorem copyBytesTo_spec (h : Owned m elems) (he : elems o = some e) (destination : Bool)
    (size fromIndex : Size) :
    e.copyBytesTo m destination size fromIndex
      = (m, copyBlock (e.contents m) destination size fromIndex) := by
  obtain ⟨hcapacity, -⟩ := h.capacity_eq he
  cases hp : e.bytes with
  | none => simp [ByteBufferStorage.copyBytesTo, ByteBufferStorage.contents, hp, copyBlock]
  | some p =>
      obtain ⟨cells, hcells, hcontents, hlen, -⟩ := h.contents he hp
      have hofNat : BitVec.ofNat 64 cells.length = e.capacity := by
        rw [hlen, BitVec.ofNat_toNat, BitVec.setWidth_eq]
      rw [ByteBufferStorage.copyBytesTo, hp, hcontents, copyBlock, hofNat]
      have hiff : fromIndex ≥ e.capacity ↔ cells.length ≤ fromIndex.toNat := by
        rw [hlen]
        exact BitVec.le_def
      simp only [hiff]
      split
      · rfl
      · rename_i hin
        have hfrom : fromIndex.toNat < cells.length := by
          rw [not_or] at hin
          omega
        have hroom : fromIndex.toNat + (minimumOf size (e.capacity - fromIndex)).toNat
            ≤ cells.length := by
          rw [hlen]
          exact clamped_le size (by omega)
        split
        · rename_i hzero
          rw [hzero]
          rfl
        · simp [Memory.readCells, hcells, hroom, Memory.assert]

end NPFoundation
