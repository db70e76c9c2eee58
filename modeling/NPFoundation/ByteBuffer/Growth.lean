import NPFoundation.ByteBuffer.Overlap
import NPFoundation.ByteBuffer.Queues
import NPFoundation.ByteBuffer.Refusals

/-!
# How large a block gets

A block grows only when a write does not fit, to what that write needs, rounded up. So its
capacity could depend on which writes came when. It does not: a lineage remembers what was
asked for when its storage was made, and the furthest its writer has been, and the capacity
is those two, rounded up. A copy takes the lineage along, and from then on has its own.

The lineages are kept beside the machine. They never see a block.
-/

namespace NPFoundation

open Slice CopyOnWrite CopyOnWrite.Store Transition

/-- The larger of two sizes. -/
def larger (lhs rhs : Size) : Size := if lhs < rhs then rhs else lhs

theorem toNat_larger (x y : Size) : (larger x y).toNat = max x.toNat y.toNat := by
  unfold larger
  split
  · rename_i hlt
    rw [BitVec.lt_def] at hlt
    omega
  · rename_i hlt
    rw [BitVec.lt_def] at hlt
    omega

/-- What is remembered of a storage: the capacity it was made with, and the largest
`writerIndex` since. -/
structure Lineage where
  requested : Size
  highest : Size
  deriving DecidableEq, Repr

namespace Lineage

/-- The writer is at `writerIndex`. -/
def reach (l : Lineage) (writerIndex : Size) : Lineage :=
  { l with highest := larger l.highest writerIndex }

/-- The capacity of the block. -/
def capacity (l : Lineage) : Size := nextPowerOf2ClampedToMax (larger l.requested l.highest)

variable {l : Lineage} {w : Size}

theorem toNat_capacity (l : Lineage) :
    l.capacity.toNat = roundUp 64 (max l.requested.toNat l.highest.toNat) := by
  rw [capacity, toNat_rounded, toNat_larger]

/-- Where the writer has been before is nothing new. -/
theorem reach_of_le (h : w.toNat ≤ l.highest.toNat) : l.reach w = l := by
  have hlarger : larger l.highest w = l.highest := by
    refine BitVec.eq_of_toNat_eq ?_
    rw [toNat_larger]
    omega
  rw [reach, hlarger]

/-- Where it is on the way does not matter. -/
theorem reach_reach {w' : Size} (h : w.toNat ≤ w'.toNat) : (l.reach w).reach w' = l.reach w' := by
  have hlarger : larger (larger l.highest w) w' = larger l.highest w' := by
    refine BitVec.eq_of_toNat_eq ?_
    rw [toNat_larger, toNat_larger, toNat_larger]
    omega
  simp only [reach, hlarger]

theorem le_capacity (l : Lineage) : max l.requested.toNat l.highest.toNat ≤ l.capacity.toNat := by
  rw [toNat_capacity]
  have hrequested := l.requested.isLt
  have hhighest := l.highest.isLt
  exact le_roundUp (by omega)

/-- A writer that stays within the block changes nothing: what is below a rounded capacity
rounds to the same. -/
theorem capacity_reach_of_le (h : w.toNat ≤ l.capacity.toNat) :
    (l.reach w).capacity = l.capacity := by
  refine BitVec.eq_of_toNat_eq (Nat.le_antisymm ?_ ?_)
  · -- both are below a power of two (or `SIZE_MAX`), which rounds to itself
    have hle := l.le_capacity
    rw [toNat_capacity] at h hle ⊢
    rw [toNat_capacity]
    refine roundUp_le_of_le (by decide) ?_
    dsimp only [reach]
    rw [toNat_larger]
    omega
  · rw [toNat_capacity, toNat_capacity]
    dsimp only [reach]
    rw [toNat_larger]
    exact roundUp_mono 64 (by omega)

/-- One that goes beyond it decides alone. -/
theorem capacity_reach_of_lt (h : l.capacity.toNat < w.toNat) :
    (l.reach w).capacity = nextPowerOf2ClampedToMax w := by
  have hle := l.le_capacity
  have hlarger : larger l.requested (larger l.highest w) = w := by
    refine BitVec.eq_of_toNat_eq ?_
    rw [toNat_larger, toNat_larger]
    omega
  rw [capacity]
  dsimp only [reach]
  rw [hlarger]

/-- The lineage of a view: it has a block of the capacity that the lineage says, and the writer
has not been further than that. -/
structure Fits (l : Lineage) (v : View) : Prop where
  room : ∃ cells, v.block = some cells ∧ cells.length = l.capacity.toNat
  writer_le : v.writerIndex.toNat ≤ l.highest.toNat

theorem fits_fresh (capacity : Size) : Fits ⟨capacity, 0⟩ (.fresh true capacity) := by
  have hlarger : larger capacity 0 = capacity := by
    refine BitVec.eq_of_toNat_eq ?_
    rw [toNat_larger]
    exact Nat.max_zero _
  refine ⟨⟨_, rfl, ?_⟩, Nat.le_refl _⟩
  rw [List.length_replicate, Lineage.capacity, hlarger]

end Lineage

/-! ## Calls -/

namespace View

variable {ι : Type} {v : View} {answers : Answers} {op : BufferOp ι} {cells : Region}

theorem act_write {source : Option (ℕ → UInt8)} {size : Size}
    (hop : writeOf op = some (source, size)) : v.act answers op = v.writeBytes answers source size := by
  cases op with
  | writeBytes i source' size' =>
      obtain ⟨rfl, rfl⟩ := Prod.mk.inj (Option.some.inj hop)
      rfl
  | writeString i string =>
      obtain ⟨rfl, rfl⟩ := Prod.mk.inj (Option.some.inj hop)
      rfl
  | writeCString i cString =>
      cases cString with
      | none => exact absurd hop (by simp [writeOf])
      | some cString =>
          obtain ⟨rfl, rfl⟩ := Prod.mk.inj (Option.some.inj hop)
          rfl
  | _ => exact absurd hop (by simp [writeOf])

theorem unique_kept (hlost : answers.lost = false) : v.unique answers.lost = v := by
  rw [View.unique, if_neg (by rw [hlost]; simp)]

theorem discardReadBytes_room (hv : v.Valid) (hlost : answers.lost = false)
    (hblock : v.block = some cells) :
    ∃ cells', (v.discardReadBytes answers).view.block = some cells' ∧ cells'.length = cells.length
      ∧ (v.discardReadBytes answers).view.writerIndex.toNat ≤ v.writerIndex.toNat := by
  have hle := hv.toNat_readable
  unfold View.discardReadBytes
  split
  · exact ⟨cells, hblock, rfl, Nat.le_refl _⟩
  split
  · exact ⟨cells, hblock, rfl, Nat.zero_le _⟩
  · rw [unique_kept hlost, hblock]
    have hroom := hv.readable_le hblock
    refine ⟨_, rfl, length_splice ?_, by dsimp only; omega⟩
    rw [length_slice hroom]
    omega

/-- A call that is no write leaves the block as long as it is, and the writer does not go on. -/
theorem act_room (hv : v.Valid) (hlost : answers.lost = false) (hop : writeOf op = none)
    (hblock : v.block = some cells) :
    ∃ cells', (v.act answers op).view.block = some cells' ∧ cells'.length = cells.length
      ∧ (v.act answers op).view.writerIndex.toNat ≤ v.writerIndex.toNat := by
  have hsame : ∃ cells', v.block = some cells' ∧ cells'.length = cells.length
      ∧ v.writerIndex.toNat ≤ v.writerIndex.toNat := ⟨cells, hblock, rfl, Nat.le_refl _⟩
  cases op with
  | writeBytes i source size => exact absurd hop (by simp [writeOf])
  | writeString i string => exact absurd hop (by simp [writeOf])
  | writeCString i cString =>
      cases cString with
      | none => exact hsame
      | some cString => exact absurd hop (by simp [writeOf])
  | readBytes i destination size =>
      simp only [View.act]
      unfold View.readBytes
      split
      · exact hsame
      · exact hsame
  | readString i size =>
      simp only [View.act]
      unfold View.readString
      rw [hblock]
      exact ⟨cells, hblock, rfl, Nat.le_refl _⟩
  | skipBytes i size => exact hsame
  | discardReadBytes i => exact discardReadBytes_room hv hlost hblock
  | clear i => exact ⟨cells, hblock, rfl, Nat.zero_le _⟩
  | mutableBytes i =>
      simp only [View.act]
      unfold View.mutableBytes
      rw [unique_kept hlost]
      exact hsame
  | store i k value =>
      simp only [View.act]
      unfold View.store
      rw [unique_kept hlost, hblock]
      dsimp only
      split
      · rename_i hk
        exact ⟨_, rfl, length_splice hk, Nat.le_refl _⟩
      · exact hsame
  | _ => exact hsame

/-- A write that goes through: the block is as long as it was, or as what the write needs rounds
up to. -/
theorem writeBytes_room {source : Option (ℕ → UInt8)} {size : Size} (hlost : answers.lost = false)
    (hblock : v.block = some cells)
    (haccepts : accepts answers.grows (some cells) source size v.writerIndex) :
    ∃ cells', (v.writeBytes answers source size).view.block = some cells'
      ∧ cells'.length = (if v.writerIndex.toNat + size.toNat ≤ cells.length then cells.length
          else (nextPowerOf2ClampedToMax (v.writerIndex + size)).toNat)
      ∧ (v.writeBytes answers source size).view.writerIndex = v.writerIndex + size := by
  obtain ⟨hsource, hsize, hend, hroom⟩ := haccepts
  obtain ⟨data, rfl⟩ := Option.isSome_iff_exists.mp hsource
  have hsum : (v.writerIndex + size).toNat = v.writerIndex.toNat + size.toNat :=
    BitVec.toNat_add_of_lt hend
  have hover : ¬ v.writerIndex > sizeMax - size := by
    rw [over_iff]
    omega
  unfold View.writeBytes
  rw [unique_kept hlost, hblock, setBlock, if_neg (not_or.mpr ⟨hsize, hover⟩)]
  by_cases hfits : v.writerIndex.toNat + size.toNat ≤ cells.length
  · -- `reserve` has nothing to do
    have hreserve : reserveBlock answers.grows (some cells) (v.writerIndex + size)
        = (some cells, true) := by
      rw [reserveBlock, if_pos ⟨rfl, by rw [hsum]; exact hfits⟩]
    rw [hreserve, if_pos hfits]
    exact ⟨_, rfl, length_splice (by rw [length_sourceBytes]; exact hfits), rfl⟩
  · -- it was accepted all the same, so the longer block was granted
    have hgrows : answers.grows = true := hroom.resolve_left fun h => hfits h.2
    have hno : ¬ ((some cells).isSome ∧ (v.writerIndex + size).toNat ≤ roomOf (some cells)) := by
      rw [hsum]
      exact fun h => hfits h.2
    have hreserve : reserveBlock answers.grows (some cells) (v.writerIndex + size)
        = (some (grown (some cells) (v.writerIndex + size)), true) := by
      rw [reserveBlock, if_neg hno, if_pos hgrows]
    have hlength := (length_grown hno).1
    have hle := BitVec.le_def.mp (le_nextPowerOf2ClampedToMax (v.writerIndex + size))
    rw [hreserve, if_neg hfits]
    refine ⟨_, rfl, (length_splice ?_).trans hlength, rfl⟩
    rw [length_sourceBytes, hlength, ← hsum]
    exact hle

end View

namespace Lineage

variable {ι : Type} {l : Lineage} {v : View} {answers : Answers} {op : BufferOp ι}

/-- A call that is no write is not seen in the lineage. -/
theorem Fits.quiet (h : l.Fits v) (hv : v.Valid) (hlost : answers.lost = false)
    (hop : View.writeOf op = none) :
    l.reach (v.act answers op).view.writerIndex = l ∧ l.Fits (v.act answers op).view := by
  obtain ⟨cells, hblock, hlength⟩ := h.room
  obtain ⟨cells', hblock', hsame, hwriter⟩ := View.act_room hv hlost hop hblock
  have hle := hwriter.trans h.writer_le
  exact ⟨reach_of_le hle, ⟨cells', hblock', hsame.trans hlength⟩, hle⟩

/-- One that is, and is accepted, is seen by how far it goes. -/
theorem Fits.written (h : l.Fits v) (hlost : answers.lost = false) {source : Option (ℕ → UInt8)}
    {size : Size} (haccepts : accepts answers.grows v.block source size v.writerIndex) :
    (l.reach (v.writerIndex + size)).Fits (v.writeBytes answers source size).view
      ∧ (v.writeBytes answers source size).view.writerIndex = v.writerIndex + size := by
  obtain ⟨cells, hblock, hlength⟩ := h.room
  rw [hblock] at haccepts
  obtain ⟨cells', hblock', hlength', hwriter⟩ := View.writeBytes_room hlost hblock haccepts
  have hsum : (v.writerIndex + size).toNat = v.writerIndex.toNat + size.toNat :=
    BitVec.toNat_add_of_lt haccepts.2.2.1
  refine ⟨⟨⟨cells', hblock', ?_⟩, ?_⟩, hwriter⟩
  · rw [hlength', hlength, ← hsum]
    split
    · rename_i hfits
      rw [capacity_reach_of_le hfits]
    · rename_i hfits
      rw [capacity_reach_of_lt (Nat.not_le.mp hfits)]
  · rw [hwriter]
    dsimp only [reach]
    rw [toNat_larger]
    exact Nat.le_max_right _ _

/-- **One call.** -/
theorem Fits.act (h : l.Fits v) (hv : v.Valid) (hlost : answers.lost = false) (op : BufferOp ι) :
    (l.reach (v.act answers op).view.writerIndex).Fits (v.act answers op).view := by
  cases hop : View.writeOf op with
  | none =>
      obtain ⟨hreach, hfits⟩ := h.quiet hv hlost hop
      rw [hreach]
      exact hfits
  | some write =>
      obtain ⟨source, size⟩ := write
      rw [View.act_write hop]
      by_cases haccepts : accepts answers.grows v.block source size v.writerIndex
      · obtain ⟨hfits, hwriter⟩ := h.written hlost haccepts
        rw [hwriter]
        exact hfits
      · -- nothing was written
        have hrefused : ¬ accepts answers.grows (v.unique answers.lost).block source size
            v.writerIndex := by
          rw [View.unique_kept hlost]
          exact haccepts
        rw [View.writeBytes_refused hrefused, View.unique_kept hlost]
        dsimp only
        rw [reach_of_le h.writer_le]
        exact h

end Lineage

/-! ## The lineages of a program -/

section

variable {ι κ : Type}

/-- Where the writer of a buffer is. -/
def Machine.writerIndex (s : Machine ι κ) (i : ι) : Size :=
  ((s.buffers i).map (·.writerIndex)).getD 0

variable [DecidableEq ι] [DecidableEq κ]

/-- What an operation does to the lineages, when the machine is in state `s` after it: a new
buffer has a new lineage, a copy takes the other's along, and a call is seen by where it leaves
the writer. -/
def lineageStep (s : Machine ι κ) (lineages : ι → Variable Lineage) :
    BufferOp ι → Option (ι → Variable Lineage)
  | .construct i capacity => modelStep lineages (.construct i ⟨capacity, 0⟩)
  | .copyConstruct i j => modelStep lineages (.copyConstruct i j)
  | .moveConstruct i j => modelStep lineages (.moveConstruct i j)
  | .copyAssign i j => modelStep lineages (.copyAssign i j)
  | .moveAssign i j => modelStep lineages (.moveAssign i j)
  | .destruct i => modelStep lineages (.destruct i)
  | op => modelStep lineages (.mutate op.target fun l => l.reach (s.writerIndex op.target))

/-- The machine does an operation, and the lineages are kept up to date. -/
def tracedStep (a : ByteBufferAllocator) (p : Machine ι κ × (ι → Variable Lineage))
    (op : BufferOp ι) : Option (Machine ι κ × (ι → Variable Lineage)) :=
  (p.1.bufferStep a op).bind fun r => (lineageStep r.1 p.2 op).map fun lineages => (r.1, lineages)

/-- Each lineage is that of the buffer in its variable. -/
def Traced (s : Machine ι κ) (lineages : ι → Variable Lineage) : Prop :=
  ∀ i, Variable.Related Lineage.Fits (lineages i) (s.view i)

variable [Fintype ι] {a : ByteBufferAllocator} {s s' : Machine ι κ}
  {lineages lineages' : ι → Variable Lineage} {op : BufferOp ι} {result : Result}

omit [DecidableEq ι] [DecidableEq κ] [Fintype ι] in
theorem writerIndex_of_view {i : ι} {view : View} (h : s.view i = .holds view) :
    s.writerIndex i = view.writerIndex := by
  obtain ⟨buffer, b, e, hi, -, -, rfl⟩ := view_holds h
  rw [Machine.writerIndex, hi]
  rfl

omit [DecidableEq ι] [DecidableEq κ] [Fintype ι] in
/-- A buffer that was not moved from has a lineage. -/
theorem Traced.exists_lineage (htraced : Traced s lineages) {i : ι} {view : View}
    (h : s.view i = .holds view) : ∃ l, lineages i = .holds l ∧ l.Fits view := by
  have hrelated := htraced i
  rw [h] at hrelated
  exact hrelated.exists_holds

omit [DecidableEq ι] [DecidableEq κ] [Fintype ι] in
/-- And a lineage a buffer. -/
theorem Traced.exists_view (htraced : Traced s lineages) {i : ι} {l : Lineage}
    (h : lineages i = .holds l) : ∃ view, s.view i = .holds view ∧ l.Fits view := by
  have hrelated := htraced i
  rw [h] at hrelated
  generalize s.view i = x at hrelated
  cases hrelated with
  | holds hfits => exact ⟨_, rfl, hfits⟩

omit [DecidableEq κ] in
/-- What the private views do, the lineages follow. -/
theorem lineageStep_of_private (ha : ∀ n, a.allocates n = true) (hs : s.Good)
    (htraced : Traced s lineages) {faults : List Fault}
    (hstep : privateStep (s.answers a op.target) s.view op = some (s'.view, result, faults)) :
    ∃ lineages', lineageStep s' lineages op = some lineages' ∧ Traced s' lineages' := by
  -- what is done to a variable is `modelStep` on both sides
  have hstructural : ∀ {op₁ : Op ι Lineage} {op₂ : Op ι View}, Op.Related Lineage.Fits op₁ op₂ →
      structural s.view op₂ = some (s'.view, result, faults) →
      ∃ lineages', modelStep lineages op₁ = some lineages' ∧ Traced s' lineages' := by
    intro op₁ op₂ hop h
    obtain ⟨v', hv', heq⟩ := Option.map_eq_some_iff.mp h
    obtain ⟨rfl, -⟩ := Prod.mk.inj heq
    exact modelStep_related htraced hop hv'
  -- of a call the lineage sees only where the writer has come to
  have hcall : ∀ {i : ι}, op.target = i →
      onView s.view i (fun view => view.act (s.answers a i) op) = some (s'.view, result, faults) →
      ∃ lineages', modelStep lineages (.mutate i fun l => l.reach (s'.writerIndex i))
        = some lineages' ∧ Traced s' lineages' := by
    intro i hi h
    unfold onView at h
    split at h
    · rename_i view hview
      obtain ⟨hviews, -⟩ := Prod.mk.inj (Option.some.inj h)
      obtain ⟨l, hl, hfits⟩ := htraced.exists_lineage hview
      have hafter : s'.view i = .holds (view.act (s.answers a i) op).view := by
        rw [← hviews, Function.update_self]
      refine ⟨Function.update lineages i (.holds (l.reach (s'.writerIndex i))), ?_, ?_⟩
      · exact (ModelStep.mutate _ hl).eq_some
      · rw [writerIndex_of_view hafter, Traced, ← hviews]
        exact related_update htraced i
          (.holds (hfits.act (hs.valid i view hview) (answers_kept ha s i) op))
    · exact absurd h (by simp)
  cases op with
  | construct i capacity =>
      have habsent : s.view i = .absent := by
        obtain ⟨v', hv', -⟩ := Option.map_eq_some_iff.mp hstep
        cases modelStep_cases hv' with
        | construct hi => exact hi
      have hgrows : (s.answers a i).grows = true := by
        rw [Machine.answers, viewOf_absent habsent]
        exact ha _
      refine hstructural (.construct i ?_) hstep
      rw [show BufferOp.target (.construct i capacity) = i from rfl, hgrows]
      exact Lineage.fits_fresh capacity
  | copyConstruct i j => exact hstructural (.copyConstruct i j) hstep
  | moveConstruct i j => exact hstructural (.moveConstruct i j) hstep
  | copyAssign i j => exact hstructural (.copyAssign i j) hstep
  | moveAssign i j => exact hstructural (.moveAssign i j) hstep
  | destruct i => exact hstructural (.destruct i) hstep
  | _ => exact hcall rfl hstep

/-- **One step.** The lineages go along with the machine. -/
theorem tracedStep_traced (ha : ∀ n, a.allocates n = true) (hs : s.Good)
    (htraced : Traced s lineages) {v' : ι → Variable View} {faults : List Fault}
    (hstep : privateStep (s.answers a op.target) s.view op = some (v', result, faults))
    (hfew : FewAfter a s op) :
    ∃ s' lineages', s.bufferStep a op = some (s', result)
      ∧ tracedStep a (s, lineages) op = some (s', lineages') ∧ s'.Good ∧ s'.view = v'
      ∧ Traced s' lineages' := by
  obtain ⟨s', hs', hgood, rfl, -, -⟩ := bufferStep_refines hs hstep hfew
  obtain ⟨lineages', hlineages, htraced'⟩ := lineageStep_of_private ha hs htraced hstep
  refine ⟨s', lineages', hs', ?_, hgood, rfl, htraced'⟩
  rw [tracedStep, hs', Option.bind_some, hlineages]
  rfl

/-- A legal program runs, and in the end each lineage is that of its buffer. -/
theorem run_traced (ha : ∀ n, a.allocates n = true) {st st' : ι → Variable Unit} (hs : s.Good)
    (hstatus : NPFoundation.Fits s.view st) (htraced : Traced s lineages) {ops : List (BufferOp ι)}
    (h : run bufferStatus st ops = some st') (hfew : FewHandlesAlong a s (ops.map .buffer)) :
    ∃ s' lineages', run (tracedStep a) (s, lineages) ops = some (s', lineages') ∧ s'.Good
      ∧ Traced s' lineages' := by
  induction ops generalizing s lineages st with
  | nil => exact ⟨s, lineages, rfl, hs, htraced⟩
  | cons op ops ih =>
      obtain ⟨st₁, hst₁, hrest⟩ := run_cons_some.mp h
      -- what is legal the views do, and what they do the machine does
      obtain ⟨v₁, result, faults, hstep, hfits⟩ :=
        privateStep_of_status (s.answers a op.target) hstatus hst₁
      obtain ⟨s₁, lineages₁, hs₁, htrace, hgood, rfl, htraced₁⟩ :=
        tracedStep_traced ha hs htraced hstep fun s₁ result hs₁ =>
          hfew.1 s₁ (by rw [Machine.next, Machine.step, hs₁]; rfl)
      have hnext : s.next a (.buffer op) = some s₁ := by
        rw [Machine.next, Machine.step, hs₁]
        rfl
      obtain ⟨s₂, lineages₂, hrun, hgood₂, htraced₂⟩ :=
        ih hgood hfits htraced₁ hrest ((along_cons hnext).mp hfew).2
      exact ⟨s₂, lineages₂, run_cons_some.mpr ⟨_, htrace, hrun⟩, hgood₂, htraced₂⟩

/-! ## What the lineages say -/

omit [DecidableEq ι] [DecidableEq κ] in
/-- A buffer that was not moved from shows something. -/
theorem Machine.Good.view_of_buffer (hs : s.Good) {i : ι} {buffer : ByteBuffer}
    (hi : s.buffers i = some buffer) (hb : buffer.storage ≠ none) :
    ∃ b e, buffer.storage = some b ∧ s.store.elements b = some e
      ∧ s.view i = .holds ⟨buffer.readerIndex, buffer.writerIndex, e.contents s.memory⟩ := by
  obtain ⟨b, hb⟩ := Option.ne_none_iff_exists'.mp hb
  obtain ⟨e, he⟩ := hs.counted.exists_element
    (handlesOn_pos (i := i) (by rw [Machine.handles, hi, Option.map_some, hb]))
  refine ⟨b, e, hb, he, ?_⟩
  rw [Machine.view, hi]
  exact viewOf_block hb he

omit [DecidableEq ι] [DecidableEq κ] in
/-- A buffer that was not moved from has the capacity that its lineage says. -/
theorem Traced.capacity (htraced : Traced s lineages) (hs : s.Good) {i : ι} {buffer : ByteBuffer}
    (hi : s.buffers i = some buffer) (hb : buffer.storage ≠ none) :
    ∃ l, lineages i = .holds l ∧ buffer.capacity s.store = some l.capacity := by
  obtain ⟨b, e, hb, he, hview⟩ := hs.view_of_buffer hi hb
  obtain ⟨l, hl, hfits⟩ := htraced.exists_lineage hview
  obtain ⟨cells, hblock, hlength⟩ := hfits.room
  have howner : owners s.store s.storages (.inl b) = some e := he
  have hcapacity := (hs.owned.capacity_eq howner).1
  refine ⟨l, hl, ?_⟩
  rw [ByteBuffer.capacity, ByteBuffer.read, hb, show s.store.read (some b) = some e from he,
    Option.map_some, Option.some.injEq]
  refine BitVec.eq_of_toNat_eq ?_
  rw [hcapacity, show e.contents s.memory = some cells from hblock]
  exact hlength

omit [DecidableEq κ] in
/-- A call makes no handles. -/
theorem Does.few {i : ι} {f : ByteBuffer → Option (Storages × ByteBuffer × Result)}
    {outcome : Outcome} (h : Does s i f outcome) (hop : s.bufferStep a op = s.onBuffer i f) :
    FewAfter a s op := by
  intro s' result hs' b
  obtain ⟨s₁, hs₁, hfollows⟩ := h
  rw [hop, hs₁] at hs'
  obtain rfl := (Prod.mk.inj (Option.some.inj hs')).1
  cases hb : s₁.store.blocks b with
  | none =>
      rw [hfollows.counted.dead hb]
      decide
  | some block =>
      rw [← (hfollows.counted.live hb).1]
      exact block.retainCount.toNat_lt

/-- Neither made, copied, moved nor destroyed: a call on the buffer in a variable. -/
def BufferOp.IsCall : BufferOp ι → Prop
  | .construct _ _ | .copyConstruct _ _ | .moveConstruct _ _ => False
  | .copyAssign _ _ | .moveAssign _ _ | .destruct _ => False
  | _ => True

omit [DecidableEq κ] [Fintype ι] in
theorem lineageStep_call (hcall : op.IsCall) (s' : Machine ι κ) : lineageStep s' lineages op
    = modelStep lineages (.mutate op.target fun l => l.reach (s'.writerIndex op.target)) := by
  cases op <;> first | rfl | exact absurd hcall (by simp [BufferOp.IsCall])

omit [Fintype ι] in
/-- A call is one on the view. -/
theorem privateStep_call (answers : Answers) (hcall : op.IsCall) {v : ι → Variable View}
    {view : View} (hview : v op.target = .holds view) :
    privateStep answers v op
      = some (Function.update v op.target (.holds (view.act answers op).view),
          (view.act answers op).result, (view.act answers op).faults) := by
  have hstep : privateStep answers v op = onView v op.target fun view => view.act answers op := by
    cases op <;> first | rfl | exact absurd hcall (by simp [BufferOp.IsCall])
  rw [hstep, onView, hview]

theorem fewAfter_call (hs : s.Good) {view : View} (hview : s.view op.target = .holds view)
    (hcall : op.IsCall) : FewAfter a s op := by
  cases op with
  | writeBytes i source size => exact (writeBytes_does hs hview source size).few rfl
  | writeString i string => exact (writeBytes_does hs hview string.source string.size).few rfl
  | writeCString i cString =>
      cases cString with
      | none => exact (same_does hs hview fun _ _ => rfl).few rfl
      | some cString => exact (writeBytes_does hs hview cString.source cString.strlen).few rfl
  | readBytes i destination size => exact (readBytes_does hs hview destination size).few rfl
  | readString i size => exact (readString_does hs hview size).few rfl
  | skipBytes i size => exact (skipBytes_does hs hview size).few rfl
  | discardReadBytes i => exact (discardReadBytes_does hs hview).few rfl
  | clear i => exact (clear_does hs hview).few rfl
  | mutableBytes i => exact (mutableBytes_does hs hview).few rfl
  | store i k value => exact (store_does hs hview k value).few rfl
  | _ => exact absurd hcall (by simp [BufferOp.IsCall])

/-- A call changes the view that it is made on, and the lineage sees where its writer is. -/
theorem tracedStep_call (ha : ∀ n, a.allocates n = true) (hs : s.Good)
    (htraced : Traced s lineages) (hcall : op.IsCall) {view : View}
    (hview : s.view op.target = .holds view) {l : Lineage} (hl : lineages op.target = .holds l) :
    ∃ s' lineages', s.bufferStep a op = some (s', (view.act (s.answers a op.target) op).result)
      ∧ tracedStep a (s, lineages) op = some (s', lineages') ∧ s'.Good ∧ Traced s' lineages'
      ∧ s'.view op.target = .holds (view.act (s.answers a op.target) op).view
      ∧ lineages' = Function.update lineages op.target
        (.holds (l.reach (view.act (s.answers a op.target) op).view.writerIndex)) := by
  obtain ⟨s', lineages', hs', htrace, hgood, hviews, htraced'⟩ := tracedStep_traced ha hs htraced
    (privateStep_call (s.answers a op.target) hcall hview) (fewAfter_call hs hview hcall)
  have hview' := (congrFun hviews op.target).trans (Function.update_self _ _ _)
  refine ⟨s', lineages', hs', htrace, hgood, htraced', hview', ?_⟩
  rw [tracedStep, hs', Option.bind_some, lineageStep_call hcall] at htrace
  simp only [modelStep, hl, Option.map_some, Option.some.injEq, Prod.mk.injEq, true_and] at htrace
  rw [← htrace, writerIndex_of_view hview']

omit [DecidableEq ι] [DecidableEq κ] [Fintype ι] in
/-- Where nothing is refused, every request for more room is met. -/
theorem answers_grow (ha : ∀ n, a.allocates n = true) (hr : ∀ n, a.reallocates n ≠ .fails) {i : ι}
    {view : View} (hview : s.view i = .holds view) : (s.answers a i).grows = true := by
  obtain ⟨buffer, b, e, hi, hb, he, -⟩ := view_holds hview
  obtain ⟨block, hblock, rfl⟩ := Option.map_eq_some_iff.mp he
  simp only [Machine.answers, hi, hb, Option.bind_some, hblock, answers, ha]
  split
  · exact decide_eq_true (hr _)
  · rfl

/-! ## Writes -/

/-- The same bytes may be written in any pieces. -/
def writes (i : ι) (pieces : List ((ℕ → UInt8) × Size)) : List (BufferOp ι) :=
  pieces.map fun piece => .writeBytes i (some piece.1) piece.2

/-- How many bytes that is. -/
def lengthOf (pieces : List ((ℕ → UInt8) × Size)) : ℕ :=
  (pieces.map fun piece => piece.2.toNat).sum

/-- One piece: the writer goes on by its length. -/
theorem tracedStep_write (ha : ∀ n, a.allocates n = true) (hr : ∀ n, a.reallocates n ≠ .fails)
    (hs : s.Good) (htraced : Traced s lineages) {i : ι} {view : View}
    (hview : s.view i = .holds view) {l : Lineage} (hl : lineages i = .holds l)
    (data : ℕ → UInt8) {size : Size} (hend : view.writerIndex.toNat + size.toNat < 2 ^ 64) :
    ∃ s' lineages' view', tracedStep a (s, lineages) (.writeBytes i (some data) size)
        = some (s', lineages') ∧ s'.Good ∧ Traced s' lineages' ∧ s'.view i = .holds view'
      ∧ view'.writerIndex.toNat = view.writerIndex.toNat + size.toNat
      ∧ lineages' i = .holds (l.reach view'.writerIndex) := by
  have hcall : (BufferOp.writeBytes i (some data) size).IsCall := trivial
  obtain ⟨s', lineages', -, htrace, hgood, htraced', hview', rfl⟩ :=
    tracedStep_call ha hs htraced hcall hview hl
  refine ⟨s', _, _, htrace, hgood, htraced', hview', ?_, Function.update_self _ _ _⟩
  have hlost := answers_kept ha s i
  obtain ⟨l', hl', hfits⟩ := htraced.exists_lineage hview
  change (view.writeBytes (s.answers a i) (some data) size).view.writerIndex.toNat = _
  by_cases haccepts : accepts (s.answers a i).grows view.block (some data) size view.writerIndex
  · rw [(hfits.written hlost haccepts).2, BitVec.toNat_add_of_lt hend]
  · -- only an empty piece is not accepted
    have hzero : size = 0 := by
      by_contra hne
      exact haccepts ⟨rfl, hne, hend, .inr (answers_grow ha hr hview)⟩
    have hrefused : ¬ accepts (s.answers a i).grows (view.unique (s.answers a i).lost).block
        (some data) size view.writerIndex := by
      rw [View.unique_kept hlost]
      exact haccepts
    rw [View.writeBytes_refused hrefused, View.unique_kept hlost, hzero]
    rfl

/-- **Any pieces.** What the lineage is afterwards depends only on how many bytes there are. -/
theorem run_writes (ha : ∀ n, a.allocates n = true) (hr : ∀ n, a.reallocates n ≠ .fails)
    (hs : s.Good) (htraced : Traced s lineages) {i : ι} {view : View}
    (hview : s.view i = .holds view) {l : Lineage} (hl : lineages i = .holds l)
    {pieces : List ((ℕ → UInt8) × Size)} {w : Size}
    (hw : w.toNat = view.writerIndex.toNat + lengthOf pieces) :
    ∃ s' lineages', run (tracedStep a) (s, lineages) (writes i pieces) = some (s', lineages')
      ∧ s'.Good ∧ Traced s' lineages' ∧ lineages' i = .holds (l.reach w) := by
  induction pieces generalizing s lineages l view with
  | nil =>
      obtain ⟨l', hl', hfits⟩ := htraced.exists_lineage hview
      obtain rfl : l = l' := Variable.holds.inj (hl.symm.trans hl')
      -- `w` is where the writer is, and the lineage has seen that
      refine ⟨s, lineages, rfl, hs, htraced, ?_⟩
      rw [Lineage.reach_of_le (by rw [hw]; exact hfits.writer_le), hl]
  | cons piece pieces ih =>
      obtain ⟨data, size⟩ := piece
      have hlength : lengthOf ((data, size) :: pieces) = size.toNat + lengthOf pieces := by
        simp only [lengthOf, List.map_cons, List.sum_cons]
      rw [hlength] at hw
      have hend : view.writerIndex.toNat + size.toNat < 2 ^ 64 := by
        have hlt := w.isLt
        omega
      obtain ⟨s₁, lineages₁, view₁, htrace, hgood₁, htraced₁, hview₁, hwriter, hl₁⟩ :=
        tracedStep_write ha hr hs htraced hview hl data hend
      obtain ⟨s₂, lineages₂, hrun, hgood₂, htraced₂, hl₂⟩ :=
        ih hgood₁ htraced₁ hview₁ hl₁ (by rw [hw, hwriter]; omega)
      refine ⟨s₂, lineages₂, run_cons_some.mpr ⟨_, htrace, hrun⟩, hgood₂, htraced₂, ?_⟩
      rw [hl₂, Lineage.reach_reach (by omega)]

end

/-! ## Compaction does not reallocate -/

section

variable {a : ByteBufferAllocator} {m : Memory} {e : ByteBufferStorage}

theorem allocate_noReallocate (len : Size) : NoReallocate m (m.allocate a len).1 := by
  unfold Memory.allocate
  split
  · exact ⟨_, rfl, fun p len q => by simp⟩
  · exact ⟨_, rfl, fun p len q => by simp⟩

theorem copyConstruct_noReallocate : NoReallocate m (e.copyConstruct a m).1 := by
  unfold ByteBufferStorage.copyConstruct
  split
  · exact .of_log_eq rfl
  · have hallocate := allocate_noReallocate (a := a) (m := m) e.capacity
    generalize m.allocate a e.capacity = allocated at hallocate
    obtain ⟨m₁, q⟩ := allocated
    cases q with
    | none => exact hallocate
    | some q => exact hallocate.trans (.of_log_eq (copybytes_log _ _ _ _))

/-- A split asks for a block for the copy. -/
theorem unique_noReallocate {s s₁ : Storages} {buffer buffer₁ : ByteBuffer} {b : ℕ}
    (h : buffer.unique a s = some (s₁, buffer₁, b, e)) : NoReallocate s.world s₁.world := by
  unfold ByteBuffer.unique at h
  split at h
  · exact absurd h (by simp)
  · rename_i s₂ b₂ hunique
    obtain ⟨x, -, heq⟩ := Option.map_eq_some_iff.mp h
    obtain rfl := (Prod.mk.inj heq).1
    cases hb : buffer.storage with
    | none =>
        rw [hb] at hunique
        exact absurd hunique (by simp [Store.unique])
    | some c =>
        rw [hb] at hunique
        simp only [Store.unique] at hunique
        split at hunique
        · exact absurd hunique (by simp)
        · rename_i block hblock
          split at hunique
          · -- shared: a block for the copy, and perhaps the old one is given back
            obtain ⟨s₃, hrelease, heq'⟩ := Option.map_eq_some_iff.mp hunique
            obtain rfl := (Prod.mk.inj heq').1
            have hcopied : NoReallocate s.world (block.element.copyConstruct a s.world).1 :=
              copyConstruct_noReallocate
            exact hcopied.trans (release_noReallocate hrelease)
          · obtain rfl := (Prod.mk.inj (Option.some.inj hunique)).1
            exact .of_log_eq rfl

/-- A write into a block that is long enough, or to a storage that has none. -/
theorem setBytes_noReallocate {source : ConstBytes} {size atIndex : Size}
    (hfits : ∀ p, e.bytes = some p → atIndex + size ≤ e.capacity) :
    NoReallocate m (e.setBytes a m source size atIndex).1 := by
  have hreserve : NoReallocate m (e.reserve a m (atIndex + size)).1 := by
    unfold ByteBufferStorage.reserve
    split
    · exact .of_log_eq rfl
    · rename_i hlarge
      dsimp only
      split
      · exact .of_log_eq rfl
      · cases hp : e.bytes with
        | some p => exact absurd ⟨by rw [hp]; rfl, hfits p hp⟩ hlarge
        | none =>
            have hallocate := allocate_noReallocate (a := a) (m := m)
              (nextPowerOf2ClampedToMax (atIndex + size))
            dsimp only
            generalize m.allocate a (nextPowerOf2ClampedToMax (atIndex + size)) = allocated
              at hallocate
            obtain ⟨m₁, q⟩ := allocated
            cases q with
            | none => exact hallocate
            | some q => exact hallocate
  unfold ByteBufferStorage.setBytes
  split
  · exact .of_log_eq rfl
  split
  · exact .of_log_eq rfl
  generalize e.reserve a m (atIndex + size) = reserved at hreserve
  obtain ⟨m₁, e₁, ok⟩ := reserved
  cases ok with
  | false => exact hreserve
  | true =>
      dsimp only
      split
      · exact hreserve.trans (.of_log_eq rfl)
      · exact hreserve.trans (.of_log_eq (copybytes_log _ _ _ _))

end

/-- Compaction brings the writer back by what was read. -/
theorem View.Valid.discardReadBytes_writer {v : View} (hv : v.Valid) (answers : Answers) :
    (v.discardReadBytes answers).view.writerIndex.toNat
      = v.writerIndex.toNat - v.readerIndex.toNat := by
  have hreadable := hv.toNat_readable
  unfold View.discardReadBytes
  split
  · rename_i hzero
    rw [hzero]
    rfl
  split
  · rename_i hnone
    rw [hnone] at hreadable
    exact hreadable
  split
  · exact hreadable
  · split
    · exact hreadable
    · exact hreadable

section

variable {ι κ : Type} [DecidableEq ι] [DecidableEq κ] [Fintype ι] {a : ByteBufferAllocator}
  {s : Machine ι κ} {lineages : ι → Variable Lineage} {i : ι} {buffer : ByteBuffer}

/-- The bytes to move are in the block, so it is long enough for them. -/
theorem discardReadBytes_noReallocate (hs : s.Good) {view : View} (hview : s.view i = .holds view)
    (hi : s.buffers i = some buffer) {r : Storages × ByteBuffer}
    (h : buffer.discardReadBytes a s.store = some r) : NoReallocate s.memory r.1.world := by
  have hvalid := hs.valid i view hview
  obtain ⟨buffer', store, b, e, hi', hunique, halone, -, hr, hw, hcontents, -⟩ :=
    unique_view hs hview (a := a)
  obtain rfl : buffer = buffer' := Option.some.inj (hi.symm.trans hi')
  have hreadable : buffer.readableBytes = view.readable := by
    rw [ByteBuffer.readableBytes, hr, hw]
    rfl
  -- also after a split: the copy is as long as the block that it was made from
  have hfits : ∀ p, e.bytes = some p → 0 + buffer.readableBytes ≤ e.capacity := by
    intro p hp
    have hself := Function.update_self (Sum.inl b) (some e) (owners s.store s.storages)
    obtain ⟨cells, -, hcells, hlength, -⟩ := halone.updates.owned.contents hself hp
    have hblock : view.block = some cells := View.block_of_unique (hcontents.symm.trans hcells)
    rw [zero_add, BitVec.le_def, hreadable, ← hlength]
    exact (Nat.le_add_left _ _).trans (hvalid.readable_le hblock)
  unfold ByteBuffer.discardReadBytes at h
  split at h
  · obtain rfl := Option.some.inj h
    exact .of_log_eq rfl
  · dsimp only at h
    split at h
    · obtain ⟨split, hsplit, rfl⟩ := Option.map_eq_some_iff.mp h
      obtain rfl := Option.some.inj (hunique.symm.trans hsplit)
      exact (unique_noReallocate hunique).trans (setBytes_noReallocate hfits)
    · obtain rfl := Option.some.inj h
      exact .of_log_eq rfl

omit [DecidableEq ι] [DecidableEq κ] [Fintype ι] in
theorem exists_writableBytes {store : Storages} {c : Size} (hc : buffer.capacity store = some c)
    (hle : buffer.writerIndex.toNat ≤ c.toNat) :
    ∃ w, buffer.writableBytes store = some w ∧ w.toNat = c.toNat - buffer.writerIndex.toNat := by
  rw [ByteBuffer.writableBytes, hc, Option.map_some]
  refine ⟨_, rfl, ?_⟩
  split
  · exact BitVec.toNat_sub_of_le (BitVec.le_def.mpr hle)
  · rename_i hgt
    rw [gt_iff_lt, BitVec.lt_def] at hgt
    have hzero : (0 : Size).toNat = 0 := rfl
    omega

/-- **Compaction.** What was read becomes writable again, without a `reallocate`. -/
theorem discardReadBytes_frees (ha : ∀ n, a.allocates n = true) (hs : s.Good)
    (htraced : Traced s lineages) (hi : s.buffers i = some buffer) (hb : buffer.storage ≠ none) :
    ∃ s' buffer' w w', s.next a (.buffer (.discardReadBytes i)) = some s'
      ∧ s'.buffers i = some buffer' ∧ NoReallocate s.memory s'.memory
      ∧ buffer.writableBytes s.store = some w ∧ buffer'.writableBytes s'.store = some w'
      ∧ w'.toNat = w.toNat + buffer.readerIndex.toNat := by
  obtain ⟨b, e, -, -, hview⟩ := hs.view_of_buffer hi hb
  have hvalid := hs.valid i _ hview
  have hlost := answers_kept ha s i
  obtain ⟨l, hl, hfits⟩ := htraced.exists_lineage hview
  have hcall : (BufferOp.discardReadBytes i).IsCall := trivial
  have hquiet : View.writeOf (BufferOp.discardReadBytes i) = none := rfl
  obtain ⟨s', lineages', hs', -, hgood, htraced', hview', rfl⟩ :=
    tracedStep_call ha hs htraced hcall hview hl
  obtain ⟨buffer', b', e', hi', hb', -, heq⟩ := view_holds hview'
  -- the lineage is the one it was, and so is the capacity
  have hl' := (Function.update_self i _ lineages).trans
    (congrArg Variable.holds (hfits.quiet hvalid hlost hquiet).1)
  obtain ⟨l₁, hl₁, hcapacity⟩ := htraced.capacity hs hi hb
  obtain ⟨l₂, hl₂, hcapacity'⟩ := htraced'.capacity hgood hi' (by rw [hb']; simp)
  obtain rfl : l = l₁ := Variable.holds.inj (hl.symm.trans hl₁)
  obtain rfl : l = l₂ := Variable.holds.inj (hl'.symm.trans hl₂)
  have hle : buffer.writerIndex.toNat ≤ l.capacity.toNat :=
    hfits.writer_le.trans ((Nat.le_max_right _ _).trans l.le_capacity)
  have hreader : buffer.readerIndex.toNat ≤ buffer.writerIndex.toNat := hvalid.toNat_le
  have hwriter : buffer'.writerIndex.toNat
      = buffer.writerIndex.toNat - buffer.readerIndex.toNat := by
    have hcursor : _ = buffer'.writerIndex := congrArg View.writerIndex heq
    rw [← hcursor]
    exact hvalid.discardReadBytes_writer (s.answers a i)
  obtain ⟨w, hw, hwroom⟩ := exists_writableBytes hcapacity hle
  obtain ⟨w', hw', hwroom'⟩ := exists_writableBytes hcapacity' (by omega)
  refine ⟨s', buffer', w, w', by rw [Machine.next, Machine.step, hs']; rfl, hi', ?_, hw, hw',
    by omega⟩
  simp only [Machine.bufferStep, Machine.onBuffer, hi] at hs'
  obtain ⟨r, hr, heq'⟩ := Option.map_eq_some_iff.mp hs'
  obtain ⟨r', hr', rfl⟩ := Option.map_eq_some_iff.mp hr
  obtain rfl := (Prod.mk.inj heq').1
  exact discardReadBytes_noReallocate hs hview hi hr'

/-- A call leaves the lineages of the other variables alone, and its own too if it is no write. -/
theorem lineage_kept (ha : ∀ n, a.allocates n = true) (hs : s.Good) (htraced : Traced s lineages)
    {op : BufferOp ι} (hcall : op.IsCall) {s' : Machine ι κ} {lineages' : ι → Variable Lineage}
    (h : tracedStep a (s, lineages) op = some (s', lineages'))
    (hkeeps : i ≠ op.target ∨ View.writeOf op = none) : lineages' i = lineages i := by
  obtain ⟨l, hl⟩ : ∃ l, lineages op.target = .holds l := by
    obtain ⟨r, -, hr⟩ := Option.bind_eq_some_iff.mp h
    obtain ⟨after, hafter, -⟩ := Option.map_eq_some_iff.mp hr
    rw [lineageStep_call hcall] at hafter
    cases modelStep_cases hafter with
    | mutate _ hl => exact ⟨_, hl⟩
  obtain ⟨view, hview, hfits⟩ := htraced.exists_view hl
  obtain ⟨s₁, lineages₁, -, htrace, -, -, -, hafter⟩ :=
    tracedStep_call ha hs htraced hcall hview hl
  obtain rfl := (Prod.mk.inj (Option.some.inj (h.symm.trans htrace))).2
  rw [hafter]
  rcases eq_or_ne i op.target with rfl | hne
  · have hquiet := hkeeps.resolve_left (not_not.mpr rfl)
    rw [Function.update_self, hl,
      (hfits.quiet (hs.valid _ view hview) (answers_kept ha s _) hquiet).1]
  · exact Function.update_of_ne hne _ _

/-! ## Programs that get everything -/

omit [DecidableEq κ] [Fintype ι] in
/-- What a step does to the lineages depends on the allocator by the step alone. -/
theorem tracedStep_congr {a' : ByteBufferAllocator} {op : BufferOp ι}
    (h : s.bufferStep a op = s.bufferStep a' op) :
    tracedStep a (s, lineages) op = tracedStep a' (s, lineages) op := by
  simp only [tracedStep, h]

/-- A program that gets everything has the lineages, and the handles, that it would have with a
willing allocator. -/
theorem run_willing (lineages : ι → Variable Lineage) {ops : List (BufferOp ι)}
    {s' : Machine ι κ} (h : run (Machine.next a) s (ops.map .buffer) = some s')
    (hgranted : s'.memory.Granted) :
    run (tracedStep a.willing) (s, lineages) ops = run (tracedStep a) (s, lineages) ops
      ∧ (FewHandlesAlong a s (ops.map .buffer) → FewHandlesAlong a.willing s (ops.map .buffer)) := by
  induction ops generalizing s lineages with
  | nil => exact ⟨rfl, fun _ => trivial⟩
  | cons op ops ih =>
      obtain ⟨s₁, hs₁, hrest⟩ := run_cons_some.mp h
      obtain ⟨result, hstep, hwilling⟩ :=
        bufferStep_of_granted hs₁ (hgranted.before (run_continues hrest))
      have hnext : s.next a.willing (.buffer op) = some s₁ := by
        rw [Machine.next, Machine.step, hwilling]
        rfl
      have hfew := (ih lineages hrest).2
      refine ⟨?_, fun halong => ?_⟩
      · rw [run_cons, run_cons, tracedStep_congr (hwilling.trans hstep.symm)]
        cases hlineages : tracedStep a (s, lineages) op with
        | none => rfl
        | some p =>
            -- the machine is in the state that it runs on from
            obtain ⟨r, hr, hp⟩ := Option.bind_eq_some_iff.mp hlineages
            obtain rfl := Option.some.inj (hstep.symm.trans hr)
            obtain ⟨lineages₁, -, rfl⟩ := Option.map_eq_some_iff.mp hp
            exact (ih lineages₁ hrest).1
      · obtain ⟨hfirst, hafter⟩ := (along_cons hs₁).mp halong
        refine (along_cons hnext).mpr ⟨fun s₂ hs₂ => ?_, hfew hafter⟩
        obtain rfl := Option.some.inj (hnext.symm.trans hs₂)
        exact hfirst s₁ hs₁

omit [Fintype ι] in
/-- The rules for a program of buffers only. -/
theorem run_buffers_status {st st' : ι → Variable Unit} {ops : List (BufferOp ι)}
    (h : run bufferStatus st ops = some st') (storages : κ → Bool) :
    run statusStep (⟨st, storages⟩ : Status ι κ) (ops.map .buffer) = some ⟨st', storages⟩ := by
  have hmap : run statusStep (⟨st, storages⟩ : Status ι κ) (ops.map .buffer)
      = (run bufferStatus st ops).map fun v => ⟨v, storages⟩ :=
    run_map (fun v => (⟨v, storages⟩ : Status ι κ)) ProgramOp.buffer (fun _ _ => rfl) st ops
  rw [hmap, h]
  rfl

/-- A call on a buffer that was not moved from is made, whatever the allocator answers. -/
theorem next_call (hs : s.Good) {op : BufferOp ι} (hcall : op.IsCall) {view : View}
    (hview : s.view op.target = .holds view) :
    ∃ s' view', s.next a (.buffer op) = some s' ∧ s'.Good ∧ s'.view op.target = .holds view' := by
  have hstep := privateStep_call (s.answers a op.target) hcall hview
  obtain ⟨s', hs', hgood, hviews, -, -⟩ := bufferStep_refines hs hstep (fewAfter_call hs hview hcall)
  refine ⟨s', _, ?_, hgood, (congrFun hviews op.target).trans (Function.update_self _ _ _)⟩
  rw [Machine.next, Machine.step, hs']
  rfl

theorem exists_run_writes (hs : s.Good) {view : View} (hview : s.view i = .holds view)
    (pieces : List ((ℕ → UInt8) × Size)) :
    ∃ s', run (Machine.next a) s ((writes i pieces).map .buffer) = some s' := by
  induction pieces generalizing s view with
  | nil => exact ⟨s, rfl⟩
  | cons piece pieces ih =>
      have hcall : (BufferOp.writeBytes i (some piece.1) piece.2).IsCall := trivial
      obtain ⟨s₁, view₁, hs₁, hgood, hview₁⟩ := next_call hs hcall hview (a := a)
      obtain ⟨s₂, hrun⟩ := ih hgood hview₁
      exact ⟨s₂, run_cons_some.mpr ⟨s₁, hs₁, hrun⟩⟩

/-- **Growth is history independent.** Every legal program runs, and if it is refused nothing,
each buffer has the capacity that its lineage says: what was asked for, and the furthest its
writer has been, rounded up. From then on, as long as nothing is refused,

* bytes may be written in any pieces;
* no call but a write is seen in the lineage, and no call on another buffer;
* `discardReadBytes` makes room for what was read, without a `reallocate`. -/
theorem capacity_history_independent (a : ByteBufferAllocator) (ops : List (BufferOp ι))
    {st : ι → Variable Unit} (hlegal : run bufferStatus (fun _ => .absent) ops = some st)
    (hfew : FewHandlesAlong a (.start : Machine ι κ) (ops.map .buffer))
    (hmet : Unrefused a (.start : Machine ι κ) ops) :
    ∃ (s : Machine ι κ) (lineages : ι → Variable Lineage),
      run (tracedStep a) (.start, fun _ => .absent) ops = some (s, lineages)
      ∧ (∀ i buffer, s.buffers i = some buffer → buffer.storage ≠ none →
          ∃ l, lineages i = .holds l ∧ buffer.capacity s.store = some l.capacity
            ∧ ∀ pieces (w : Size), w.toNat = buffer.writerIndex.toNat + lengthOf pieces →
              Unrefused a s (writes i pieces) →
              ∃ s' lineages' buffer',
                run (tracedStep a) (s, lineages) (writes i pieces) = some (s', lineages')
                ∧ s'.buffers i = some buffer'
                ∧ buffer'.capacity s'.store = some (l.reach w).capacity)
      ∧ (∀ op s' lineages', op.IsCall → tracedStep a (s, lineages) op = some (s', lineages') →
          s'.memory.Granted →
          ∀ i, i ≠ op.target ∨ View.writeOf op = none → lineages' i = lineages i)
      ∧ ∀ i buffer, s.buffers i = some buffer → buffer.storage ≠ none →
          Unrefused a s [.discardReadBytes i] →
          ∃ s' buffer' w w', s.next a (.buffer (.discardReadBytes i)) = some s'
            ∧ s'.buffers i = some buffer' ∧ NoReallocate s.memory s'.memory
            ∧ buffer.writableBytes s.store = some w ∧ buffer'.writableBytes s'.store = some w'
            ∧ w'.toNat = w.toNat + buffer.readerIndex.toNat := by
  have ha : ∀ n, a.willing.allocates n = true := fun _ => rfl
  have hr := willing_reallocates a
  -- the machine runs whatever is refused, and nothing was
  obtain ⟨s₀, hrun₀, -⟩ := run_lawful start_lawful (run_buffers_status hlegal _) hfew
  obtain ⟨htraces, halong⟩ := run_willing (fun _ => .absent) hrun₀ (hmet s₀ hrun₀)
  obtain ⟨s, lineages, hrun, hgood, htraced⟩ := run_traced ha start_lawful.good
    (fun _ => .absent) (fun _ => .absent) hlegal (halong hfew)
  refine ⟨s, lineages, htraces ▸ hrun, fun i buffer hi hb => ?_, ?_, fun i buffer hi hb hfree => ?_⟩
  · obtain ⟨l, hl, hcapacity⟩ := htraced.capacity hgood hi hb
    refine ⟨l, hl, hcapacity, fun pieces w hw hwrites => ?_⟩
    obtain ⟨b, e, -, -, hview⟩ := hgood.view_of_buffer hi hb
    obtain ⟨s₁, hrun₁⟩ := exists_run_writes hgood hview pieces (a := a)
    have htraces₁ := (run_willing lineages hrun₁ (hwrites s₁ hrun₁)).1
    obtain ⟨s', lineages', hrun', hgood', htraced', hl'⟩ :=
      run_writes ha hr hgood htraced hview hl hw
    obtain ⟨view', hview', -⟩ := htraced'.exists_view hl'
    obtain ⟨buffer', b', e', hi', hb', -⟩ := view_holds hview'
    obtain ⟨l', hl'', hcapacity'⟩ := htraced'.capacity hgood' hi' (by rw [hb']; simp)
    obtain rfl := Variable.holds.inj (hl'.symm.trans hl'')
    exact ⟨s', lineages', buffer', htraces₁.symm.trans hrun', hi', hcapacity'⟩
  · intro op s' lineages' hcall h hgranted i hkeeps
    obtain ⟨r, hstep, hr'⟩ := Option.bind_eq_some_iff.mp h
    obtain ⟨after, -, heq⟩ := Option.map_eq_some_iff.mp hr'
    obtain ⟨rfl, rfl⟩ := Prod.mk.inj heq
    have hwilling := (bufferStep_willing a s op r hstep).2 hgranted
    rw [tracedStep_congr (hstep.trans hwilling.symm)] at h
    exact lineage_kept ha hgood htraced hcall h hkeeps
  · obtain ⟨s', buffer', w, w', hs', hrest⟩ := discardReadBytes_frees ha hgood htraced hi hb
    obtain ⟨b, e, -, -, hview⟩ := hgood.view_of_buffer hi hb
    have hcall : (BufferOp.discardReadBytes i).IsCall := trivial
    obtain ⟨s₁, -, hs₁, -⟩ := next_call hgood hcall hview (a := a)
    obtain ⟨result, -, hwilling⟩ :=
      bufferStep_of_granted hs₁ (hfree s₁ (run_cons_some.mpr ⟨s₁, hs₁, rfl⟩))
    obtain rfl : s₁ = s' := by
      rw [Machine.next, Machine.step, hwilling] at hs'
      exact Option.some.inj hs'
    exact ⟨s₁, buffer', w, w', hs₁, hrest⟩

end

/-- The first requests are met, and then there is nothing left. -/
def ByteBufferAllocator.lasting (requests : ℕ) : ByteBufferAllocator where
  allocates n := n < requests
  reallocates n := if n < requests then .moves else .fails

/-- A buffer made for three bytes, and a copy that grows, is read and compacted, and is written
to again; then the first is made a copy of the second. -/
def growing : List (BufferOp Bool) :=
  [.construct false 3, .writeBytes false (some fun _ => 7) 2, .copyConstruct true false,
    .writeBytes true (some fun _ => 8) 5, .skipBytes true 6, .discardReadBytes true,
    .writeBytes true (some fun _ => 9) 1, .clear false, .writeBytes false (some fun _ => 6) 4,
    .moveAssign false true, .destruct true, .construct true 9]

/-- It takes four requests. -/
theorem growing_unrefused :
    Unrefused (.lasting 4) (.start : Machine Bool Empty) growing := by
  intro s hs
  have hlog : ∀ call ∈ s.memory.log, call.refused = false := by
    rw [← Option.some.inj hs]
    decide
  exact hlog

theorem capacity_history_independent_growing :
    ∃ (s : Machine Bool Empty) (lineages : Bool → Variable Lineage),
      run (tracedStep (.lasting 4)) (.start, fun _ => .absent) growing = some (s, lineages)
        ∧ lineages false = .holds ⟨3, 7⟩ ∧ lineages true = .holds ⟨9, 0⟩
        ∧ ∀ i buffer, s.buffers i = some buffer → buffer.storage ≠ none →
          ∃ l, lineages i = .holds l ∧ buffer.capacity s.store = some l.capacity := by
  obtain ⟨s, lineages, hrun, hcapacity, -⟩ := capacity_history_independent (.lasting 4) growing rfl
    (fewHandlesAlong_of_card (κ := Empty) (by decide) _ _ _) growing_unrefused
  have hlineages : lineages false = .holds ⟨3, 7⟩ ∧ lineages true = .holds ⟨9, 0⟩ := by
    obtain ⟨⟨s₁, lineages₁⟩, hrun₁⟩ : ∃ p : Machine Bool Empty × (Bool → Variable Lineage),
        run (tracedStep (.lasting 4)) (.start, fun _ => .absent) growing = some p := ⟨_, rfl⟩
    obtain rfl := (Prod.mk.inj (Option.some.inj (hrun.symm.trans hrun₁))).2
    rw [← (Prod.mk.inj (Option.some.inj hrun₁)).2]
    exact ⟨rfl, rfl⟩
  refine ⟨s, lineages, hrun, hlineages.1, hlineages.2, fun i buffer hi hb => ?_⟩
  obtain ⟨l, hl, hroom, -⟩ := hcapacity i buffer hi hb
  exact ⟨l, hl, hroom⟩

/-! ## One copy too many -/

/-- Copies, and their lineages. -/
theorem run_traced_copies {ι κ : Type} [DecidableEq ι] [DecidableEq κ] {a : ByteBufferAllocator}
    {s s' : Machine ι κ} {lineages lineages' : ι → Variable Lineage} {l : List ι} {j : ι}
    (hs : run (Machine.next a) s (copies κ l j) = some s')
    (hlineages : run (fun v i => modelStep v (.copyConstruct i j)) lineages l = some lineages') :
    run (tracedStep a) (s, lineages) (l.map fun i => .copyConstruct i j)
      = some (s', lineages') := by
  rw [copies, run_actions] at hs
  rw [run_actions]
  refine run_both (fun {s s' v v' i} hs hv => ?_) hs hlineages
  obtain ⟨r, hr, rfl⟩ := Option.map_eq_some_iff.mp hs
  have hstep : s.bufferStep a (.copyConstruct i j) = some r := hr
  simp only [tracedStep, hstep, Option.bind_some, lineageStep, hv, Option.map_some]

/-- One byte is asked for, copies are made, and two bytes are written to the original. -/
def growOne {ι : Type} (l : List ι) (j : ι) : List (BufferOp ι) :=
  [.construct j 1] ++ l.map (fun i => .copyConstruct i j) ++ [.writeBytes j (some fun _ => 7) 2]

theorem growOne_legal {ι : Type} [DecidableEq ι] {l : List ι} {j : ι} (hnodup : l.Nodup)
    (hj : j ∉ l) : ∃ st, run bufferStatus (fun _ => .absent) (growOne l j) = some st := by
  obtain ⟨first, hfirst⟩ : ∃ first : ι → Variable Unit,
      first = Function.update (fun _ => .absent) j (.holds ()) := ⟨_, rfl⟩
  have hself : first j = .holds () := by rw [hfirst, Function.update_self]
  have hcopies := run_copies_model first hself hnodup fun i hi => by
    have hne : i ≠ j := fun heq => hj (heq ▸ hi)
    rw [hfirst, Function.update_of_ne hne]
  have hstart : run bufferStatus (fun _ => .absent) [.construct j 1] = some first := by
    rw [hfirst]
    rfl
  have hrun : run bufferStatus first (l.map fun i => .copyConstruct i j)
      = some (assigned first l (.holds ())) := by
    rw [run_actions]
    exact hcopies
  rw [growOne, List.append_assoc, run_append, hstart, Option.bind_some, run_append, hrun,
    Option.bind_some]
  simp [run_cons, bufferStatus, modelStep, BufferOp.target, assigned, hj, hself]

/-- A buffer whose count is not above 1 writes to the storage that it has. -/
theorem writeBytes_unshared {a : ByteBufferAllocator} {s : Storages} {buffer : ByteBuffer} {b : ℕ}
    {block : Block ByteBufferStorage} (hb : buffer.storage = some b)
    (hblock : s.blocks b = some block) (halone : ¬ 1 < block.retainCount) (source : ConstBytes)
    (size : Size) :
    ∃ r, buffer.writeBytes a s source size = some r
      ∧ r.1.blocks b = some { block with
          element := (block.element.setBytes a s.world source size buffer.writerIndex).2.1 } := by
  have hunique : buffer.unique a s = some (s, { buffer with storage := some b }, b, block.element) := by
    simp only [ByteBuffer.unique, hb, Store.unique, hblock, if_neg halone, Store.read,
      Option.map_some]
  rw [ByteBuffer.writeBytes, hunique]
  simp only [ByteBuffer.moveWriterIndexForwardBy, ByteBuffer.moveWriterIndexTo, ByteBuffer.capacity,
    ByteBuffer.read, Store.read, setElement, hblock, Option.map_some, Function.update_self]
  exact ⟨_, rfl, Function.update_self _ _ _⟩

/-- Two bytes on a block of one. -/
theorem setBytes_grown {m : Memory} (hregion : m.regions 0 = some [none]) :
    (ByteBufferStorage.setBytes .granting m ⟨some 0, 1⟩ (.source (some fun _ => 7)) 2 0).2.1
      = ⟨some 0, 2⟩ := by
  have hround : nextPowerOf2ClampedToMax (2 : Size) = 2 := by decide
  have hlarge : ¬ ((some (0 : Address)).isSome = true ∧ (2 : Size) ≤ 1) := by decide
  have hreserve : (ByteBufferStorage.reserve .granting m ⟨some 0, 1⟩ (0 + 2)).2
      = (⟨some 0, 2⟩, true) := by
    rw [zero_add, ByteBufferStorage.reserve, if_neg hlarge]
    simp only [hround, Memory.reallocate, hregion, ByteBufferAllocator.granting]
    rfl
  have hsource : ¬ ((ConstBytes.source (some fun _ => 7)).isNull = true ∨ (2 : Size) = 0) := by
    simp [ConstBytes.source, ConstBytes.isNull]
  have hover : ¬ (0 : Size) > sizeMax - 2 := by decide
  rw [ByteBufferStorage.setBytes, if_neg hsource, if_neg hover]
  generalize ByteBufferStorage.reserve .granting m ⟨some 0, 1⟩ (0 + 2) = reserved at hreserve ⊢
  obtain ⟨m', e', ok⟩ := reserved
  obtain ⟨rfl, rfl⟩ := Prod.mk.inj hreserve
  rfl

/-- When the count is at 0, the write makes the block of the copies longer. -/
theorem growOne_seen {ι : Type} [DecidableEq ι] {l : List ι} {i j : ι} (hnodup : l.Nodup)
    (hj : j ∉ l) (hi : i ∈ l) (hn : 1 + UInt32.ofNat l.length = 0) :
    ∃ (s : Machine ι Empty) (lineages : ι → Variable Lineage) (buffer : ByteBuffer),
      run (tracedStep .granting) (.start, fun _ => .absent) (growOne l j) = some (s, lineages)
        ∧ s.buffers i = some buffer ∧ lineages i = .holds ⟨1, 0⟩
        ∧ buffer.capacity s.store = some 2 := by
  obtain ⟨⟨s₀, lineages₀⟩, hfirst⟩ : ∃ p : Machine ι Empty × (ι → Variable Lineage),
      run (tracedStep .granting) (.start, fun _ => .absent) [.construct j 1] = some p := ⟨_, rfl⟩
  have hs₀ := (Prod.mk.inj (Option.some.inj hfirst)).1
  have hlineages₀ := (Prod.mk.inj (Option.some.inj hfirst)).2
  have hbuffer : s₀.buffers j = some ⟨0, 0, some 0⟩ := by
    rw [← hs₀]
    exact Function.update_self _ _ _
  have hblock : s₀.store.blocks 0 = some ⟨⟨some 0, 1⟩, 1⟩ := by
    rw [← hs₀]
    rfl
  have hregion : s₀.store.world.regions 0 = some [none] := by
    rw [← hs₀]
    rfl
  have hlineage : lineages₀ j = .holds ⟨1, 0⟩ := by
    rw [← hlineages₀]
    exact Function.update_self _ _ _
  have hnone : ∀ k ∈ l, s₀.buffers k = none ∧ lineages₀ k = .absent := by
    intro k hk
    have hne : k ≠ j := fun heq => hj (heq ▸ hk)
    rw [← hs₀, ← hlineages₀]
    exact ⟨Function.update_of_ne hne _ _, Function.update_of_ne hne _ _⟩
  -- the copies bring the count to 0
  obtain ⟨s₁, hrun₁, hown, hcopy, hblock₁, hworld⟩ := exists_run_copies s₀ (a := .granting)
    hbuffer rfl hblock hnodup fun k hk => (hnone k hk).1
  have hcopies := run_traced_copies hrun₁
    (run_copies_model lineages₀ hlineage hnodup fun k hk => (hnone k hk).2)
  have hregion₁ : s₁.store.world.regions 0 = some [none] := by
    rw [hworld]
    exact hregion
  rw [hn] at hblock₁
  -- the original writes as if it were alone
  have hstorage : (⟨0, 0, some 0⟩ : ByteBuffer).storage = some 0 := rfl
  obtain ⟨r, hwrite, hgrown⟩ := writeBytes_unshared (a := .granting) hstorage hblock₁ (by decide)
    (.source (some fun _ => 7)) 2
  have hstep : s₁.bufferStep .granting (.writeBytes j (some fun _ => 7) 2)
      = some (s₁.setBuffer r.1 j (some r.2.1), r.2.2) := by
    simp only [Machine.bufferStep, Machine.onBuffer, hown, hwrite, Option.map_some]
  have hne : i ≠ j := fun heq => hj (heq ▸ hi)
  have hcall : (BufferOp.writeBytes j (some fun _ => 7) 2).IsCall := trivial
  have hself : assigned lineages₀ l (.holds ⟨1, 0⟩) j = .holds ⟨1, 0⟩ :=
    (if_neg hj).trans hlineage
  have hlast : run (tracedStep .granting) (s₁, assigned lineages₀ l (.holds ⟨1, 0⟩))
      [.writeBytes j (some fun _ => 7) 2] = some (s₁.setBuffer r.1 j (some r.2.1),
        Function.update (assigned lineages₀ l (.holds ⟨1, 0⟩)) j
          (.holds (Lineage.reach ⟨1, 0⟩ ((s₁.setBuffer r.1 j (some r.2.1)).writerIndex j)))) := by
    rw [run_cons, tracedStep, hstep, Option.bind_some, lineageStep_call hcall]
    simp only [modelStep, BufferOp.target, hself, Option.map_some, Option.bind_some, run_nil]
  rw [growOne, List.append_assoc, run_append, hfirst, Option.bind_some, run_append, hcopies,
    Option.bind_some]
  refine ⟨_, _, ⟨0, 0, some 0⟩, hlast, ?_, ?_, ?_⟩
  · exact (Function.update_of_ne hne (some r.2.1) s₁.buffers).trans (hcopy i hi)
  · exact (Function.update_of_ne hne _ _).trans (if_pos hi)
  · rw [setBytes_grown hregion₁] at hgrown
    simp only [ByteBuffer.capacity, ByteBuffer.read, Machine.setBuffer, Store.read, hgrown,
      Option.map_some]

/-- Without a bound on the copies: one buffer writes, and the capacity of another changes. -/
theorem capacity_changed_by_another :
    ∃ (a : ByteBufferAllocator) (ops : List (BufferOp (Fin (2 ^ 32))))
      (s : Machine (Fin (2 ^ 32)) Empty) (lineages : Fin (2 ^ 32) → Variable Lineage)
      (i : Fin (2 ^ 32)) (buffer : ByteBuffer) (l : Lineage),
      (∀ n, a.allocates n = true) ∧ (∀ n, a.reallocates n ≠ .fails)
        ∧ (∃ st, run bufferStatus (fun _ => .absent) ops = some st)
        ∧ run (tracedStep a) (.start, fun _ => .absent) ops = some (s, lineages)
        ∧ s.buffers i = some buffer ∧ lineages i = .holds l
        ∧ buffer.capacity s.store ≠ some l.capacity := by
  obtain ⟨n, hn⟩ : ∃ n, n + 2 = 2 ^ 32 := ⟨2 ^ 32 - 2, rfl⟩
  have hwraps : 1 + UInt32.ofNat (others (n + 1)).length = 0 := by
    rw [length_others, show n + 1 = 2 ^ 32 - 1 by omega]
    decide
  have hfirst : 0 ∉ others (n + 1) := fun h => mem_others.mp h rfl
  have hsecond : 1 ∈ others (n + 1) := mem_others.mpr (by simp)
  rw [← hn]
  obtain ⟨s, lineages, buffer, hrun, hbuffer, hlineage, hcapacity⟩ :=
    growOne_seen (nodup_others (n + 1)) hfirst hsecond hwraps
  refine ⟨.granting, growOne (others (n + 1)) 0, s, lineages, 1, buffer, ⟨1, 0⟩, fun _ => rfl,
    fun _ => by simp [ByteBufferAllocator.granting],
    growOne_legal (nodup_others (n + 1)) hfirst, hrun, hbuffer, hlineage, ?_⟩
  rw [hcapacity]
  decide

end NPFoundation
