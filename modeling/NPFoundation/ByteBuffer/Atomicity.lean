import NPFoundation.ByteBuffer.Protocol

/-!
# Writes that fail

A write that finds no memory should return 0 and leave the buffer as it was. `setBytes`
does that. What comes before it does not: `unique()` gives a shared storage's buffer a
storage of its own, copied from the shared one, and a copy that is refused its block is a
storage without one. The buffer's bytes are gone, its cursors are not, and the write goes
on from there.

Whether a write is atomic can be told beforehand. It is if the buffer keeps its block; or
else if there is nothing to lose: no unread bytes if the write then goes through, and no
written ones if it does not, because then the writer would be behind the capacity 0.
-/

namespace NPFoundation

open Slice CopyOnWrite CopyOnWrite.Store Transition

/-- The bytes a write is asked to append. -/
def writtenBytes (source : Option (ℕ → UInt8)) (size : Size) : Region :=
  match source with
  | none => []
  | some data => sourceBytes data size

namespace View

variable {v : View} {answers : Answers} {source : Option (ℕ → UInt8)} {size : Size}

/-- The block is there, and is not lost in a split. -/
def KeepsBlock (answers : Answers) (v : View) : Prop := v.block.isSome ∧ answers.lost = false

/-- The write finds room, after the split. -/
def GoesThrough (answers : Answers) (v : View) (source : Option (ℕ → UInt8)) (size : Size) : Prop :=
  accepts answers.grows (v.unique answers.lost).block source size v.writerIndex

/-- What a write does to a view is all or nothing. -/
structure Atomic (v : View) (source : Option (ℕ → UInt8)) (size : Size) (outcome : Outcome) :
    Prop where
  returns : outcome.result.size = size ∨ outcome.result.size = 0
  readable : ∃ old, v.readableRegion = some old
    ∧ (outcome.result.size = size →
        outcome.view.readableRegion = some (old ++ writtenBytes source size))
    ∧ (outcome.result.size = 0 → outcome.view.readableRegion = some old)
  cursors : outcome.result.size = 0 → outcome.view.readerIndex = v.readerIndex
    ∧ outcome.view.writerIndex = v.writerIndex
  quiet : outcome.faults = []

theorem readableRegion_some {cells : Region} (h : v.block = some cells) :
    v.readableRegion = some (slice cells v.readerIndex.toNat v.readable.toNat) := by
  rw [readableRegion, h]

theorem readableRegion_empty (h : v.readable = 0) : v.readableRegion = some [] := by
  unfold readableRegion
  split
  · rw [h]
    simp
  · rw [if_pos h]

theorem readable_unique (lost : Bool) (v : View) : (v.unique lost).readable = v.readable := by
  rw [readable, (unique_cursors lost v).1, (unique_cursors lost v).2]
  rfl

/-- Without the block there is no room. -/
theorem room_of_not_keepsBlock (h : ¬ v.KeepsBlock answers) :
    (v.unique answers.lost).block = none := by
  cases hb : (v.unique answers.lost).block with
  | none => rfl
  | some cells =>
      have hblock := block_of_unique hb
      cases hlost : answers.lost with
      | true =>
          rw [hlost] at hb
          exact absurd hb (by simp [View.unique])
      | false => exact absurd ⟨by rw [hblock]; rfl, hlost⟩ h

theorem unique_of_keepsBlock (h : v.KeepsBlock answers) : v.unique answers.lost = v := by
  rw [View.unique, h.2]
  rfl

/-- A refused write leaves things alone if the split does and the writer passes its check. -/
theorem Atomic.of_same {old : Region} (hold : v.readableRegion = some old)
    (hsame : (v.unique answers.lost).readableRegion = some old) {faults : List Fault}
    (hfaults : faults = []) :
    v.Atomic source size ⟨v.unique answers.lost, ⟨0, []⟩, faults⟩ where
  returns := .inr rfl
  readable := by
    refine ⟨old, hold, fun hsize => ?_, fun _ => hsame⟩
    have hnone : writtenBytes source size = [] := by
      cases source with
      | none => rfl
      | some data =>
          rw [writtenBytes, ← hsize]
          rfl
    rw [hnone, List.append_nil]
    exact hsame
  cursors := fun _ => unique_cursors answers.lost v
  quiet := hfaults

/-- Without the block, a write that is refused ends at the check of the writer. -/
theorem atomic_of_refused (hv : v.Valid) (ha : ¬ v.GoesThrough answers source size) :
    v.Atomic source size (v.writeBytes answers source size)
      ↔ v.KeepsBlock answers ∨ v.writerIndex = 0 := by
  rw [writeBytes_refused ha]
  constructor
  · intro h
    by_cases hkeeps : v.KeepsBlock answers
    · exact .inl hkeeps
    · have hquiet := h.quiet
      rw [room_of_not_keepsBlock hkeeps] at hquiet
      dsimp only at hquiet
      split at hquiet
      · rename_i hzero
        exact .inr (BitVec.eq_of_toNat_eq (Nat.le_zero.mp hzero))
      · exact absurd hquiet (by simp)
  · intro h
    rcases h with hkeeps | hzero
    · obtain ⟨cells, hcells⟩ := Option.isSome_iff_exists.mp hkeeps.1
      have hregion := readableRegion_some hcells
      refine .of_same hregion (by rw [unique_of_keepsBlock hkeeps]; exact hregion) ?_
      rw [unique_of_keepsBlock hkeeps, hcells]
      exact if_pos (hv.writer_le cells hcells)
    · have hread : v.readerIndex = v.writerIndex := by
        have hle := hv.toNat_le
        rw [hzero] at hle ⊢
        exact BitVec.eq_of_toNat_eq (Nat.le_zero.mp hle)
      have hnone := hv.readable_eq_zero.mpr hread
      refine .of_same (readableRegion_empty hnone)
        (readableRegion_empty (by rw [readable_unique]; exact hnone)) ?_
      rw [hzero]
      exact if_pos (Nat.zero_le _)

/-- What is readable after a write that goes through. -/
theorem readableRegion_write (hv : v.Valid) {cells : Region}
    (hroom : v.writerIndex.toNat + size.toNat ≤ cells.length)
    (hsum : (v.writerIndex + size).toNat = v.writerIndex.toNat + size.toNat)
    (data : ℕ → UInt8) :
    readableRegion ⟨v.readerIndex, v.writerIndex + size,
        some (splice cells v.writerIndex.toNat (sourceBytes data size))⟩
      = some (slice cells v.readerIndex.toNat (v.writerIndex.toNat - v.readerIndex.toNat)
          ++ sourceBytes data size) := by
  have hle := hv.toNat_le
  have hlen : (sourceBytes data size).length = size.toNat := length_sourceBytes data size
  have hafter : (⟨v.readerIndex, v.writerIndex + size,
      some (splice cells v.writerIndex.toNat (sourceBytes data size))⟩ : View).Valid := by
    refine ⟨BitVec.le_def.mpr (by dsimp only; omega), fun cells' hcells' => ?_⟩
    obtain rfl := Option.some.inj hcells'
    rw [length_splice (by rw [hlen]; exact hroom), hsum]
    exact hroom
  rw [readableRegion_some rfl, hafter.toNat_readable]
  dsimp only
  rw [hsum, ← slice_splice_append hle (by rw [hlen]; exact hroom), hlen]
  congr 2
  omega

/-- A write to a block that is kept. -/
theorem atomic_of_keepsBlock (hv : v.Valid) (hkeeps : v.KeepsBlock answers) :
    v.Atomic source size (v.writeBytes answers source size) := by
  by_cases ha : v.GoesThrough answers source size
  · obtain ⟨data, cells, extra, rfl, hcells, hroom, hsum, heq⟩ := writeBytes_accepted ha
    obtain ⟨c, hc⟩ := Option.isSome_iff_exists.mp hkeeps.1
    have hle := hv.toNat_le
    have hfits := hv.writer_le c hc
    rw [unique_of_keepsBlock hkeeps, hc, Option.getD_some] at hcells
    have hregion := readableRegion_write hv hroom hsum data
    rw [hcells, slice_append_left (by omega), ← hcells, ← hv.toNat_readable] at hregion
    rw [heq]
    exact ⟨.inl rfl, ⟨_, readableRegion_some hc, fun _ => hregion,
      fun hzero => absurd hzero ha.2.1⟩, fun hzero => absurd hzero ha.2.1, rfl⟩
  · exact (atomic_of_refused hv ha).mpr (.inl hkeeps)

/-- A write that goes through appends, to the old bytes or to cells nothing was written to. -/
theorem atomic_of_accepted (hv : v.Valid) (hw : v.Written)
    (ha : v.GoesThrough answers source size) :
    v.Atomic source size (v.writeBytes answers source size)
      ↔ v.KeepsBlock answers ∨ v.readerIndex = v.writerIndex := by
  constructor
  · intro h
    by_contra hno
    obtain ⟨hkeeps, hne⟩ := not_or.mp hno
    have hle := hv.toNat_le
    have hlt : v.readerIndex.toNat < v.writerIndex.toNat :=
      Nat.lt_of_le_of_ne hle fun h => hne (BitVec.eq_of_toNat_eq h)
    obtain ⟨data, cells, extra, rfl, hcells, hroom, hsum, heq⟩ := writeBytes_accepted ha
    obtain ⟨old, hold, happend, -⟩ := h.readable
    rw [heq] at happend
    have hnew := happend rfl
    dsimp only at hnew
    rw [readableRegion_write hv hroom hsum, writtenBytes] at hnew
    have hsame := List.append_cancel_right (Option.some.inj hnew)
    cases hb : v.block with
    | none =>
        rw [readableRegion, hb] at hold
        dsimp only at hold
        rw [if_neg (fun hzero => hne (hv.readable_eq_zero.mp hzero))] at hold
        exact absurd hold (by simp)
    | some c =>
        -- the last byte was written, and the block that took the place of the old one is blank
        obtain ⟨x, hx⟩ := hw c hb (by omega)
        rw [readableRegion_some hb, hv.toNat_readable] at hold
        rw [← Option.some.inj hold] at hsame
        have hlast := congrArg (fun l : Region =>
          l[v.writerIndex.toNat - v.readerIndex.toNat - 1]?) hsame
        simp only [getElem?_slice] at hlast
        rw [if_pos (by omega), if_pos (by omega), show v.readerIndex.toNat
          + (v.writerIndex.toNat - v.readerIndex.toNat - 1) = v.writerIndex.toNat - 1 by omega,
          hx, hcells, room_of_not_keepsBlock hkeeps, Option.getD_none, List.nil_append,
          List.getElem?_replicate] at hlast
        split at hlast
        · exact absurd hlast (by simp)
        · exact absurd hlast (by simp)
  · intro h
    rcases h with hkeeps | heq'
    · exact atomic_of_keepsBlock hv hkeeps
    · obtain ⟨data, cells, extra, rfl, -, hroom, hsum, heq⟩ := writeBytes_accepted ha
      have hregion := readableRegion_write hv hroom hsum data
      rw [heq', Nat.sub_self, slice_zero] at hregion
      rw [heq, heq']
      exact ⟨.inl rfl, ⟨[], readableRegion_empty (hv.readable_eq_zero.mpr heq'),
        fun _ => hregion, fun hzero => absurd hzero ha.2.1⟩, fun hzero => absurd hzero ha.2.1, rfl⟩

/-- When a write is all or nothing. -/
theorem atomic_iff (hv : v.Valid) (hw : v.Written) :
    v.Atomic source size (v.writeBytes answers source size)
      ↔ v.KeepsBlock answers
        ∨ (v.GoesThrough answers source size ∧ v.readerIndex = v.writerIndex)
        ∨ (¬ v.GoesThrough answers source size ∧ v.writerIndex = 0) := by
  by_cases ha : v.GoesThrough answers source size
  · rw [atomic_of_accepted hv hw ha]
    simp [ha]
  · rw [atomic_of_refused hv ha]
    simp [ha]

end View

/-! ## On the machine -/

section

variable {ι κ : Type} [DecidableEq ι] [DecidableEq κ] [Fintype ι] {a : ByteBufferAllocator}
  {s : Machine ι κ} {st : Status ι κ} {i : ι} {view : View} {source : Option (ℕ → UInt8)}
  {size : Size}

/-- `writeBytes` on variable `i` returns `size` and appends, or returns 0 and changes nothing;
no other buffer changes, and no assertion fails. -/
def WriteIsAtomic (a : ByteBufferAllocator) (s : Machine ι κ) (i : ι)
    (source : Option (ℕ → UInt8)) (size : Size) : Prop :=
  ∃ s' result view view' old, s.bufferStep a (.writeBytes i source size) = some (s', result)
    ∧ s.view i = .holds view ∧ s'.view i = .holds view' ∧ view.readableRegion = some old
    ∧ (result.size = size ∨ result.size = 0)
    ∧ (result.size = size → view'.readableRegion = some (old ++ writtenBytes source size))
    ∧ (result.size = 0 → view'.readerIndex = view.readerIndex
        ∧ view'.writerIndex = view.writerIndex ∧ view'.readableRegion = some old)
    ∧ (∀ j, j ≠ i → s'.view j = s.view j)
    ∧ s'.memory.faults = s.memory.faults

theorem writeIsAtomic_iff (hs : s.Good) (hview : s.view i = .holds view) :
    WriteIsAtomic a s i source size
      ↔ view.Atomic source size (view.writeBytes (s.answers a i) source size) := by
  obtain ⟨s', hstep, hfollows⟩ := writeBytes_does hs hview source size (a := a)
  have hself : s'.view i = .holds (view.writeBytes (s.answers a i) source size).view := by
    rw [hfollows.view, Function.update_self]
  constructor
  · intro h
    obtain ⟨s₁, result, view₁, view', old, hstep₁, hview₁, hview', hold, hreturns, happend, hsame,
      -, hfaults⟩ := h
    obtain rfl : view = view₁ := Variable.holds.inj (hview.symm.trans hview₁)
    obtain ⟨rfl, rfl⟩ := Prod.mk.inj (Option.some.inj (hstep₁.symm.trans hstep))
    obtain rfl : _ = view' := Variable.holds.inj (hself.symm.trans hview')
    refine ⟨hreturns, ⟨old, hold, happend, fun hzero => (hsame hzero).2.2⟩,
      fun hzero => ⟨(hsame hzero).1, (hsame hzero).2.1⟩, ?_⟩
    rw [hfollows.faults] at hfaults
    exact List.append_right_eq_self.mp hfaults
  · intro h
    obtain ⟨old, hold, happend, hsame⟩ := h.readable
    refine ⟨s', _, view, _, old, hstep, hview, hself, hold, h.returns, happend,
      fun hzero => ⟨(h.cursors hzero).1, (h.cursors hzero).2, hsame hzero⟩, fun j hj => ?_, ?_⟩
    · rw [hfollows.view, Function.update_of_ne hj]
    · rw [hfollows.faults, h.quiet, List.append_nil]

/-- **When a write is atomic.** In every state that a legal program reaches, with fewer than 2^32
handles on each block all along (`hfew`: the count is a `uint32_t`) and without a copy from a null
pointer on the way (`hquiet`), whatever the allocator answers: exactly when the buffer keeps its
block through the split, or has nothing to lose. -/
theorem writeBytes_atomic_iff (a : ByteBufferAllocator) (ops : List (ProgramOp ι κ))
    (hlegal : run statusStep .start ops = some st) (hfew : FewHandlesAlong a .start ops)
    (hrun : run (Machine.next a) .start ops = some s) (hquiet : Fault.source ∉ s.memory.faults)
    (hview : s.view i = .holds view) (source : Option (ℕ → UInt8)) (size : Size) :
    WriteIsAtomic a s i source size
      ↔ view.KeepsBlock (s.answers a i)
        ∨ (view.GoesThrough (s.answers a i) source size ∧ view.readerIndex = view.writerIndex)
        ∨ (¬ view.GoesThrough (s.answers a i) source size ∧ view.writerIndex = 0) := by
  obtain ⟨s₁, hrun₁, hs⟩ := run_lawful start_lawful hlegal hfew
  obtain rfl : s = s₁ := Option.some.inj (hrun.symm.trans hrun₁)
  rw [writeIsAtomic_iff hs.good hview]
  exact View.atomic_iff (hs.good.valid i view hview) (hs.written hquiet i view hview)

end

/-- A buffer with one byte, and a copy of it. -/
def sharedByte {ι : Type} (i copy : ι) : List (ProgramOp ι Empty) :=
  [.buffer (.construct i 1), .buffer (.writeBytes i (some fun _ => 7) 1),
    .buffer (.copyConstruct copy i)]

/-- With an allocator that grants everything, the hypotheses are met and the copy keeps its
block. -/
theorem writeBytes_atomic_iff_granting :
    ∃ s view, run (Machine.next .granting) .start (sharedByte (0 : Fin 2) 1) = some s ∧ s.view 1 = .holds view
      ∧ (WriteIsAtomic .granting s 1 (some fun _ => 8) 1 ↔ view.KeepsBlock (s.answers .granting 1)
        ∨ (view.GoesThrough (s.answers .granting 1) (some fun _ => 8) 1
          ∧ view.readerIndex = view.writerIndex)
        ∨ (¬ view.GoesThrough (s.answers .granting 1) (some fun _ => 8) 1
          ∧ view.writerIndex = 0)) := by
  obtain ⟨s, hrun⟩ : ∃ s, run (Machine.next .granting) .start (sharedByte (0 : Fin 2) 1) = some s := ⟨_, rfl⟩
  obtain ⟨view, hview⟩ : ∃ view, s.view 1 = .holds view := ⟨_, by rw [← Option.some.inj hrun]; rfl⟩
  exact ⟨s, view, hrun, hview, writeBytes_atomic_iff .granting (sharedByte 0 1) rfl
    (fewHandlesAlong_of_card (by decide) _ _ _) hrun
    (by rw [← Option.some.inj hrun]; decide) hview _ _⟩

/-- An allocator that refuses its second request and grants all others. -/
def ByteBufferAllocator.refusing : ByteBufferAllocator := ⟨fun n => n ≠ 1, fun _ => .inPlace⟩

/-- The second request is the one of the split: the write of one byte to the copy returns 1, and
the byte that was there is gone. -/
theorem write_loses_shared_bytes :
    ∃ s, run (Machine.next .refusing) .start (sharedByte (0 : Fin 2) 1) = some s
      ∧ ¬ WriteIsAtomic .refusing s 1 (some fun _ => 8) 1 := by
  have hlegal : ∃ st, run statusStep .start (sharedByte (0 : Fin 2) 1) = some st := ⟨_, rfl⟩
  obtain ⟨st, hst⟩ := hlegal
  obtain ⟨s, hrun, hs⟩ := run_lawful (a := .refusing) start_lawful hst
    (fewHandlesAlong_of_card (by decide) _ _ _)
  have hview : s.view 1 = .holds ⟨0, 1, some [some 7]⟩ := by rw [← Option.some.inj hrun]; rfl
  have hquiet : Fault.source ∉ s.memory.faults := by rw [← Option.some.inj hrun]; decide
  have hlost : (s.answers .refusing 1).lost = true := by rw [← Option.some.inj hrun]; rfl
  refine ⟨s, hrun, ?_⟩
  rw [writeIsAtomic_iff hs.good hview,
    View.atomic_iff (hs.good.valid 1 _ hview) (hs.written hquiet 1 _ hview)]
  simp [View.KeepsBlock, hlost]

end NPFoundation
