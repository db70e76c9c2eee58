import NPFoundation.ByteBuffer.Atomicity

/-!
# The cursors and the block

A buffer's cursors should stay within its block: `readerIndex ≤ writerIndex ≤ capacity()`,
and a block that is there as soon as anything was written. The first half holds whatever
the allocator does. The second is lost where a split loses the block under the cursors,
and only there: `Safe` is the condition on one step, and a program all of whose steps meet
it never fails an assertion and never copies from outside of a block.
-/

namespace NPFoundation

open Slice CopyOnWrite CopyOnWrite.Store Transition

namespace View

variable {ι : Type} {v : View} {answers : Answers}

/-- What was written has a block to be in. -/
def Intact (v : View) : Prop := v.block = none → v.writerIndex = 0

/-- Whether a call goes through `unique()`. -/
def callsUnique (v : View) : BufferOp ι → Prop
  | .writeBytes _ _ _ => True
  | .writeString _ _ => True
  | .writeCString _ cString => cString.isSome
  | .discardReadBytes _ => v.readerIndex ≠ 0 ∧ v.readable ≠ 0
  | .mutableBytes _ => True
  | .store _ _ _ => True
  | _ => False

/-- The source and the size of a write. -/
def writeOf : BufferOp ι → Option (Option (ℕ → UInt8) × Size)
  | .writeBytes _ source size => some (source, size)
  | .writeString _ string => some (string.source, string.size)
  | .writeCString _ (some cString) => some (cString.source, cString.strlen)
  | _ => none

/-- If this call loses the block, then nothing was written to the buffer, or the call is a write
that goes through and so gets a new one. A byte is only stored between the cursors. -/
structure Safe (answers : Answers) (v : View) (op : BufferOp ι) : Prop where
  split : v.callsUnique op → answers.lost = true →
    v.writerIndex = 0 ∨ ∃ write, writeOf op = some write ∧ v.GoesThrough answers write.1 write.2
  inside : ∀ i k value, op = .store i k value → k.toNat < v.readable.toNat

theorem intact_empty (c : Option Region) : (⟨0, 0, c⟩ : View).Intact := fun _ => rfl

theorem intact_some {readerIndex writerIndex : Size} {cells : Region} :
    (⟨readerIndex, writerIndex, some cells⟩ : View).Intact := fun h => absurd h (by simp)

/-- An intact view has room for what was written. -/
theorem Intact.room (h : v.Intact) (hv : v.Valid) : v.writerIndex.toNat ≤ roomOf v.block := by
  cases hb : v.block with
  | none =>
      rw [h hb]
      exact Nat.zero_le _
  | some cells => exact hv.writer_le cells hb

theorem Intact.unique (h : v.Intact) (hlost : answers.lost = true → v.writerIndex = 0) :
    (v.unique answers.lost).Intact := by
  intro hnone
  rw [(unique_cursors answers.lost v).2]
  cases hcase : answers.lost with
  | true => exact hlost hcase
  | false =>
      rw [hcase] at hnone
      exact h hnone

theorem Intact.writeBytes (h : v.Intact) (hv : v.Valid) {source : Option (ℕ → UInt8)} {size : Size}
    (hsafe : answers.lost = true → v.writerIndex = 0 ∨ v.GoesThrough answers source size) :
    (v.writeBytes answers source size).faults = []
      ∧ (v.writeBytes answers source size).view.Intact := by
  by_cases ha : v.GoesThrough answers source size
  · obtain ⟨data, cells, -, -, -, -, -, heq⟩ := writeBytes_accepted ha
    rw [heq]
    exact ⟨rfl, intact_some⟩
  · have hkept : (v.unique answers.lost).Intact :=
      h.unique fun hlost => (hsafe hlost).resolve_right ha
    have hroom := hkept.room (hv.unique answers.lost)
    rw [(unique_cursors answers.lost v).2] at hroom
    rw [writeBytes_refused ha]
    exact ⟨if_pos hroom, hkept⟩

theorem Intact.readable_eq_zero (h : v.Intact) (hv : v.Valid) (hb : v.block = none) :
    v.readable = 0 := by
  have hle := hv.toNat_le
  rw [hv.readable_eq_zero]
  rw [h hb] at hle ⊢
  exact BitVec.eq_of_toNat_eq (Nat.le_zero.mp hle)

theorem Intact.readString (h : v.Intact) (hv : v.Valid) (size : Size) :
    (v.readString size).faults = [] ∧ (v.readString size).view.Intact := by
  unfold View.readString
  dsimp only
  split
  · exact ⟨rfl, h⟩
  · rename_i hb
    have hzero : minimumOf size v.readable = 0 := by
      rw [h.readable_eq_zero hv hb]
      apply BitVec.eq_of_toNat_eq
      rw [toNat_minimumOf]
      exact Nat.min_zero _
    rw [if_pos hzero]
    exact ⟨rfl, h⟩

theorem Intact.discardReadBytes (h : v.Intact) (hv : v.Valid)
    (hsafe : v.readerIndex ≠ 0 ∧ v.readable ≠ 0 → answers.lost = true → v.writerIndex = 0) :
    (v.discardReadBytes answers).faults = [] ∧ (v.discardReadBytes answers).view.Intact := by
  unfold View.discardReadBytes
  split
  · exact ⟨rfl, h⟩
  rename_i hreader
  split
  · exact ⟨rfl, intact_empty _⟩
  rename_i hreadable
  split
  · exact ⟨rfl, intact_some⟩
  · -- there is something to read, so there is a block
    rename_i hnone
    have hkept := h.unique (hsafe ⟨hreader, hreadable⟩)
    have hzero := hkept.readable_eq_zero (hv.unique answers.lost) hnone
    rw [readable_unique] at hzero
    exact absurd hzero hreadable

theorem Intact.store (h : v.Intact) (hv : v.Valid) {k : Size}
    (hsafe : answers.lost = true → v.writerIndex = 0) (hk : k.toNat < v.readable.toNat)
    (value : UInt8) :
    (v.store answers k value).faults = [] ∧ (v.store answers k value).view.Intact := by
  have hkept := h.unique hsafe
  have hreadable := hv.toNat_readable
  have hle := hv.toNat_le
  unfold View.store
  split
  · rename_i cells hcells
    have hroom := hv.writer_le cells (block_of_unique hcells)
    have hsum : (v.readerIndex + k).toNat = v.readerIndex.toNat + k.toNat :=
      hv.toNat_advance (by omega)
    rw [if_pos (by omega)]
    exact ⟨rfl, intact_some⟩
  · rename_i hnone
    have hzero := hkept.readable_eq_zero (hv.unique answers.lost) hnone
    rw [readable_unique] at hzero
    rw [hzero] at hk
    exact absurd hk (Nat.not_lt_zero _)

/-- A safe call goes well and leaves an intact view. -/
theorem Intact.act (h : v.Intact) (hv : v.Valid) {op : BufferOp ι} (hsafe : v.Safe answers op) :
    (v.act answers op).faults = [] ∧ (v.act answers op).view.Intact := by
  -- a call that is no write must not lose anything
  have hzero : v.callsUnique op → writeOf op = none → answers.lost = true → v.writerIndex = 0 := by
    intro hcalls hnone hlost
    rcases hsafe.split hcalls hlost with hz | ⟨write, hwrite, -⟩
    · exact hz
    · rw [hnone] at hwrite
      exact absurd hwrite (by simp)
  have hwrites : ∀ source size, v.callsUnique op → writeOf op = some (source, size) →
      answers.lost = true → v.writerIndex = 0 ∨ v.GoesThrough answers source size := by
    intro source size hcalls hsome hlost
    rcases hsafe.split hcalls hlost with hz | ⟨write, hwrite, hgoes⟩
    · exact .inl hz
    · obtain rfl := Option.some.inj (hsome.symm.trans hwrite)
      exact .inr hgoes
  cases op with
  | writeBytes i source size => exact h.writeBytes hv (hwrites source size trivial rfl)
  | writeString i string => exact h.writeBytes hv (hwrites _ _ trivial rfl)
  | writeCString i cString =>
      cases cString with
      | none => exact ⟨rfl, h⟩
      | some cString => exact h.writeBytes hv (hwrites _ _ rfl rfl)
  | readBytes i destination size =>
      simp only [View.act]
      unfold View.readBytes
      split
      · exact ⟨rfl, h⟩
      · exact ⟨rfl, h⟩
  | readString i size => exact h.readString hv size
  | discardReadBytes i => exact h.discardReadBytes hv fun hcalls => hzero hcalls rfl
  | clear i => exact ⟨rfl, intact_empty _⟩
  | mutableBytes i => exact ⟨rfl, h.unique (hzero trivial rfl)⟩
  | store i k value => exact h.store hv (hzero trivial rfl) (hsafe.inside i k value rfl) value
  | _ => exact ⟨rfl, h⟩

end View

/-! ## Programs of safe steps -/

section

variable {ι κ : Type} [DecidableEq ι] [DecidableEq κ] [Fintype ι] {a : ByteBufferAllocator}
  {s : Machine ι κ} {st st' : Status ι κ}

/-- A step of a program, taken in state `s`, is safe. -/
def SafeStep (a : ByteBufferAllocator) (s : Machine ι κ) : ProgramOp ι κ → Prop
  | .buffer op => ∀ view, s.view op.target = .holds view → view.Safe (s.answers a op.target) op
  | .storage _ => True

/-- A lawful machine on which nothing has gone wrong. -/
structure Sound (s : Machine ι κ) (st : Status ι κ) : Prop where
  lawful : Lawful s st
  quiet : s.memory.faults = []
  intact : AllViews View.Intact s.view

theorem step_sound (hs : Sound s st) {op : ProgramOp ι κ} (h : statusStep st op = some st')
    (hfew : ∀ s', s.next a op = some s' → FewHandles s'.handles) (hsafe : SafeStep a s op) :
    ∃ s', s.next a op = some s' ∧ Sound s' st' := by
  obtain ⟨s', hs', hlawful⟩ := step_lawful hs.lawful h hfew
  suffices hrest : s'.memory.faults = [] ∧ AllViews View.Intact s'.view from
    ⟨s', hs', hlawful, hrest.1, hrest.2⟩
  cases op with
  | buffer op =>
      obtain ⟨v', hv', -⟩ := Option.map_eq_some_iff.mp h
      obtain ⟨v₁, result, faults, hstep, -⟩ :=
        privateStep_of_status (s.answers a op.target) hs.lawful.buffers hv'
      obtain ⟨s₁, hs₁, -, hview, hfaults, -⟩ := bufferStep_refines hs.lawful.good hstep
        fun s' result hs' => hfew s' (by rw [Machine.next, Machine.step, hs']; rfl)
      obtain rfl : s₁ = s' := by
        rw [Machine.next, Machine.step, hs₁] at hs'
        exact Option.some.inj hs'
      have hact := fun view hview => (hs.intact op.target view hview).act
        (hs.lawful.good.valid op.target view hview) (hsafe view hview)
      have hquiet := privateStep_quiet (fun view hview => (hact view hview).1) hstep
      refine ⟨by rw [hfaults, hs.quiet, hquiet]; rfl, ?_⟩
      rw [hview]
      exact hs.intact.privateStep (fun _ _ _ => View.intact_empty _)
        (fun view hview _ => (hact view hview).2) hstep
  | storage op =>
      obtain ⟨v', hv', -⟩ := Option.map_eq_some_iff.mp h
      rw [← hs.lawful.storages] at hv'
      obtain ⟨s₁, result, hs₁, -, hview, hfaults, -⟩ :=
        storageStep_good hs.lawful.good hv' (a := a)
      obtain rfl : s₁ = s' := by
        rw [Machine.next, Machine.step, hs₁] at hs'
        exact Option.some.inj hs'
      exact ⟨hfaults.trans hs.quiet, by rw [hview]; exact hs.intact⟩

theorem run_sound (hs : Sound s st) {ops : List (ProgramOp ι κ)}
    (h : run statusStep st ops = some st') (hfew : FewHandlesAlong a s ops)
    (hsafe : Along (Machine.next a) (SafeStep a) s ops) :
    ∃ s', run (Machine.next a) s ops = some s' ∧ Sound s' st' := by
  induction ops generalizing s st with
  | nil =>
      rw [run_nil, Option.some.injEq] at h
      exact ⟨s, rfl, h ▸ hs⟩
  | cons op ops ih =>
      obtain ⟨st₁, hst₁, hrest⟩ := run_cons_some.mp h
      obtain ⟨s₁, hs₁, hsound₁⟩ := step_sound hs hst₁ hfew.1 hsafe.1
      obtain ⟨s₂, hs₂, hsound₂⟩ := ih hsound₁ hrest ((along_cons hs₁).mp hfew).2
        ((along_cons hs₁).mp hsafe).2
      exact ⟨s₂, run_cons_some.mpr ⟨s₁, hs₁, hs₂⟩, hsound₂⟩

omit [DecidableEq ι] [DecidableEq κ] in
theorem start_sound : Sound (Machine.start : Machine ι κ) .start :=
  ⟨start_lawful, rfl, fun _ _ h => absurd h (by simp [Machine.view, Machine.start, viewOf])⟩

/-- The cursors of a buffer are in order and within its block, which is there as soon as
something was written. -/
def CursorsWithin (s : Machine ι κ) (i : ι) : Prop :=
  ∀ buffer storage, s.buffers i = some buffer → buffer.read s.store = some storage →
    buffer.readerIndex ≤ buffer.writerIndex ∧ buffer.writerIndex ≤ storage.capacity
      ∧ (0 < buffer.writerIndex → storage.bytes.isSome)

omit [DecidableEq ι] [DecidableEq κ] in
theorem Sound.cursorsWithin (hs : Sound s st) (i : ι) : CursorsWithin s i := by
  intro buffer storage hi hread
  have hview : s.view i = .holds ⟨buffer.readerIndex, buffer.writerIndex,
      storage.contents s.memory⟩ := by
    rw [Machine.view, hi, viewOf, hread]
    rfl
  have hvalid := hs.lawful.good.valid i _ hview
  have hintact := hs.intact i _ hview
  obtain ⟨buffer', b, e, hi', hb, he, -⟩ := view_holds hview
  obtain rfl : buffer = buffer' := Option.some.inj (hi.symm.trans hi')
  obtain rfl : storage = e := by
    rw [ByteBuffer.read, hb] at hread
    exact Option.some.inj (hread.symm.trans he)
  have howner : owners s.store s.storages (.inl b) = some storage := he
  obtain ⟨hcapacity, hsome⟩ := hs.lawful.good.owned.capacity_eq howner
  refine ⟨hvalid.reader_le, BitVec.le_def.mpr ?_, fun hpos => ?_⟩
  · rw [hcapacity]
    exact hintact.room hvalid
  · rw [hsome]
    by_contra hnone
    have hzero := hintact (Option.not_isSome_iff_eq_none.mp hnone)
    dsimp only at hzero
    rw [hzero] at hpos
    exact absurd hpos (by simp)

omit [DecidableEq κ] in
/-- `readBytes` to a destination returns what was asked for, or all there is. -/
theorem Sound.readBytes (hs : Sound s st) {i : ι} {buffer : ByteBuffer}
    {storage : ByteBufferStorage} (hi : s.buffers i = some buffer)
    (hread : buffer.read s.store = some storage) (size : Size) :
    ∃ store buffer' data, buffer.readBytes s.store true size
      = some (store, buffer', ⟨minimumOf size buffer.readableBytes, data⟩) := by
  have hview : s.view i = .holds ⟨buffer.readerIndex, buffer.writerIndex,
      storage.contents s.memory⟩ := by
    rw [Machine.view, hi, viewOf, hread]
    rfl
  have hvalid := hs.lawful.good.valid i _ hview
  obtain ⟨s', hstep, -⟩ := readBytes_does hs.lawful.good hview true size
  simp only [Machine.onBuffer, hi] at hstep
  obtain ⟨⟨store, buffer', result⟩, hcall, heq⟩ := Option.map_eq_some_iff.mp hstep
  have hresult : result.size = minimumOf size buffer.readableBytes := by
    have hout : result = (View.readBytes _ true size).result := (Prod.mk.inj heq).2
    rw [hout]
    unfold View.readBytes
    split
    · rfl
    · -- no block: nothing to read either
      rename_i hno
      have hnone : storage.contents s.memory = none := by
        cases hc : storage.contents s.memory with
        | none => rfl
        | some cells => exact absurd rfl (hno cells hc)
      have hzero := (hs.intact i _ hview).readable_eq_zero hvalid hnone
      have hzero' : buffer.readableBytes = 0 := hzero
      rw [hzero']
      apply BitVec.eq_of_toNat_eq
      rw [toNat_minimumOf]
      exact (Nat.min_zero _).symm
  exact ⟨store, buffer', result.data, by rw [hcall, ← hresult]⟩

/-- **The cursor invariant.** In a program whose steps are all safe, whatever the allocator
answers, no assertion fails and nothing is copied from outside of a block; and in the state it
reaches every buffer's cursors are within its block, and every `readBytes` to a destination
returns the lesser of its size and what is readable. -/
theorem cursors_within_of_safe (a : ByteBufferAllocator) (ops : List (ProgramOp ι κ))
    (hlegal : run statusStep .start ops = some st) (hfew : FewHandlesAlong a .start ops)
    (hsafe : Along (Machine.next a) (SafeStep a) .start ops) :
    ∃ s, run (Machine.next a) .start ops = some s ∧ s.memory.faults = []
      ∧ (∀ i, CursorsWithin s i)
      ∧ ∀ i buffer storage size, s.buffers i = some buffer → buffer.read s.store = some storage →
        ∃ store buffer' data, buffer.readBytes s.store true size
          = some (store, buffer', ⟨minimumOf size buffer.readableBytes, data⟩) := by
  obtain ⟨s, hrun, hs⟩ := run_sound start_sound hlegal hfew hsafe
  exact ⟨s, hrun, hs.quiet, hs.cursorsWithin, fun _ _ _ size hi hread => hs.readBytes hi hread size⟩

end

/-- With an allocator that meets every `allocate`, each call but a store is safe. -/
theorem safeStep_granting {ι κ : Type} (s : Machine ι κ) {op : ProgramOp ι κ}
    (hstore : ∀ i k value, op ≠ .buffer (.store i k value)) : SafeStep .granting s op := by
  cases op with
  | storage op => trivial
  | buffer op =>
      intro view _
      refine ⟨fun _ hlost => ?_, fun i k value heq => absurd (congrArg _ heq) (hstore i k value)⟩
      rw [answers_kept (fun _ => rfl)] at hlost
      exact absurd hlost (by simp)

theorem cursors_within_of_safe_granting :
    ∃ s, run (Machine.next .granting) .start (sharedByte (0 : Fin 2) 1 ++ [.buffer (.mutableBytes 1)]) = some s
      ∧ s.memory.faults = [] ∧ ∀ i, CursorsWithin s i := by
  have hsafe : Along (Machine.next .granting) (SafeStep .granting) .start
      (sharedByte (0 : Fin 2) 1 ++ [.buffer (.mutableBytes 1)]) := by
    refine Along.mono (fun s op => safeStep_granting s)
      (along_of_forall (C := fun op : ProgramOp (Fin 2) Empty =>
        ∀ i k value, op ≠ .buffer (.store i k value)) _ ?_)
    simp [sharedByte]
  obtain ⟨s, hrun, hquiet, hwithin, -⟩ := cursors_within_of_safe .granting
    (sharedByte (0 : Fin 2) 1 ++ [.buffer (.mutableBytes 1)]) rfl (fewHandlesAlong_of_card (by decide) _ _ _) hsafe
  exact ⟨s, hrun, hquiet, hwithin⟩

/-- `mutableBytes()` on the copy, with the allocator refusing the split its block: one byte was
written, and there is no room for it. -/
theorem cursors_beyond_lost_block :
    ∃ s buffer storage,
      run (Machine.next .refusing) .start (sharedByte (0 : Fin 2) 1 ++ [.buffer (.mutableBytes 1)]) = some s
      ∧ s.buffers 1 = some buffer ∧ buffer.read s.store = some storage
      ∧ buffer.writerIndex = 1 ∧ storage.capacity = 0 ∧ storage.bytes = none
      ∧ ¬ CursorsWithin s 1 := by
  obtain ⟨s, hrun⟩ : ∃ s, run (Machine.next .refusing) .start
      (sharedByte (0 : Fin 2) 1 ++ [.buffer (.mutableBytes 1)]) = some s := ⟨_, rfl⟩
  have hbuffer : s.buffers 1 = some ⟨0, 1, some 1⟩ := by rw [← Option.some.inj hrun]; rfl
  have hread : ByteBuffer.read s.store ⟨0, 1, some 1⟩ = some ⟨none, 0⟩ := by
    rw [← Option.some.inj hrun]; rfl
  refine ⟨s, _, _, hrun, hbuffer, hread, rfl, rfl, rfl, fun hwithin => ?_⟩
  exact absurd (hwithin _ _ hbuffer hread).2.1 (by decide)

end NPFoundation
