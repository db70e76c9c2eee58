import NPFoundation.ByteBuffer.Calls

/-!
# What an allocator was not asked

A program sees of its allocator the answers that it got. Where none of them was a refusal, it
has done what it would have done with an allocator that refuses nothing at all: `willing` is
the same allocator but for its refusals, and `SameIfGranted` says of every function that a call
of which the log has no refusal is the same call with either of the two.

It takes that the log only grows: what was refused on the way is still there in the end.
-/

namespace NPFoundation

open CopyOnWrite CopyOnWrite.Store Transition

/-- Nothing was handed out. -/
def AllocatorCall.refused : AllocatorCall → Bool
  | .allocate _ none => true
  | .reallocate _ _ none => true
  | _ => false

namespace Memory

/-- No call was refused so far. -/
def Granted (m : Memory) : Prop := ∀ call ∈ m.log, call.refused = false

/-- The log was only added to. -/
def Continues (m m' : Memory) : Prop := ∃ calls, m'.log = m.log ++ calls

variable {m m' m'' : Memory}

theorem Continues.of_log_eq (h : m'.log = m.log) : m.Continues m' :=
  ⟨[], by rw [h, List.append_nil]⟩

theorem Continues.trans (h : m.Continues m') (h' : m'.Continues m'') : m.Continues m'' := by
  obtain ⟨calls, hlog⟩ := h
  obtain ⟨calls', hlog'⟩ := h'
  exact ⟨calls ++ calls', by rw [hlog', hlog, List.append_assoc]⟩

/-- A refusal is not forgotten. -/
theorem Granted.before (h : m'.Granted) (hlog : m.Continues m') : m.Granted := by
  obtain ⟨calls, hlog⟩ := hlog
  intro call hcall
  refine h call ?_
  rw [hlog]
  exact List.mem_append_left calls hcall

theorem not_granted {call : AllocatorCall} (hlog : m'.log = m.log ++ [call])
    (hrefused : call.refused = true) : ¬ m'.Granted := by
  intro h
  have hcall := h call (by rw [hlog]; exact List.mem_append_right _ List.mem_cons_self)
  exact absurd (hrefused.symm.trans hcall) (by simp)

end Memory

/-- The allocator was asked for something, but not to make a block longer. -/
def NoReallocate (m m' : Memory) : Prop :=
  ∃ calls, m'.log = m.log ++ calls ∧ ∀ p len q, AllocatorCall.reallocate p len q ∉ calls

section

variable {m m' m'' : Memory}

theorem NoReallocate.of_log_eq (h : m'.log = m.log) : NoReallocate m m' :=
  ⟨[], by rw [h, List.append_nil], fun _ _ _ => List.not_mem_nil⟩

theorem NoReallocate.trans (h : NoReallocate m m') (h' : NoReallocate m' m'') :
    NoReallocate m m'' := by
  obtain ⟨calls, hlog, hnone⟩ := h
  obtain ⟨calls', hlog', hnone'⟩ := h'
  refine ⟨calls ++ calls', by rw [hlog', hlog, List.append_assoc], fun p len q hmem => ?_⟩
  rcases List.mem_append.mp hmem with hmem | hmem
  · exact hnone p len q hmem
  · exact hnone' p len q hmem

theorem NoReallocate.continues (h : NoReallocate m m') : m.Continues m' := by
  obtain ⟨calls, hlog, -⟩ := h
  exact ⟨calls, hlog⟩

end

/-- The same allocator, but that it grants what it would have refused. -/
def ByteBufferAllocator.willing (a : ByteBufferAllocator) : ByteBufferAllocator where
  allocates _ := true
  reallocates n := if a.reallocates n = .fails then .inPlace else a.reallocates n

theorem willing_reallocates (a : ByteBufferAllocator) (n : ℕ) :
    a.willing.reallocates n ≠ .fails := by
  unfold ByteBufferAllocator.willing
  dsimp only
  split
  · simp
  · assumption

/-- A call from memory `m` on: `x` is what it does, and if nothing was refused by then, so is
`x'`. -/
def SameIfGranted {ρ : Type} (world : ρ → Memory) (m : Memory) (x x' : Option ρ) : Prop :=
  ∀ r, x = some r → m.Continues (world r) ∧ ((world r).Granted → x' = some r)

namespace SameIfGranted

variable {ρ τ : Type} {world : ρ → Memory} {world' : τ → Memory} {m : Memory} {x x' : Option ρ}

/-- Where the allocator is not asked. -/
theorem of_continues (h : ∀ r, x = some r → m.Continues (world r)) : SameIfGranted world m x x :=
  fun r hr => ⟨h r hr, fun _ => hr⟩

theorem of_log_eq (h : ∀ r, x = some r → (world r).log = m.log) : SameIfGranted world m x x :=
  of_continues fun r hr => .of_log_eq (h r hr)

theorem map (h : SameIfGranted world m x x') {f : ρ → τ}
    (hf : ∀ r, x = some r → (world r).Continues (world' (f r))) :
    SameIfGranted world' m (x.map f) (x'.map f) := by
  intro t ht
  obtain ⟨r, hr, rfl⟩ := Option.map_eq_some_iff.mp ht
  obtain ⟨hlog, hsame⟩ := h r hr
  refine ⟨hlog.trans (hf r hr), fun hgranted => ?_⟩
  rw [hsame (hgranted.before (hf r hr)), Option.map_some]

theorem unasked {β : Type} {q : Memory × β} (h : q.1.log = m.log) :
    SameIfGranted Prod.fst m (some q) (some q) :=
  of_log_eq fun r hr => by
    obtain rfl := Option.some.inj hr
    exact h

/-- What is made of an answer. -/
theorem of_answer {α β : Type} {q q' : Memory × α} {t t' : Memory × β}
    (h : SameIfGranted Prod.fst m (some q) (some q')) (hlog : q.1.Continues t.1)
    (hsame : q' = q → t' = t) : SameIfGranted Prod.fst m (some t) (some t') := by
  intro r hr
  obtain rfl := Option.some.inj hr
  obtain ⟨hlog', hsame'⟩ := h q rfl
  refine ⟨hlog'.trans hlog, fun hgranted => ?_⟩
  rw [hsame (Option.some.inj (hsame' (hgranted.before hlog)))]

end SameIfGranted

/-! ## The hooks and the storages -/

section

variable (a : ByteBufferAllocator) (m : Memory)

theorem allocate_willing (len : Size) :
    SameIfGranted Prod.fst m (some (m.allocate a len)) (some (m.allocate a.willing len)) := by
  intro r hr
  obtain rfl := Option.some.inj hr
  have hwilling : a.willing.allocates m.requests = true := rfl
  unfold Memory.allocate
  rw [if_pos hwilling]
  cases ha : a.allocates m.requests with
  | true => exact ⟨⟨_, rfl⟩, fun _ => rfl⟩
  | false => exact ⟨⟨_, rfl⟩, fun h => absurd h (Memory.not_granted (m := m) rfl rfl)⟩

theorem reallocate_willing (p : Address) (len : Size) :
    SameIfGranted Prod.fst m (some (m.reallocate a p len)) (some (m.reallocate a.willing p len)) := by
  intro r hr
  obtain rfl := Option.some.inj hr
  unfold Memory.reallocate
  cases m.regions p with
  | none => exact ⟨⟨_, rfl⟩, fun _ => rfl⟩
  | some cells =>
      have hwilling : a.reallocates m.requests ≠ .fails →
          a.willing.reallocates m.requests = a.reallocates m.requests := fun h => if_neg h
      cases ha : a.reallocates m.requests with
      | fails => exact ⟨⟨_, rfl⟩, fun h => absurd h (Memory.not_granted (m := m) rfl rfl)⟩
      | inPlace =>
          rw [hwilling (by simp [ha]), ha]
          exact ⟨⟨_, rfl⟩, fun _ => rfl⟩
      | moves =>
          rw [hwilling (by simp [ha]), ha]
          exact ⟨⟨_, rfl⟩, fun _ => rfl⟩

variable {m} in
theorem assert_log (condition : Bool) (f : Fault) : (m.assert condition f).log = m.log :=
  (assert_faults m condition f).2.2.2

variable {m} in
theorem writeCells_log (p : Address) (offset : ℕ) (data : List (Option UInt8)) :
    (m.writeCells p offset data).log = m.log := by
  unfold Memory.writeCells
  split
  · split
    · rfl
    · rfl
  · rfl

variable {m} in
theorem copybytes_log (p : Address) (offset : ℕ) (source : ConstBytes) (len : ℕ) :
    (m.copybytes p offset source len).log = m.log := by
  unfold Memory.copybytes
  rw [writeCells_log, assert_log]

variable {m} in
theorem copyBytesTo_log (e : ByteBufferStorage) (destination : Bool) (size fromIndex : Size) :
    (e.copyBytesTo m destination size fromIndex).1.log = m.log := by
  unfold ByteBufferStorage.copyBytesTo
  split
  · rfl
  split
  · rfl
  dsimp only
  split
  · rfl
  · exact assert_log _ _

theorem construct_willing (capacity : Size) :
    SameIfGranted Prod.fst m (some (ByteBufferStorage.construct a m capacity))
      (some (ByteBufferStorage.construct a.willing m capacity)) := by
  have hasked := allocate_willing a m (nextPowerOf2ClampedToMax capacity)
  unfold ByteBufferStorage.construct
  dsimp only
  refine hasked.of_answer ?_ fun heq => by rw [heq]
  generalize m.allocate a (nextPowerOf2ClampedToMax capacity) = answer
  split
  · exact .of_log_eq rfl
  · exact .of_log_eq rfl

theorem copyConstruct_willing (e : ByteBufferStorage) :
    SameIfGranted Prod.fst m (some (e.copyConstruct a m)) (some (e.copyConstruct a.willing m)) := by
  unfold ByteBufferStorage.copyConstruct
  cases e.bytes with
  | none => exact .unasked rfl
  | some p =>
      dsimp only
      refine (allocate_willing a m e.capacity).of_answer ?_ fun heq => by rw [heq]
      generalize m.allocate a e.capacity = answer
      split
      · exact .of_log_eq rfl
      · exact .of_log_eq (copybytes_log _ _ _ _)

theorem reserve_willing (e : ByteBufferStorage) (n : Size) :
    SameIfGranted Prod.fst m (some (e.reserve a m n)) (some (e.reserve a.willing m n)) := by
  unfold ByteBufferStorage.reserve
  split
  · exact .unasked rfl
  dsimp only
  split
  · exact .unasked rfl
  cases e.bytes with
  | none =>
      -- the first block is allocated
      dsimp only
      refine (allocate_willing a m _).of_answer ?_ fun heq => by rw [heq]
      generalize m.allocate a _ = answer
      split
      · exact .of_log_eq rfl
      · exact .of_log_eq rfl
  | some p =>
      dsimp only
      refine (reallocate_willing a m p _).of_answer ?_ fun heq => by rw [heq]
      generalize m.reallocate a p _ = answer
      split
      · exact .of_log_eq rfl
      · exact .of_log_eq rfl

theorem setBytes_willing (e : ByteBufferStorage) (source : ConstBytes) (size atIndex : Size) :
    SameIfGranted Prod.fst m (some (e.setBytes a m source size atIndex))
      (some (e.setBytes a.willing m source size atIndex)) := by
  unfold ByteBufferStorage.setBytes
  split
  · exact .unasked rfl
  split
  · exact .unasked rfl
  refine (reserve_willing a m e (atIndex + size)).of_answer ?_ fun heq => by rw [heq]
  generalize e.reserve a m (atIndex + size) = reserved
  split
  · exact .of_log_eq rfl
  · split
    · exact .of_log_eq rfl
    · exact .of_log_eq (copybytes_log _ _ _ _)

end

/-! ## The buffers -/

section

variable {a : ByteBufferAllocator} {s s' : Storages}

theorem destruct_noReallocate (m : Memory) (e : ByteBufferStorage) :
    NoReallocate m (e.destruct m) := by
  unfold ByteBufferStorage.destruct
  split
  · exact .of_log_eq rfl
  · exact ⟨_, rfl, fun p len q => by simp⟩

theorem release_noReallocate {b : ℕ} (h : s.release (ByteBufferStorage.element a) b = some s') :
    NoReallocate s.world s'.world := by
  unfold Store.release at h
  split at h
  · exact absurd h (by simp)
  · split at h
    · obtain rfl := Option.some.inj h
      exact destruct_noReallocate _ _
    · obtain rfl := Option.some.inj h
      exact .of_log_eq rfl

theorem releaseIfAny_continues {p : Pointer}
    (h : s.releaseIfAny (ByteBufferStorage.element a) p = some s') :
    s.world.Continues s'.world := by
  cases p with
  | none =>
      obtain rfl := Option.some.inj h
      exact .of_log_eq rfl
  | some b => exact (release_noReallocate h).continues

theorem retain_world {b : ℕ} (h : s.retain b = some s') : s'.world = s.world := by
  unfold Store.retain at h
  split at h
  · exact absurd h (by simp)
  · obtain rfl := Option.some.inj h
    rfl

theorem copyAssign_continues {p q : Pointer} {r : Storages × Pointer}
    (h : s.copyAssign (ByteBufferStorage.element a) p q = some r) :
    s.world.Continues r.1.world := by
  unfold Store.copyAssign at h
  split at h
  · split at h
    · exact absurd h (by simp)
    · split at h
      · exact absurd h (by simp)
      · rename_i s₁ hretain
        obtain ⟨s₂, hrelease, rfl⟩ := Option.map_eq_some_iff.mp h
        have hlog := releaseIfAny_continues hrelease
        rw [retain_world hretain] at hlog
        exact hlog
  · obtain rfl := Option.some.inj h
    exact .of_log_eq rfl

variable (a s)

/-- A split asks for a block for the copy. -/
theorem unique_willing (p : Pointer) :
    SameIfGranted (fun r => r.1.world) s.world (s.unique (ByteBufferStorage.element a) p)
      (s.unique (ByteBufferStorage.element a.willing) p) := by
  intro r hr
  cases p with
  | none => exact absurd hr (by simp [Store.unique])
  | some b =>
      cases hblock : s.blocks b with
      | none => exact absurd hr (by simp [Store.unique, hblock])
      | some block =>
          by_cases hshared : 1 < block.retainCount
          · simp only [Store.unique, hblock, if_pos hshared] at hr ⊢
            obtain ⟨s', hrelease, rfl⟩ := Option.map_eq_some_iff.mp hr
            obtain ⟨hlog, hsame⟩ := copyConstruct_willing a s.world block.element _ rfl
            have hlog' := (release_noReallocate hrelease).continues
            refine ⟨hlog.trans hlog', fun hgranted => ?_⟩
            have heq : block.element.copyConstruct a.willing s.world
                = block.element.copyConstruct a s.world :=
              Option.some.inj (hsame (hgranted.before hlog'))
            simp only [ByteBufferStorage.element, heq]
            exact hr
          · simp only [Store.unique, hblock, if_neg hshared] at hr ⊢
            obtain rfl := Option.some.inj hr
            exact ⟨.of_log_eq rfl, fun _ => rfl⟩

variable (buffer : ByteBuffer)

theorem bufferUnique_willing :
    SameIfGranted (fun r => r.1.world) s.world (buffer.unique a s) (buffer.unique a.willing s) := by
  intro r hr
  unfold ByteBuffer.unique at hr ⊢
  cases hunique : s.unique (ByteBufferStorage.element a) buffer.storage with
  | none =>
      rw [hunique] at hr
      exact absurd hr (by simp)
  | some split =>
      rw [hunique] at hr
      obtain ⟨hlog, hsame⟩ := unique_willing a s buffer.storage split hunique
      obtain ⟨e, -, rfl⟩ := Option.map_eq_some_iff.mp hr
      refine ⟨hlog, fun hgranted => ?_⟩
      rw [hsame hgranted]
      exact hr

theorem mutableBytes_willing :
    SameIfGranted (fun r => r.1.world) s.world (buffer.mutableBytes a s)
      (buffer.mutableBytes a.willing s) :=
  (bufferUnique_willing a s buffer).map fun _ _ => .of_log_eq rfl

theorem moveWriterIndexForwardBy_log {s : Storages} {buffer : ByteBuffer} {offset : Size}
    {r : Storages × ByteBuffer} (h : buffer.moveWriterIndexForwardBy s offset = some r) :
    r.1.world.log = s.world.log := by
  obtain ⟨capacity, -, rfl⟩ := Option.map_eq_some_iff.mp h
  exact assert_log _ _

theorem writeBytes_willing (source : ConstBytes) (size : Size) :
    SameIfGranted (fun r => r.1.world) s.world (buffer.writeBytes a s source size)
      (buffer.writeBytes a.willing s source size) := by
  intro r hr
  unfold ByteBuffer.writeBytes at hr ⊢
  cases hunique : buffer.unique a s with
  | none =>
      rw [hunique] at hr
      exact absurd hr (by simp)
  | some split =>
      rw [hunique] at hr
      obtain ⟨hlog, hsame⟩ := bufferUnique_willing a s buffer split hunique
      obtain ⟨s₁, buffer₁, b, e⟩ := split
      obtain ⟨hlog', hsame'⟩ :=
        setBytes_willing a s₁.world e source size buffer₁.writerIndex _ rfl
      obtain ⟨moved, hmoved, rfl⟩ := Option.map_eq_some_iff.mp hr
      have hlast := Memory.Continues.of_log_eq (moveWriterIndexForwardBy_log hmoved)
      refine ⟨(hlog.trans hlog').trans hlast, fun hgranted => ?_⟩
      -- so the split was granted, and then the bytes
      have hset := Option.some.inj (hsame' (hgranted.before hlast))
      rw [hsame ((hgranted.before hlast).before hlog')]
      dsimp only
      rw [hset]
      exact hr

theorem readBytes_log {s : Storages} {buffer : ByteBuffer} {destination : Bool} {size : Size}
    {r : Storages × ByteBuffer × Result} (h : buffer.readBytes s destination size = some r) :
    r.1.world.log = s.world.log := by
  unfold ByteBuffer.readBytes at h
  dsimp only at h
  split at h
  · obtain rfl := Option.some.inj h
    rfl
  · obtain ⟨e, -, rfl⟩ := Option.map_eq_some_iff.mp h
    exact (assert_log _ _).trans (copyBytesTo_log e destination _ _)

theorem readString_log {s : Storages} {buffer : ByteBuffer} {size : Size}
    {r : Storages × ByteBuffer × Result} (h : buffer.readString s size = some r) :
    r.1.world.log = s.world.log := by
  unfold ByteBuffer.readString at h
  dsimp only at h
  split at h
  · obtain rfl := Option.some.inj h
    rfl
  · obtain ⟨source, -, rfl⟩ := Option.map_eq_some_iff.mp h
    exact (assert_log _ _).trans (assert_log _ _)

theorem discardReadBytes_willing :
    SameIfGranted (fun r => r.1.world) s.world (buffer.discardReadBytes a s)
      (buffer.discardReadBytes a.willing s) := by
  intro r hr
  unfold ByteBuffer.discardReadBytes at hr ⊢
  by_cases hzero : buffer.readerIndex = 0
  · rw [if_pos hzero] at hr ⊢
    obtain rfl := Option.some.inj hr
    exact ⟨.of_log_eq rfl, fun _ => rfl⟩
  rw [if_neg hzero] at hr ⊢
  by_cases hreadable : buffer.readableBytes > 0
  · simp only [if_pos hreadable] at hr ⊢
    obtain ⟨split, hunique, rfl⟩ := Option.map_eq_some_iff.mp hr
    obtain ⟨hlog, hsame⟩ := bufferUnique_willing a s buffer split hunique
    obtain ⟨hlog', hsame'⟩ := setBytes_willing a split.1.world split.2.2.2
      (.block split.2.2.2.bytes buffer.readerIndex.toNat) buffer.readableBytes 0 _ rfl
    refine ⟨hlog.trans hlog', fun hgranted => ?_⟩
    rw [hsame (hgranted.before hlog'), Option.map_some, Option.some.inj (hsame' hgranted)]
  · simp only [if_neg hreadable] at hr ⊢
    obtain rfl := Option.some.inj hr
    exact ⟨.of_log_eq rfl, fun _ => rfl⟩

end

/-! ## Steps of a program -/

section

variable {ι κ : Type} [DecidableEq ι] [DecidableEq κ] (a : ByteBufferAllocator) (s : Machine ι κ)

omit [DecidableEq κ] in
theorem onBuffer_willing {f f' : ByteBuffer → Option (Storages × ByteBuffer × Result)}
    (h : ∀ buffer, SameIfGranted (fun r => r.1.world) s.memory (f buffer) (f' buffer)) (i : ι) :
    SameIfGranted (fun r => r.1.memory) s.memory (s.onBuffer i f) (s.onBuffer i f') := by
  unfold Machine.onBuffer
  cases s.buffers i with
  | none => exact .of_continues fun r hr => absurd hr (by simp)
  | some buffer => exact (h buffer).map fun _ _ => .of_log_eq rfl

omit [DecidableEq κ] in
/-- **One step.** If nothing has been refused by then, a willing allocator would have made no
difference. -/
theorem bufferStep_willing (op : BufferOp ι) :
    SameIfGranted (fun r => r.1.memory) s.memory (s.bufferStep a op) (s.bufferStep a.willing op) := by
  cases op with
  | construct i capacity =>
      simp only [Machine.bufferStep]
      cases s.buffers i with
      | none =>
          intro r hr
          obtain rfl := Option.some.inj hr
          obtain ⟨hlog, hsame⟩ := construct_willing a s.store.world capacity _ rfl
          refine ⟨hlog, fun hgranted => ?_⟩
          have hmade := Option.some.inj (hsame hgranted)
          simp only [ByteBuffer.construct, hmade]
      | some _ => exact .of_continues fun r hr => absurd hr (by simp)
  | copyConstruct i j =>
      refine .of_continues fun r hr => ?_
      simp only [Machine.bufferStep] at hr
      split at hr
      · obtain ⟨t, ht, rfl⟩ := Option.map_eq_some_iff.mp hr
        rename_i other _ _
        cases hp : other.storage with
        | none =>
            rw [hp] at ht
            exact absurd ht (by simp [Store.copyConstruct])
        | some b =>
            rw [hp] at ht
            obtain ⟨s₁, hretain, rfl⟩ := Option.map_eq_some_iff.mp ht
            exact .of_log_eq (congrArg Memory.log (retain_world hretain))
      · exact absurd hr (by simp)
  | moveConstruct i j =>
      refine .of_continues fun r hr => ?_
      simp only [Machine.bufferStep] at hr
      split at hr
      · obtain rfl := Option.some.inj hr
        exact .of_log_eq rfl
      · exact absurd hr (by simp)
  | copyAssign i j =>
      -- an assignment may give a block back, but asks for none
      refine .of_continues (x := s.bufferStep a (.copyAssign i j)) fun r hr => ?_
      simp only [Machine.bufferStep] at hr
      split at hr
      · obtain ⟨t, ht, rfl⟩ := Option.map_eq_some_iff.mp hr
        exact copyAssign_continues ht
      · exact absurd hr (by simp)
  | moveAssign i j =>
      refine .of_continues (x := s.bufferStep a (.moveAssign i j)) fun r hr => ?_
      simp only [Machine.bufferStep] at hr
      split at hr
      · split at hr
        · obtain ⟨t, ht, rfl⟩ := Option.map_eq_some_iff.mp hr
          obtain ⟨s₁, hrelease, rfl⟩ := Option.map_eq_some_iff.mp ht
          exact releaseIfAny_continues hrelease
        · obtain rfl := Option.some.inj hr
          exact .of_log_eq rfl
      · exact absurd hr (by simp)
  | destruct i =>
      refine .of_continues (x := s.bufferStep a (.destruct i)) fun r hr => ?_
      simp only [Machine.bufferStep] at hr
      split at hr
      · exact absurd hr (by simp)
      · obtain ⟨s₁, hrelease, rfl⟩ := Option.map_eq_some_iff.mp hr
        exact releaseIfAny_continues hrelease
  | writeBytes i source size =>
      exact onBuffer_willing s (fun buffer => writeBytes_willing a s.store buffer _ size) i
  | writeString i string =>
      exact onBuffer_willing s (fun buffer => writeBytes_willing a s.store buffer _ _) i
  | writeCString i cString =>
      refine onBuffer_willing s (fun buffer => ?_) i
      cases cString with
      | none =>
          refine .of_log_eq fun r hr => ?_
          obtain rfl := Option.some.inj hr
          rfl
      | some cString => exact writeBytes_willing a s.store buffer _ _
  | readBytes i destination size =>
      exact onBuffer_willing s (fun buffer => .of_log_eq fun r hr => readBytes_log hr) i
  | readString i size =>
      exact onBuffer_willing s (fun buffer => .of_log_eq fun r hr => readString_log hr) i
  | skipBytes i size =>
      refine onBuffer_willing s (fun buffer => .of_log_eq fun r hr => ?_) i
      obtain rfl := Option.some.inj hr
      exact assert_log _ _
  | discardReadBytes i =>
      exact onBuffer_willing s (fun buffer =>
        (discardReadBytes_willing a s.store buffer).map fun _ _ => .of_log_eq rfl) i
  | clear i =>
      refine onBuffer_willing s (fun buffer => .of_log_eq fun r hr => ?_) i
      obtain rfl := Option.some.inj hr
      rfl
  | mutableBytes i =>
      exact onBuffer_willing s (fun buffer =>
        (mutableBytes_willing a s.store buffer).map fun _ _ => .of_log_eq rfl) i
  | store i k value =>
      refine onBuffer_willing s (fun buffer =>
        (mutableBytes_willing a s.store buffer).map fun r _ => .of_log_eq ?_) i
      dsimp only
      split
      · rfl
      · exact writeCells_log _ _ _

variable {a s} {s' : Machine ι κ}

/-- The program of buffers `ops` gets everything that it asks for. -/
def Unrefused (a : ByteBufferAllocator) (s : Machine ι κ) (ops : List (BufferOp ι)) : Prop :=
  ∀ s', run (Machine.next a) s (ops.map .buffer) = some s' → s'.memory.Granted

theorem run_continues {ops : List (BufferOp ι)}
    (h : run (Machine.next a) s (ops.map .buffer) = some s') : s.memory.Continues s'.memory := by
  rw [run_actions] at h
  refine run_invariant (I := fun t : Machine ι κ => s.memory.Continues t.memory) ?_
    (.of_log_eq rfl) h
  intro t op t' ht hstep
  obtain ⟨r, hr, rfl⟩ := Option.map_eq_some_iff.mp hstep
  exact ht.trans (bufferStep_willing a t op r hr).1

/-- A step of a program that gets everything. -/
theorem bufferStep_of_granted {op : BufferOp ι} (h : s.next a (.buffer op) = some s')
    (hgranted : s'.memory.Granted) :
    ∃ result, s.bufferStep a op = some (s', result)
      ∧ s.bufferStep a.willing op = some (s', result) := by
  obtain ⟨⟨t, result⟩, hr, rfl⟩ := Option.map_eq_some_iff.mp h
  exact ⟨result, hr, (bufferStep_willing a s op _ hr).2 hgranted⟩

end

end NPFoundation
