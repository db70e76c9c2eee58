import NPFoundation.Lib.Doubling
import NPFoundation.ByteBuffer.RandomAccess
import NPFoundation.ByteBuffer.Growth

/-!
# What growing costs

A block that is too short is passed to `reallocate`, which may have to move what is in it. A
block can grow once for every byte written to it, or only a few times in its life: it depends on
what lengths are asked for.

They are all rounded, and a block is only passed on to be made longer. So it at least doubles
each time: it grows 64 times at most, and all that was ever moved for it fits into its length.
Where the bytes that are written come from makes no difference to what is asked for.
-/

namespace NPFoundation

open CopyOnWrite CopyOnWrite.Store Transition

/-! ## The lengths a block has had -/

/-- The length of a block, and the ones that it had before, the newest first. A growth moves as
many bytes as the block was long until then. -/
structure BlockHistory where
  length : Size
  earlier : List Size
  deriving DecidableEq, Repr

def AllocatorCall.chronicle (blocks : Address → Option BlockHistory) :
    AllocatorCall → Address → Option BlockHistory
  | .allocate _ none => blocks
  | .allocate len (some p) => Function.update blocks p (some ⟨len, []⟩)
  | .reallocate _ _ none => blocks
  | .reallocate p len (some q) =>
      Function.update (Function.update blocks p none) q
        ((blocks p).map fun block => ⟨len, block.length :: block.earlier⟩)
  | .deallocate p _ => Function.update blocks p none

/-- What has become of the blocks that are live after these calls. -/
def blockHistories (log : List AllocatorCall) : Address → Option BlockHistory :=
  log.foldl AllocatorCall.chronicle fun _ => none

/-! ## Calls that double -/

/-- What is asked for is a rounded length, and for a block that is live a longer one. -/
def AllocatorCall.Enlarging (live : Address → Option Size) : AllocatorCall → Prop
  | .allocate len _ => IsRounded len
  | .reallocate p len _ => IsRounded len ∧ ∀ old, live p = some old → old < len
  | .deallocate _ _ => True

/-- `2 ^ 64` in place of `SIZE_MAX`, so that every rounded length is a power of two. -/
def ceiling (len : Size) : ℕ := if len = sizeMax then 2 ^ 64 else len.toNat

theorem le_ceiling (len : Size) : len.toNat ≤ ceiling len := by
  unfold ceiling
  split
  · exact len.isLt.le
  · exact Nat.le_refl _

theorem ceiling_le (len : Size) : ceiling len ≤ len.toNat + 1 ∧ ceiling len ≤ 2 ^ 64 := by
  unfold ceiling
  split
  · rename_i hmax
    rw [hmax, BitVec.toNat_allOnes]
    decide
  · exact ⟨Nat.le_succ _, len.isLt.le⟩

theorem IsRounded.ceiling_eq {len : Size} (h : IsRounded len) : ∃ j, ceiling len = 2 ^ j := by
  unfold ceiling
  split
  · exact ⟨64, rfl⟩
  · rename_i hne
    rcases h with hpow | hmax
    · exact hpow
    · exact absurd hmax hne

/-- Between two powers of two there is a factor of two. -/
theorem twice_ceiling_le {old len : Size} (hold : IsRounded old) (hlen : IsRounded len)
    (hlt : old < len) : 2 * ceiling old ≤ ceiling len := by
  have hmax : old ≠ sizeMax := by
    intro heq
    rw [heq, BitVec.lt_def, BitVec.toNat_allOnes] at hlt
    have hle := len.isLt
    omega
  have hceiling : ceiling old < ceiling len := by
    rw [ceiling, if_neg hmax]
    exact (BitVec.lt_def.mp hlt).trans_le (le_ceiling len)
  obtain ⟨j, hj⟩ := hold.ceiling_eq
  obtain ⟨k, hk⟩ := hlen.ceiling_eq
  rw [hj, hk] at hceiling ⊢
  have hjk : j + 1 ≤ k := (Nat.pow_lt_pow_iff_right (by decide)).mp hceiling
  rw [← Nat.pow_succ']
  exact Nat.pow_le_pow_right (by decide) hjk

/-! ## Histories of such calls -/

/-- The lengths are rounded, and each is at least twice the one before. -/
structure BlockHistory.Doubles (block : BlockHistory) : Prop where
  rounded : IsRounded block.length
  doubling : Doubling ((block.length :: block.earlier).map ceiling)

theorem BlockHistory.Doubles.single {len : Size} (h : IsRounded len) :
    BlockHistory.Doubles ⟨len, []⟩ where
  rounded := h
  doubling := by
    obtain ⟨j, hj⟩ := h.ceiling_eq
    refine .singleton ?_
    rw [hj]
    exact Nat.two_pow_pos j

theorem BlockHistory.Doubles.grow {block : BlockHistory} (h : block.Doubles) {len : Size}
    (hlen : IsRounded len) (hlt : block.length < len) :
    BlockHistory.Doubles ⟨len, block.length :: block.earlier⟩ where
  rounded := hlen
  doubling := h.doubling.cons (twice_ceiling_le h.rounded hlen hlt)

/-- What a block that doubles costs. -/
theorem BlockHistory.Doubles.cost {block : BlockHistory} (h : block.Doubles) :
    block.earlier.length ≤ 64 ∧ 2 ^ block.earlier.length ≤ block.length.toNat + 1
      ∧ (block.earlier.map BitVec.toNat).sum ≤ block.length.toNat := by
  obtain ⟨hle, hmax⟩ := ceiling_le block.length
  have hpow := h.doubling.two_pow_length_le
  have hsum := h.doubling.sum_lt
  rw [List.length_map] at hpow
  have hceilings : (block.earlier.map BitVec.toNat).sum ≤ (block.earlier.map ceiling).sum :=
    List.sum_le_sum fun len _ => le_ceiling len
  refine ⟨?_, hpow.trans hle, by omega⟩
  exact (Nat.pow_le_pow_iff_right (by decide)).mp (hpow.trans hmax)

/-- The histories are those of the blocks that are live, and they double. -/
def Recounts (live : Address → Option Size) (blocks : Address → Option BlockHistory) : Prop :=
  ∀ p, live p = (blocks p).map BlockHistory.length ∧ ∀ block, blocks p = some block → block.Doubles

section

variable {live live' : Address → Option Size} {blocks : Address → Option BlockHistory}
  {call : AllocatorCall} {p : Address}

theorem Recounts.update (h : Recounts live blocks) (p : Address) {x : Option BlockHistory}
    (hx : ∀ block, x = some block → block.Doubles) :
    Recounts (Function.update live p (x.map BlockHistory.length)) (Function.update blocks p x) := by
  intro q
  rcases eq_or_ne q p with rfl | hne
  · rw [Function.update_self, Function.update_self]
    exact ⟨rfl, hx⟩
  · rw [Function.update_of_ne hne, Function.update_of_ne hne]
    exact h q

/-- **One call.** -/
theorem Recounts.chronicle (h : Recounts live blocks) (henlarging : call.Enlarging live)
    (hreplay : call.replay live = some live') : Recounts live' (call.chronicle blocks) := by
  cases call with
  | allocate len q =>
      cases q with
      | none =>
          obtain ⟨-, heq⟩ := Option.ite_none_right_eq_some.mp hreplay
          obtain rfl := Option.some.inj heq
          exact h
      | some q =>
          obtain ⟨-, heq⟩ := Option.ite_none_right_eq_some.mp hreplay
          obtain rfl := Option.some.inj heq
          refine h.update q (x := some ⟨len, []⟩) fun block hblock => ?_
          obtain rfl := Option.some.inj hblock
          exact .single henlarging
  | reallocate p len q =>
      cases q with
      | none =>
          obtain ⟨-, heq⟩ := Option.ite_none_right_eq_some.mp hreplay
          obtain rfl := Option.some.inj heq
          exact h
      | some q =>
          obtain ⟨⟨-, hlive, -⟩, heq⟩ := Option.ite_none_right_eq_some.mp hreplay
          obtain rfl := Option.some.inj heq
          obtain ⟨hlength, hdoubles⟩ := h p
          obtain ⟨block, hblock⟩ : ∃ block, blocks p = some block := by
            rw [hlength, Option.isSome_map] at hlive
            exact Option.isSome_iff_exists.mp hlive
          rw [hblock, Option.map_some] at hlength
          have hfreed := h.update p (x := none) fun _ hx => absurd hx (by simp)
          have hgrown := (hdoubles block hblock).grow henlarging.1 (henlarging.2 _ hlength)
          rw [AllocatorCall.chronicle, hblock]
          refine hfreed.update q (x := some ⟨len, _⟩) fun block' hblock' => ?_
          obtain rfl := Option.some.inj hblock'
          exact hgrown
  | deallocate p len =>
      obtain ⟨-, heq⟩ := Option.ite_none_right_eq_some.mp hreplay
      obtain rfl := Option.some.inj heq
      exact h.update p (x := none) fun _ hx => absurd hx (by simp)

/-- **A whole log.** -/
theorem Recounts.log {log : List AllocatorCall} (h : Recounts live blocks)
    (henlarging : Along AllocatorCall.replay AllocatorCall.Enlarging live log)
    (hreplay : replay live log = some live') :
    Recounts live' (log.foldl AllocatorCall.chronicle blocks) := by
  induction log generalizing live blocks with
  | nil =>
      obtain rfl := Option.some.inj hreplay
      exact h
  | cons call log ih =>
      obtain ⟨live₁, hcall, hrest⟩ := run_cons_some.mp hreplay
      obtain ⟨hfirst, henlarging₁⟩ := (along_cons hcall).mp henlarging
      exact ih (h.chronicle hfirst hcall) henlarging₁ hrest

theorem recounts_start : Recounts (fun _ => none) fun _ => none :=
  fun _ => ⟨rfl, fun _ hx => absurd hx (by simp)⟩

end

/-! ## The calls of a storage -/

/-- The log so far has only such calls. -/
def Memory.Enlarging (m : Memory) : Prop :=
  Along AllocatorCall.replay AllocatorCall.Enlarging (fun _ => none) m.log

section

variable {m m' : Memory} {Ω : Type} {elems : Ω → Option ByteBufferStorage} {o : Ω}
  {e : ByteBufferStorage} {a : ByteBufferAllocator}

theorem Memory.Enlarging.of_log_eq (h : m.Enlarging) (hlog : m'.log = m.log) : m'.Enlarging := by
  rw [Memory.Enlarging, hlog]
  exact h

/-- One more call. -/
theorem Memory.Enlarging.snoc (h : m.Enlarging) {call : AllocatorCall}
    (hlog : m'.log = m.log ++ [call])
    (hcall : ∀ live, replay (fun _ => none) m.log = some live → call.Enlarging live) :
    m'.Enlarging := by
  rw [Memory.Enlarging, hlog]
  exact along_append.mpr ⟨h, fun live hlive => ⟨hcall live hlive, fun _ _ => trivial⟩⟩

theorem Memory.Enlarging.allocate (h : m.Enlarging) {len : Size} (hlen : IsRounded len) :
    (m.allocate a len).1.Enlarging := by
  unfold Memory.allocate
  split
  · exact h.snoc rfl fun _ _ => hlen
  · exact h.snoc rfl fun _ _ => hlen

theorem Memory.Enlarging.deallocate (h : m.Enlarging) (p : Address) (len : Size) :
    (m.deallocate p len).Enlarging :=
  h.snoc rfl fun _ _ => trivial

/-- What the allocator knows of the block of a storage. -/
theorem Owned.live_eq (h : Owned m elems) (he : elems o = some e) {p : Address}
    (hp : e.bytes = some p) {live : Address → Option Size}
    (hlive : replay (fun _ => none) m.log = some live) : live p = some e.capacity := by
  obtain ⟨cells, hcells, hlength, -⟩ := h.block he hp
  obtain ⟨live', hlive', hagrees⟩ := h.log
  obtain rfl := Option.some.inj (hlive.symm.trans hlive')
  have hmap := hagrees p
  rw [hcells] at hmap
  obtain ⟨len, hlen, heq⟩ := Option.map_eq_some_iff.mp hmap
  rw [hlen, BitVec.eq_of_toNat_eq (heq.trans hlength)]

/-- The history of the block of a storage. -/
theorem Memory.Enlarging.history (h : m.Enlarging) (howned : Owned m elems) (he : elems o = some e)
    {p : Address} (hp : e.bytes = some p) :
    ∃ block, blockHistories m.log p = some block ∧ block.length = e.capacity ∧ block.Doubles := by
  obtain ⟨live, hlive, -⟩ := howned.log
  obtain ⟨hlength, hdoubles⟩ := recounts_start.log h hlive p
  rw [howned.live_eq he hp hlive] at hlength
  obtain ⟨block, hblock, heq⟩ := Option.map_eq_some_iff.mp hlength.symm
  exact ⟨block, hblock, heq, hdoubles block hblock⟩

theorem Memory.Enlarging.reallocate (h : m.Enlarging) (howned : Owned m elems)
    (he : elems o = some e) {p : Address} (hp : e.bytes = some p) {len : Size}
    (hlen : IsRounded len) (hlt : e.capacity < len) : (m.reallocate a p len).1.Enlarging := by
  have hcall : ∀ live, replay (fun _ => none) m.log = some live →
      ∀ q, (AllocatorCall.reallocate p len q).Enlarging live := by
    intro live hlive q
    refine ⟨hlen, fun old hold => ?_⟩
    rw [howned.live_eq he hp hlive] at hold
    exact Option.some.inj hold ▸ hlt
  unfold Memory.reallocate
  split
  · exact h.snoc rfl fun live hlive => hcall live hlive _
  · split
    · exact h.snoc rfl fun live hlive => hcall live hlive _
    · exact h.snoc rfl fun live hlive => hcall live hlive _
    · exact h.snoc rfl fun live hlive => hcall live hlive _

theorem Memory.Enlarging.construct (h : m.Enlarging) (capacity : Size) :
    (ByteBufferStorage.construct a m capacity).1.Enlarging := by
  have hallocate := h.allocate (isRounded_nextPowerOf2ClampedToMax capacity) (a := a)
  unfold ByteBufferStorage.construct
  dsimp only
  generalize m.allocate a (nextPowerOf2ClampedToMax capacity) = allocated at hallocate
  obtain ⟨m₁, q⟩ := allocated
  cases q with
  | none => exact hallocate
  | some q => exact hallocate

/-- A copy is as long as the original. -/
theorem Memory.Enlarging.copyConstruct (h : m.Enlarging) (howned : Owned m elems)
    (he : elems o = some e) : (e.copyConstruct a m).1.Enlarging := by
  unfold ByteBufferStorage.copyConstruct
  cases hp : e.bytes with
  | none => exact h
  | some p =>
      obtain ⟨block, -, hlength, hdoubles⟩ := h.history howned he hp
      have hallocate := h.allocate (hlength ▸ hdoubles.rounded) (a := a)
      dsimp only
      generalize m.allocate a e.capacity = allocated at hallocate
      obtain ⟨m₁, q⟩ := allocated
      cases q with
      | none => exact hallocate
      | some q => exact hallocate.of_log_eq (copybytes_log _ _ _ _)

theorem Memory.Enlarging.destruct (h : m.Enlarging) (e : ByteBufferStorage) :
    (e.destruct m).Enlarging := by
  unfold ByteBufferStorage.destruct
  split
  · exact h
  · exact h.deallocate _ _

/-- **The growth.** -/
theorem Memory.Enlarging.reserve (h : m.Enlarging) (howned : Owned m elems) (he : elems o = some e)
    (n : Size) : (e.reserve a m n).1.Enlarging := by
  have hrounded := isRounded_nextPowerOf2ClampedToMax n
  unfold ByteBufferStorage.reserve
  split
  · exact h
  · rename_i hshort
    dsimp only
    split
    · exact h
    · cases hp : e.bytes with
      | none =>
          have hallocate := h.allocate hrounded (a := a)
          dsimp only
          generalize m.allocate a (nextPowerOf2ClampedToMax n) = requested at hallocate
          obtain ⟨m₁, q⟩ := requested
          cases q with
          | none => exact hallocate
          | some q => exact hallocate
      | some p =>
          -- it was too short for `n`, which is no more than what is asked for
          have hlt : e.capacity < nextPowerOf2ClampedToMax n := by
            rw [hp, Option.isSome_some] at hshort
            have hle := le_nextPowerOf2ClampedToMax n
            rw [BitVec.le_def] at hle
            rw [BitVec.lt_def]
            have hnot : ¬ n.toNat ≤ e.capacity.toNat := fun hn => hshort ⟨rfl, hn⟩
            omega
          have hreallocate := h.reallocate howned he hp hrounded hlt (a := a)
          dsimp only
          generalize m.reallocate a p (nextPowerOf2ClampedToMax n) = requested at hreallocate
          obtain ⟨m₁, q⟩ := requested
          cases q with
          | none => exact hreallocate
          | some q => exact hreallocate

theorem Memory.Enlarging.setBytes (h : m.Enlarging) (howned : Owned m elems)
    (he : elems o = some e) (source : ConstBytes) (size atIndex : Size) :
    (e.setBytes a m source size atIndex).1.Enlarging := by
  have hreserve := h.reserve howned he (atIndex + size) (a := a)
  unfold ByteBufferStorage.setBytes
  split
  · exact h
  split
  · exact h
  generalize e.reserve a m (atIndex + size) = reserved at hreserve
  obtain ⟨m₁, e₁, ok⟩ := reserved
  cases ok with
  | false => exact hreserve
  | true =>
      dsimp only
      split
      · exact hreserve.of_log_eq rfl
      · exact hreserve.of_log_eq (copybytes_log _ _ _ _)

end

/-! ## The calls of a buffer -/

section

variable {a : ByteBufferAllocator} {s s' : Storages} {p q : Pointer} {b : ℕ}

theorem release_enlarging (h : s.world.Enlarging)
    (hrelease : s.release (ByteBufferStorage.element a) b = some s') : s'.world.Enlarging := by
  unfold Store.release at hrelease
  split at hrelease
  · exact absurd hrelease (by simp)
  · split at hrelease
    · obtain rfl := Option.some.inj hrelease
      exact h.destruct _
    · obtain rfl := Option.some.inj hrelease
      exact h

theorem releaseIfAny_enlarging (h : s.world.Enlarging)
    (hrelease : s.releaseIfAny (ByteBufferStorage.element a) p = some s') : s'.world.Enlarging := by
  cases p with
  | none =>
      obtain rfl := Option.some.inj hrelease
      exact h
  | some b => exact release_enlarging h hrelease

theorem copyAssign_enlarging (h : s.world.Enlarging) {r : Storages × Pointer}
    (hassign : s.copyAssign (ByteBufferStorage.element a) p q = some r) : r.1.world.Enlarging := by
  unfold Store.copyAssign at hassign
  split at hassign
  · split at hassign
    · exact absurd hassign (by simp)
    · split at hassign
      · exact absurd hassign (by simp)
      · rename_i s₁ hretain
        obtain ⟨s₂, hrelease, rfl⟩ := Option.map_eq_some_iff.mp hassign
        refine releaseIfAny_enlarging ?_ hrelease
        rw [retain_world hretain]
        exact h
  · obtain rfl := Option.some.inj hassign
    exact h

end

section

variable {ι κ : Type} [DecidableEq ι] [DecidableEq κ] [Fintype ι] {a : ByteBufferAllocator}
  {s s' : Machine ι κ} {i : ι} {buffer : ByteBuffer} {result : Result}

/-- A split asks for a block for the copy, and leaves the buffer a storage of its own. -/
theorem unique_enlarging (h : s.memory.Enlarging) (hs : s.Good) (hi : s.buffers i = some buffer)
    {store : Storages} {buffer₁ : ByteBuffer} {b : ℕ} {e : ByteBufferStorage}
    (hunique : buffer.unique a s.store = some (store, buffer₁, b, e)) :
    store.world.Enlarging
      ∧ Owned store.world (Function.update (owners s.store s.storages) (.inl b) (some e)) := by
  have hsplit := hunique
  unfold ByteBuffer.unique at hsplit
  split at hsplit
  · exact absurd hsplit (by simp)
  rename_i s₁ b₁ hstore
  obtain ⟨x, -, heq⟩ := Option.map_eq_some_iff.mp hsplit
  obtain rfl := (Prod.mk.inj heq).1
  cases hc : buffer.storage with
  | none =>
      rw [hc] at hstore
      exact absurd hstore (by simp [Store.unique])
  | some c =>
      rw [hc] at hstore
      simp only [Store.unique] at hstore
      split at hstore
      · exact absurd hstore (by simp)
      rename_i block hblock
      have helement : s.store.elements c = some block.element := by
        rw [elements, hblock, Option.map_some]
      refine ⟨?_, ?_⟩
      · split at hstore
        · obtain ⟨s₂, hrelease, heq'⟩ := Option.map_eq_some_iff.mp hstore
          obtain rfl := (Prod.mk.inj heq').1
          have howner : owners s.store s.storages (.inl c) = some block.element := helement
          exact release_enlarging (h.copyConstruct hs.owned howner) hrelease
        · obtain rfl := (Prod.mk.inj (Option.some.inj hstore)).1
          exact h
      · obtain ⟨store, b', e', hunique', halone, -⟩ := unique_alone hs hi hc helement (a := a)
        obtain ⟨rfl, -, rfl, rfl⟩ := by
          simpa only [Option.some.injEq, Prod.mk.injEq] using hunique.symm.trans hunique'
        exact halone.updates.owned

theorem writeBytes_enlarging (h : s.memory.Enlarging) (hs : s.Good) (hi : s.buffers i = some buffer)
    {source : ConstBytes} {size : Size} {r : Storages × ByteBuffer × Result}
    (hwrite : buffer.writeBytes a s.store source size = some r) : r.1.world.Enlarging := by
  unfold ByteBuffer.writeBytes at hwrite
  cases hunique : buffer.unique a s.store with
  | none =>
      rw [hunique] at hwrite
      exact absurd hwrite (by simp)
  | some split =>
      obtain ⟨store, buffer₁, b, e⟩ := split
      obtain ⟨hsplit, howned⟩ := unique_enlarging h hs hi hunique
      rw [hunique] at hwrite
      obtain ⟨moved, hmoved, rfl⟩ := Option.map_eq_some_iff.mp hwrite
      have hset := hsplit.setBytes howned (Function.update_self _ _ _) source size
        buffer₁.writerIndex (a := a)
      exact hset.of_log_eq (moveWriterIndexForwardBy_log hmoved)

theorem mutableBytes_enlarging (h : s.memory.Enlarging) (hs : s.Good)
    (hi : s.buffers i = some buffer) {r : Storages × ByteBuffer × Option Address}
    (hmutable : buffer.mutableBytes a s.store = some r) : r.1.world.Enlarging := by
  obtain ⟨⟨store, buffer₁, b, e⟩, hunique, rfl⟩ := Option.map_eq_some_iff.mp hmutable
  exact (unique_enlarging h hs hi hunique).1

theorem discardReadBytes_enlarging (h : s.memory.Enlarging) (hs : s.Good)
    (hi : s.buffers i = some buffer) {r : Storages × ByteBuffer}
    (hdiscard : buffer.discardReadBytes a s.store = some r) : r.1.world.Enlarging := by
  unfold ByteBuffer.discardReadBytes at hdiscard
  split at hdiscard
  · obtain rfl := Option.some.inj hdiscard
    exact h
  · dsimp only at hdiscard
    split at hdiscard
    · obtain ⟨⟨store, buffer₁, b, e⟩, hunique, rfl⟩ := Option.map_eq_some_iff.mp hdiscard
      obtain ⟨hsplit, howned⟩ := unique_enlarging h hs hi hunique
      exact hsplit.setBytes howned (Function.update_self _ _ _) _ _ 0
    · obtain rfl := Option.some.inj hdiscard
      exact h

/-! ## Steps and programs -/

omit [Fintype ι] [DecidableEq κ] in
theorem onBuffer_enlarging {f : ByteBuffer → Option (Storages × ByteBuffer × Result)}
    (hf : ∀ buffer r, s.buffers i = some buffer → f buffer = some r → r.1.world.Enlarging)
    (hcall : s.onBuffer i f = some (s', result)) : s'.memory.Enlarging := by
  unfold Machine.onBuffer at hcall
  split at hcall
  · exact absurd hcall (by simp)
  · rename_i buffer hi
    obtain ⟨r, hr, heq⟩ := Option.map_eq_some_iff.mp hcall
    obtain rfl := (Prod.mk.inj heq).1
    exact hf buffer r hi hr

theorem bufferStep_enlarging (h : s.memory.Enlarging) (hs : s.Good) {op : BufferOp ι}
    (hstep : s.bufferStep a op = some (s', result)) : s'.memory.Enlarging := by
  cases op with
  | construct i capacity =>
      simp only [Machine.bufferStep] at hstep
      split at hstep
      · obtain rfl := (Prod.mk.inj (Option.some.inj hstep)).1
        exact h.construct capacity
      · exact absurd hstep (by simp)
  | copyConstruct i j =>
      simp only [Machine.bufferStep] at hstep
      split at hstep
      · obtain ⟨r, hr, heq⟩ := Option.map_eq_some_iff.mp hstep
        obtain rfl := (Prod.mk.inj heq).1
        rename_i other _ _
        cases hp : other.storage with
        | none =>
            rw [hp] at hr
            exact absurd hr (by simp [Store.copyConstruct])
        | some b =>
            rw [hp] at hr
            obtain ⟨s₁, hretain, rfl⟩ := Option.map_eq_some_iff.mp hr
            exact h.of_log_eq (congrArg Memory.log (retain_world hretain))
      · exact absurd hstep (by simp)
  | moveConstruct i j =>
      simp only [Machine.bufferStep] at hstep
      split at hstep
      · obtain rfl := (Prod.mk.inj (Option.some.inj hstep)).1
        exact h
      · exact absurd hstep (by simp)
  | copyAssign i j =>
      simp only [Machine.bufferStep] at hstep
      split at hstep
      · obtain ⟨r, hr, heq⟩ := Option.map_eq_some_iff.mp hstep
        obtain rfl := (Prod.mk.inj heq).1
        exact copyAssign_enlarging h hr
      · exact absurd hstep (by simp)
  | moveAssign i j =>
      simp only [Machine.bufferStep] at hstep
      split at hstep
      · split at hstep
        · obtain ⟨r, hr, heq⟩ := Option.map_eq_some_iff.mp hstep
          obtain rfl := (Prod.mk.inj heq).1
          obtain ⟨s₁, hrelease, rfl⟩ := Option.map_eq_some_iff.mp hr
          exact releaseIfAny_enlarging h hrelease
        · obtain rfl := (Prod.mk.inj (Option.some.inj hstep)).1
          exact h
      · exact absurd hstep (by simp)
  | destruct i =>
      simp only [Machine.bufferStep] at hstep
      split at hstep
      · exact absurd hstep (by simp)
      · obtain ⟨s₁, hrelease, heq⟩ := Option.map_eq_some_iff.mp hstep
        obtain rfl := (Prod.mk.inj heq).1
        exact releaseIfAny_enlarging h hrelease
  | writeBytes i source size =>
      exact onBuffer_enlarging (fun _ _ hi hr => writeBytes_enlarging h hs hi hr) hstep
  | writeString i string =>
      exact onBuffer_enlarging (fun _ _ hi hr => writeBytes_enlarging h hs hi hr) hstep
  | writeCString i cString =>
      refine onBuffer_enlarging (fun buffer r hi hr => ?_) hstep
      cases cString with
      | none =>
          obtain rfl := Option.some.inj hr
          exact h
      | some cString => exact writeBytes_enlarging h hs hi hr
  | readBytes i destination size =>
      exact onBuffer_enlarging (fun _ _ _ hr => h.of_log_eq (readBytes_log hr)) hstep
  | readString i size =>
      exact onBuffer_enlarging (fun _ _ _ hr => h.of_log_eq (readString_log hr)) hstep
  | skipBytes i size =>
      refine onBuffer_enlarging (fun buffer r _ hr => ?_) hstep
      obtain rfl := Option.some.inj hr
      exact h.of_log_eq (assert_log _ _)
  | discardReadBytes i =>
      refine onBuffer_enlarging (fun buffer r hi hr => ?_) hstep
      obtain ⟨r', hdiscard, rfl⟩ := Option.map_eq_some_iff.mp hr
      exact discardReadBytes_enlarging h hs hi hdiscard
  | clear i =>
      refine onBuffer_enlarging (fun buffer r _ hr => ?_) hstep
      obtain rfl := Option.some.inj hr
      exact h
  | mutableBytes i =>
      refine onBuffer_enlarging (fun buffer r hi hr => ?_) hstep
      obtain ⟨r', hmutable, rfl⟩ := Option.map_eq_some_iff.mp hr
      exact mutableBytes_enlarging h hs hi hmutable
  | store i k value =>
      refine onBuffer_enlarging (fun buffer r hi hr => ?_) hstep
      obtain ⟨r', hmutable, rfl⟩ := Option.map_eq_some_iff.mp hr
      refine (mutableBytes_enlarging h hs hi hmutable).of_log_eq ?_
      dsimp only
      split
      · rfl
      · exact writeCells_log _ _ _

omit [DecidableEq ι] in
theorem storageStep_enlarging (h : s.memory.Enlarging) (hs : s.Good) {op : StorageOp κ}
    (hstep : s.storageStep a op = some (s', result)) : s'.memory.Enlarging := by
  have howned := hs.owned
  have howner : ∀ {k e}, s.storages k = some e → owners s.store s.storages (.inr k) = some e :=
    fun he => he
  cases op with
  | construct k capacity =>
      simp only [Machine.storageStep] at hstep
      split at hstep
      · obtain rfl := (Prod.mk.inj (Option.some.inj hstep)).1
        exact h.construct capacity
      · exact absurd hstep (by simp)
  | copyConstruct k l =>
      simp only [Machine.storageStep] at hstep
      split at hstep
      · rename_i other _ hother
        obtain rfl := (Prod.mk.inj (Option.some.inj hstep)).1
        exact h.copyConstruct howned (howner hother)
      · exact absurd hstep (by simp)
  | destruct k =>
      simp only [Machine.storageStep] at hstep
      split at hstep
      · exact absurd hstep (by simp)
      · obtain rfl := (Prod.mk.inj (Option.some.inj hstep)).1
        exact h.destruct _
  | reserve k n =>
      simp only [Machine.storageStep] at hstep
      split at hstep
      · exact absurd hstep (by simp)
      · rename_i e he
        obtain rfl := (Prod.mk.inj (Option.some.inj hstep)).1
        exact h.reserve howned (howner he) n
  | setBytes k source size atIndex =>
      simp only [Machine.storageStep] at hstep
      split at hstep
      · exact absurd hstep (by simp)
      · rename_i e he
        obtain rfl := (Prod.mk.inj (Option.some.inj hstep)).1
        exact h.setBytes howned (howner he) _ size atIndex
  | copyBytesTo k destination size fromIndex =>
      simp only [Machine.storageStep] at hstep
      split at hstep
      · exact absurd hstep (by simp)
      · obtain rfl := (Prod.mk.inj (Option.some.inj hstep)).1
        exact h.of_log_eq (copyBytesTo_log _ _ _ _)

theorem next_enlarging (h : s.memory.Enlarging) (hs : s.Good) {op : ProgramOp ι κ}
    (hstep : s.next a op = some s') : s'.memory.Enlarging := by
  obtain ⟨⟨s₁, result⟩, hstep₁, rfl⟩ := Option.map_eq_some_iff.mp hstep
  cases op with
  | buffer op => exact bufferStep_enlarging h hs hstep₁
  | storage op => exact storageStep_enlarging h hs hstep₁

/-- Every legal program, with what its allocator is asked for. -/
theorem run_enlarging {st st' : Status ι κ} (hs : Orderly s st) (h : s.memory.Enlarging)
    {ops : List (PointerOp ι κ)} (hlegal : run pointerStatus st ops = some st')
    (hfew : FewHandlesThroughout a s ops) :
    ∃ s', run (Machine.pointerNext a) s ops = some s' ∧ Orderly s' st' ∧ s'.memory.Enlarging :=
  run_pointers (I := fun s : Machine ι κ => s.memory.Enlarging)
    (fun halike h => h.of_log_eq halike.memory.log) (fun hgood h hstep => next_enlarging h hgood hstep)
    hs h hlegal hfew

omit [DecidableEq ι] [DecidableEq κ] [Fintype ι] in
theorem start_enlarging : (Machine.start : Machine ι κ).memory.Enlarging := trivial

/-- **Growing is cheap in the long run.** In every legal program in which no block has `2 ^ 32`
handles, whatever the allocator answers, wherever the bytes come from and whenever one looks: a
live block that has grown `n` times has a length of at least `2 ^ n - 1`, so `n` is 64 at most,
and all the bytes that were ever moved for it would fit into it. The storage that has it now has
that length as its capacity. -/
theorem growth_is_geometric {st : Status ι κ} (a : ByteBufferAllocator) (ops : List (PointerOp ι κ))
    (hlegal : run pointerStatus .start ops = some st) (hfew : FewHandlesThroughout a .start ops) :
    ∃ s, run (Machine.pointerNext a) .start ops = some s
      ∧ (∀ calls p block, calls <+: s.memory.log → blockHistories calls p = some block →
          block.earlier.length ≤ 64 ∧ 2 ^ block.earlier.length ≤ block.length.toNat + 1
          ∧ (block.earlier.map BitVec.toNat).sum ≤ block.length.toNat)
      ∧ ∀ o e p, owners s.store s.storages o = some e → e.bytes = some p →
          ∃ block, blockHistories s.memory.log p = some block ∧ block.length = e.capacity := by
  obtain ⟨s, hrun, hs, h⟩ := run_enlarging start_lawful.toOrderly start_enlarging hlegal hfew
  refine ⟨s, hrun, fun calls p block hprefix hblock => ?_, fun o e p he hp => ?_⟩
  · obtain ⟨rest, hlog⟩ := hprefix
    obtain ⟨live, hlive, -⟩ := hs.good.owned.log
    rw [replay, ← hlog] at hlive
    rw [Memory.Enlarging, ← hlog] at h
    obtain ⟨before, hbefore, -⟩ := run_append_some.mp hlive
    have hrecounts := recounts_start.log (along_append.mp h).1 hbefore
    exact ((hrecounts p).2 block hblock).cost
  · obtain ⟨block, hblock, hlength, -⟩ := h.history hs.good.owned he hp
    exact ⟨block, hblock, hlength⟩

end

/-- An allocator that moves what it grows. -/
def ByteBufferAllocator.roaming : ByteBufferAllocator := ⟨fun _ => true, fun _ => .moves⟩

/-- Three writes, of which the first fits and the second is of the buffer's own block. -/
def threeWrites {ι κ : Type} (i : ι) : List (PointerOp ι κ) :=
  [.plain (.buffer (.construct i 1)), .plain (.buffer (.writeBytes i (some fun _ => 7) 1)),
    .writeBytes i (.block (some 0) 0) 2, .plain (.buffer (.writeBytes i (some fun _ => 9) 6))]

/-- The block grew twice: 1 byte was moved and then 4, and it is 16 long. -/
theorem growth_is_geometric_writes :
    ∃ s : Machine (Fin 1) (Fin 1), run (Machine.pointerNext .roaming) .start (threeWrites 0) = some s
      ∧ blockHistories s.memory.log 2 = some ⟨16, [4, 1]⟩
      ∧ (([4, 1] : List Size).map BitVec.toNat).sum ≤ (16 : Size).toNat := by
  obtain ⟨s, hrun, hcost, -⟩ := growth_is_geometric .roaming (threeWrites (κ := Fin 1) (0 : Fin 1)) rfl
    (fewHandlesThroughout_of_card (by decide) _ _ _)
  have hlog : (run (Machine.pointerNext .roaming) .start
      (threeWrites (κ := Fin 1) (0 : Fin 1))).map (fun s => blockHistories s.memory.log 2)
      = some (some ⟨16, [4, 1]⟩) := by decide +kernel
  rw [hrun] at hlog
  have hblock := Option.some.inj hlog
  exact ⟨s, hrun, hblock, (hcost _ _ _ (List.prefix_refl _) hblock).2.2⟩

end NPFoundation
