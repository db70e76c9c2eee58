import NPFoundation.ByteBuffer.View

/-!
# The machine refines the private views

`Good` is the invariant of the machine: the counts are exact, every storage owns its
block, and every view is valid. One lemma for each operation says that the machine does
what the model with private views does, given the answers of the allocator.

Two things carry the proof. A release deletes at most a block nobody refers to, so what
the other buffers show is kept (`Kept`). And after `unique()` a buffer is alone on its
block (`Alone`), so what is done to that block next is seen by no other.
-/

namespace NPFoundation

open Slice CopyOnWrite CopyOnWrite.Store

/-! ## What a machine shows -/

/-- What a buffer shows of its storage. -/
def viewOf (s : Storages) : Option ByteBuffer → Variable View
  | none => .absent
  | some buffer =>
      match buffer.read s with
      | none => .movedFrom
      | some storage =>
          .holds ⟨buffer.readerIndex, buffer.writerIndex, storage.contents s.world⟩

variable {ι κ : Type}

/-- The storages of the buffers, and the program's own. -/
def owners (s : Storages) (storages : κ → Option ByteBufferStorage) :
    ℕ ⊕ κ → Option ByteBufferStorage :=
  Sum.elim s.elements storages

namespace Machine

/-- The view of each variable. -/
def view (s : Machine ι κ) (i : ι) : Variable View := viewOf s.store (s.buffers i)

/-- The invariant of every program that is not in error. -/
structure Good [Fintype ι] (s : Machine ι κ) : Prop where
  counted : Counted s.store (handlesOn s.handles)
  owned : Owned s.memory (owners s.store s.storages)
  valid : AllViews View.Valid s.view

end Machine

section View

variable {s : Storages} {buffer : ByteBuffer} {b : ℕ} {e : ByteBufferStorage}

theorem viewOf_null (h : buffer.storage = none) : viewOf s (some buffer) = .movedFrom := by
  simp [viewOf, ByteBuffer.read, h, Store.read]

theorem viewOf_block (h : buffer.storage = some b) (he : s.elements b = some e) :
    viewOf s (some buffer)
      = .holds ⟨buffer.readerIndex, buffer.writerIndex, e.contents s.world⟩ := by
  have hread : buffer.read s = some e := by
    rw [ByteBuffer.read, h]
    exact he
  rw [viewOf, hread]

theorem viewOf_absent {o : Option ByteBuffer} (h : viewOf s o = .absent) : o = none := by
  cases o with
  | none => rfl
  | some buffer =>
      rw [viewOf] at h
      split at h
      · exact absurd h (by simp)
      · exact absurd h (by simp)

/-- A variable that holds a view has a handle on a block. -/
theorem viewOf_holds {o : Option ByteBuffer} {view : View} (h : viewOf s o = .holds view) :
    ∃ buffer b e, o = some buffer ∧ buffer.storage = some b ∧ s.elements b = some e
      ∧ view = ⟨buffer.readerIndex, buffer.writerIndex, e.contents s.world⟩ := by
  cases o with
  | none => exact absurd h (by simp [viewOf])
  | some buffer =>
      rw [viewOf] at h
      split at h
      · exact absurd h (by simp)
      · rename_i e hread
        cases hb : buffer.storage with
        | none =>
            rw [ByteBuffer.read, hb] at hread
            exact absurd hread (by simp [Store.read])
        | some b =>
            rw [ByteBuffer.read, hb] at hread
            exact ⟨buffer, b, e, rfl, hb, hread, (Variable.holds.inj h).symm⟩

end View

/-! ## Releases -/

section Kept

variable [DecidableEq κ] {a : ByteBufferAllocator} {s s' s'' : Storages}
  {storages : κ → Option ByteBufferStorage} {b : ℕ}

/-- Storages may have gone; those that are left own their blocks and have what they had. -/
structure Kept (storages : κ → Option ByteBufferStorage) (s s' : Storages) : Prop where
  owned : Owned s'.world (owners s' storages)
  kept : ∀ {b e}, s'.elements b = some e →
    s.elements b = some e ∧ e.contents s'.world = e.contents s.world
  faults : s'.world.faults = s.world.faults

omit [DecidableEq κ] in
theorem Kept.refl (h : Owned s.world (owners s storages)) : Kept storages s s :=
  ⟨h, fun he => ⟨he, rfl⟩, rfl⟩

omit [DecidableEq κ] in
theorem Kept.of_same (h : Owned s.world (owners s storages)) (helements : s'.elements = s.elements)
    (hworld : s'.world = s.world) : Kept storages s s' := by
  refine ⟨by rw [owners, helements, hworld]; exact h, fun he => ?_, by rw [hworld]⟩
  rw [helements] at he
  exact ⟨he, by rw [hworld]⟩

omit [DecidableEq κ] in
theorem Kept.trans (h₁ : Kept storages s s') (h₂ : Kept storages s' s'') : Kept storages s s'' where
  owned := h₂.owned
  kept := fun he => ⟨(h₁.kept (h₂.kept he).1).1, (h₂.kept he).2.trans (h₁.kept (h₂.kept he).1).2⟩
  faults := h₂.faults.trans h₁.faults

omit [DecidableEq κ] in
theorem retain_kept (h : Owned s.world (owners s storages)) (hretain : s.retain b = some s') :
    Kept storages s s' := by
  unfold Store.retain at hretain
  split at hretain
  · exact absurd hretain (by simp)
  · rename_i block hb
    obtain rfl := Option.some.inj hretain
    exact .of_same h (recount_elements hb) rfl

/-- A storage that is destroyed gives its block back, and that is all. -/
theorem destruct_faults {m : Memory} {Ω : Type} {elems : Ω → Option ByteBufferStorage} {o : Ω}
    {e : ByteBufferStorage} (h : Owned m elems) (he : elems o = some e) :
    (e.destruct m).faults = m.faults := by
  unfold ByteBufferStorage.destruct
  split
  · rfl
  · rename_i p hp
    obtain ⟨cells, hcells, -⟩ := h.block he hp
    simp [Memory.deallocate, hcells]

theorem release_kept (h : Owned s.world (owners s storages))
    (hrelease : s.release (ByteBufferStorage.element a) b = some s') : Kept storages s s' := by
  unfold Store.release at hrelease
  split at hrelease
  · exact absurd hrelease (by simp)
  · rename_i block hb
    split at hrelease
    · -- the last handle: the storage is destroyed
      obtain rfl := Option.some.inj hrelease
      have he : owners s storages (.inl b) = some block.element := by
        simp [owners, elements, hb]
      have hreplaces := destruct_replaces h he
      have helements : elements
          { world := block.element.destruct s.world, blocks := Function.update s.blocks b none,
            next := s.next, deleted := s.deleted ++ [b] } = Function.update s.elements b none := by
        funext c
        rcases eq_or_ne c b with rfl | hne
        · simp [elements]
        · simp [elements, Function.update_of_ne hne]
      refine ⟨?_, ?_, destruct_faults h he⟩
      · have howned := h.replace he hreplaces
        rw [owners, Sum.update_elim_inl] at howned
        rw [owners]
        dsimp only [ByteBufferStorage.element]
        rw [helements]
        exact howned
      · intro c e hc
        dsimp only [ByteBufferStorage.element] at hc ⊢
        rw [helements] at hc
        have hne : c ≠ b := by
          intro heq
          rw [heq, Function.update_self] at hc
          exact absurd hc (by simp)
        rw [Function.update_of_ne hne] at hc
        have hother : (Sum.inl c : ℕ ⊕ κ) ≠ .inl b := by simpa using hne
        exact ⟨hc, hreplaces.contents_eq h he hother hc⟩
    · obtain rfl := Option.some.inj hrelease
      exact .of_same h (recount_elements hb) rfl

theorem releaseIfAny_kept {this : Pointer} (h : Owned s.world (owners s storages))
    (hrelease : s.releaseIfAny (ByteBufferStorage.element a) this = some s') :
    Kept storages s s' := by
  cases this with
  | none =>
      obtain rfl := Option.some.inj hrelease
      exact .refl h
  | some b => exact release_kept h hrelease

theorem copyAssign_kept {this other : Pointer} {p : Pointer}
    (h : Owned s.world (owners s storages))
    (hassign : s.copyAssign (ByteBufferStorage.element a) this other = some (s', p)) :
    Kept storages s s' := by
  unfold Store.copyAssign at hassign
  split at hassign
  · split at hassign
    · exact absurd hassign (by simp)
    · split at hassign
      · exact absurd hassign (by simp)
      · rename_i s₁ hretain
        obtain ⟨s₂, hrelease, heq⟩ := Option.map_eq_some_iff.mp hassign
        obtain rfl := (Prod.mk.inj heq).1
        have hfirst := retain_kept h hretain
        exact hfirst.trans (releaseIfAny_kept hfirst.owned hrelease)
  · obtain rfl := (Prod.mk.inj (Option.some.inj hassign)).1
    exact .refl h

omit [DecidableEq κ] in
/-- A buffer whose storage is still there shows what it showed. -/
theorem Kept.viewOf_eq (h : Kept storages s s') {buffer : ByteBuffer}
    (hlive : ∀ b, buffer.storage = some b → ∃ e, s'.elements b = some e) :
    viewOf s' (some buffer) = viewOf s (some buffer) := by
  cases hb : buffer.storage with
  | none => rw [viewOf_null hb, viewOf_null hb]
  | some b =>
      obtain ⟨e, he⟩ := hlive b hb
      obtain ⟨hold, hcontents⟩ := h.kept he
      rw [viewOf_block hb he, viewOf_block hb hold, hcontents]

end Kept

/-! ## Making, copying, moving and destroying buffers -/

variable [DecidableEq ι] [DecidableEq κ]

omit [DecidableEq κ] in
theorem setBuffer_handles (s : Machine ι κ) (store : Storages) (i : ι) (buffer : Option ByteBuffer) :
    (s.setBuffer store i buffer).handles
      = Function.update s.handles i (buffer.map (·.storage)) := by
  funext j
  rcases eq_or_ne j i with rfl | hne
  · simp [Machine.setBuffer, Machine.handles]
  · simp [Machine.setBuffer, Machine.handles, Function.update_of_ne hne]

theorem viewOf_update (s : Storages) (buffers : ι → Option ByteBuffer) (i : ι)
    (x : Option ByteBuffer) :
    (fun j => viewOf s (Function.update buffers i x j))
      = Function.update (fun j => viewOf s (buffers j)) i (viewOf s x) := by
  funext j
  rcases eq_or_ne j i with rfl | hne
  · simp
  · simp [Function.update_of_ne hne]

variable [Fintype ι] {a : ByteBufferAllocator} {s s' : Machine ι κ}
  {i j : ι} {view : View}

/-- The machine went to `s'`, which shows `v'`, with these faults on the way. -/
structure Follows (s s' : Machine ι κ) (v' : ι → Variable View) (faults : List Fault) : Prop where
  counted : Counted s'.store (handlesOn s'.handles)
  owned : Owned s'.memory (owners s'.store s'.storages)
  view : s'.view = v'
  faults : s'.memory.faults = s.memory.faults ++ faults
  storages : s'.storages = s.storages

omit [DecidableEq ι] [DecidableEq κ] in
theorem Follows.congr {v v' : ι → Variable View} {faults faults' : List Fault}
    (h : Follows s s' v faults) (hv : v = v') (hfaults : faults = faults') :
    Follows s s' v' faults' := by
  rw [← hv, ← hfaults]
  exact h

omit [DecidableEq ι] [DecidableEq κ] in
/-- After releases, every buffer shows what it would have shown before them. -/
theorem follows_of_kept {v' : ι → Variable View} (hcounted : Counted s'.store (handlesOn s'.handles))
    (hkept : Kept s.storages s.store s'.store) (hstorages : s'.storages = s.storages)
    (hview : (fun i => viewOf s.store (s'.buffers i)) = v') : Follows s s' v' [] where
  counted := hcounted
  owned := by
    rw [hstorages]
    exact hkept.owned
  view := by
    rw [← hview]
    funext i
    rw [Machine.view]
    cases hi : s'.buffers i with
    | none => rfl
    | some buffer =>
        refine hkept.viewOf_eq fun b hb => hcounted.exists_element (handlesOn_pos (i := i) ?_)
        rw [Machine.handles, hi, Option.map_some, hb]
  faults := by
    rw [List.append_nil]
    exact hkept.faults
  storages := hstorages

/-- The handles, without the cursors. -/
def Machine.program (s : Machine ι κ) : Program ι Memory ByteBufferStorage := ⟨s.store, s.handles⟩

/-- The storage of each variable. -/
def Machine.element (s : Machine ι κ) (i : ι) : Variable ByteBufferStorage :=
  match s.buffers i with
  | none => .absent
  | some buffer =>
      match buffer.read s.store with
      | none => .movedFrom
      | some storage => .holds storage

omit [DecidableEq ι] [DecidableEq κ] in
theorem Machine.Good.simulates (hs : s.Good) : Simulates s.element s.program := by
  refine ⟨hs.counted, fun i => ?_⟩
  show Shows s.store ((s.buffers i).map (·.storage)) (s.element i)
  rw [Machine.element]
  cases hi : s.buffers i with
  | none => exact .absent
  | some buffer =>
      cases hb : buffer.storage with
      | none =>
          have hread : buffer.read s.store = none := by rw [ByteBuffer.read, hb]; rfl
          simp only [Option.map_some, hb, hread]
          exact .movedFrom
      | some b =>
          obtain ⟨e, he⟩ := hs.counted.exists_element
            (handlesOn_pos (i := i) (by rw [Machine.handles, hi, Option.map_some, hb]))
          have hread : buffer.read s.store = some e := by rw [ByteBuffer.read, hb]; exact he
          simp only [Option.map_some, hb, hread]
          exact .holds he

omit [Fintype ι] [DecidableEq ι] [DecidableEq κ] in
theorem element_absent (h : s.buffers i = none) : s.element i = .absent := by
  rw [Machine.element, h]

omit [Fintype ι] [DecidableEq ι] [DecidableEq κ] in
theorem element_holds {buffer : ByteBuffer} {b : ℕ} {e : ByteBufferStorage}
    (h : s.buffers i = some buffer) (hb : buffer.storage = some b)
    (he : s.store.elements b = some e) : s.element i = .holds e := by
  have hread : buffer.read s.store = some e := by rw [ByteBuffer.read, hb]; exact he
  rw [Machine.element, h]
  simp only [hread]

omit [Fintype ι] [DecidableEq ι] [DecidableEq κ] in
theorem element_ne_absent {buffer : ByteBuffer} (h : s.buffers i = some buffer) :
    s.element i ≠ .absent := by
  rw [Machine.element, h]
  dsimp only
  split
  · simp
  · simp

omit [Fintype ι] [DecidableEq ι] [DecidableEq κ] in
theorem exists_buffer (h : s.view i ≠ .absent) : ∃ buffer, s.buffers i = some buffer := by
  cases hi : s.buffers i with
  | none => exact absurd (by rw [Machine.view, hi]; rfl) h
  | some buffer => exact ⟨buffer, rfl⟩

/-- No step makes more handles than a count can hold. -/
def FewAfter (a : ByteBufferAllocator) (s : Machine ι κ) (op : BufferOp ι) : Prop :=
  ∀ s' result, s.bufferStep a op = some (s', result) → FewHandles s'.handles

omit [DecidableEq κ] in
theorem copyConstruct_follows (hs : s.Good) (hi : s.view i = .absent) (hj : s.view j = .holds view)
    (hfew : FewAfter a s (.copyConstruct i j)) :
    ∃ s', s.bufferStep a (.copyConstruct i j) = some (s', .unit)
      ∧ Follows s s' (Function.update s.view i (.holds view)) [] := by
  have hnone := viewOf_absent hi
  obtain ⟨other, b, e, hother, hb, he, -⟩ := viewOf_holds hj
  have hhandles : s.handles i = none ∧ s.handles j = some (some b) := by
    simp [Machine.handles, hnone, hother, hb]
  -- a step of the handles is a step of the machine
  have hbridge : ∀ p', step (ByteBufferStorage.element a) s.program (.copyConstruct i j) = some p' →
      ∃ store, s.store.retain b = some store
        ∧ p' = ⟨store, Function.update s.handles i (some (some b))⟩
        ∧ s.bufferStep a (.copyConstruct i j) = some (s.setBuffer store i (some other), .unit) := by
    intro p' hp'
    simp only [step, Machine.program, hhandles, copyConstruct, Option.map_map] at hp'
    obtain ⟨store, hretain, rfl⟩ := Option.map_eq_some_iff.mp hp'
    refine ⟨store, hretain, rfl, ?_⟩
    simp only [Machine.bufferStep, hnone, hother, hb, copyConstruct, hretain, Option.map_some]
    rw [← hb]
  obtain ⟨p', hp', hsim⟩ := copyConstruct_simulates hs.simulates (element_absent hnone)
    (element_holds hother hb he) fun p' hp' => by
      obtain ⟨store, -, rfl, hstep⟩ := hbridge p' hp'
      have hlt := hfew _ _ hstep
      rw [setBuffer_handles, Option.map_some, hb] at hlt
      exact hlt
  obtain ⟨store, hretain, rfl, hstep⟩ := hbridge p' hp'
  refine ⟨_, hstep, follows_of_kept ?_ (retain_kept hs.owned hretain) rfl ?_⟩
  · rw [setBuffer_handles, Option.map_some, hb]
    exact hsim.counted
  · rw [← hj, Machine.view, hother]
    exact viewOf_update _ _ _ _

omit [Fintype ι] [DecidableEq κ] in
/-- What a move shows: the other variable is left without a block. -/
theorem viewOf_move {other : ByteBuffer} (hj : s.buffers j = some other) :
    (fun k => viewOf s.store (Function.update
      (Function.update s.buffers j (some { other with storage := none })) i (some other) k))
      = Function.update (Function.update s.view j .movedFrom) i (s.view j) := by
  have hview : s.view j = viewOf s.store (some other) := by rw [Machine.view, hj]
  rw [viewOf_update, viewOf_update, viewOf_null rfl, hview]
  rfl

omit [DecidableEq κ] in
theorem moveConstruct_follows (hs : s.Good) (hi : s.view i = .absent) (hj : s.view j = .holds view) :
    ∃ s', s.bufferStep a (.moveConstruct i j) = some (s', .unit)
      ∧ Follows s s' (Function.update (Function.update s.view j .movedFrom) i (.holds view)) [] := by
  have hnone := viewOf_absent hi
  obtain ⟨other, b, e, hother, hb, he, -⟩ := viewOf_holds hj
  have hhandles : s.handles i = none ∧ s.handles j = some (some b) := by
    simp [Machine.handles, hnone, hother, hb]
  obtain ⟨p', hp', hsim⟩ := moveConstruct_simulates (E := ByteBufferStorage.element a)
    hs.simulates (element_absent hnone) (element_holds hother hb he)
  simp only [step, Machine.program, hhandles, Option.some.injEq] at hp'
  subst hp'
  refine ⟨(s.setBuffer s.store j (some { other with storage := none })).setBuffer s.store i
    (some other), ?_, follows_of_kept ?_ (.refl hs.owned) rfl ?_⟩
  · simp only [Machine.bufferStep, hnone, hother, moveConstruct]
  · rw [setBuffer_handles, setBuffer_handles, Option.map_some, Option.map_some, hb]
    exact hsim.counted
  · rw [← hj]
    exact viewOf_move hother

/-- The handle assigned to is the other one. -/
theorem copyAssign_pointer {E : Element Memory ByteBufferStorage} {st st' : Storages}
    {this other p : Pointer} (h : st.copyAssign E this other = some (st', p)) : p = other := by
  unfold Store.copyAssign at h
  split at h
  · split at h
    · exact absurd h (by simp)
    · split at h
      · exact absurd h (by simp)
      · obtain ⟨s₂, -, heq⟩ := Option.map_eq_some_iff.mp h
        exact (Prod.mk.inj heq).2.symm
  · rename_i heq
    rw [← (Prod.mk.inj (Option.some.inj h)).2]
    exact not_not.mp heq

theorem copyAssign_follows (hs : s.Good) (hi : s.view i ≠ .absent) (hj : s.view j = .holds view)
    (hfew : FewAfter a s (.copyAssign i j)) :
    ∃ s', s.bufferStep a (.copyAssign i j) = some (s', .unit)
      ∧ Follows s s' (Function.update s.view i (.holds view)) [] := by
  obtain ⟨this, hthis⟩ := exists_buffer hi
  obtain ⟨other, b, e, hother, hb, he, -⟩ := viewOf_holds hj
  have hhandles : s.handles i = some this.storage ∧ s.handles j = some other.storage := by
    simp [Machine.handles, hthis, hother]
  have hbridge : ∀ p', step (ByteBufferStorage.element a) s.program (.copyAssign i j) = some p' →
      ∃ store, s.store.copyAssign (ByteBufferStorage.element a) this.storage other.storage
          = some (store, other.storage)
        ∧ p' = ⟨store, Function.update s.handles i (some other.storage)⟩
        ∧ s.bufferStep a (.copyAssign i j) = some (s.setBuffer store i (some other), .unit) := by
    intro p' hp'
    simp only [step, Machine.program, hhandles] at hp'
    obtain ⟨⟨store, p⟩, hassign, rfl⟩ := Option.map_eq_some_iff.mp hp'
    obtain rfl := copyAssign_pointer hassign
    refine ⟨store, hassign, rfl, ?_⟩
    simp only [Machine.bufferStep, hthis, hother, hassign, Option.map_some]
  obtain ⟨p', hp', hsim⟩ := copyAssign_simulates hs.simulates (element_ne_absent hthis)
    (element_holds hother hb he) fun p' hp' => by
      obtain ⟨store, -, rfl, hstep⟩ := hbridge p' hp'
      have hlt := hfew _ _ hstep
      rw [setBuffer_handles, Option.map_some] at hlt
      exact hlt
  obtain ⟨store, hassign, rfl, hstep⟩ := hbridge p' hp'
  refine ⟨_, hstep, follows_of_kept ?_ (copyAssign_kept hs.owned hassign) rfl ?_⟩
  · rw [setBuffer_handles, Option.map_some]
    exact hsim.counted
  · rw [← hj, Machine.view, hother]
    exact viewOf_update _ _ _ _

theorem moveAssign_follows (hs : s.Good) (hne : i ≠ j) (hi : s.view i ≠ .absent)
    (hj : s.view j = .holds view) :
    ∃ s', s.bufferStep a (.moveAssign i j) = some (s', .unit)
      ∧ Follows s s' (Function.update (Function.update s.view j .movedFrom) i (.holds view)) [] := by
  obtain ⟨this, hthis⟩ := exists_buffer hi
  obtain ⟨other, b, e, hother, hb, he, -⟩ := viewOf_holds hj
  have hhandles : s.handles i = some this.storage ∧ s.handles j = some other.storage := by
    simp [Machine.handles, hthis, hother]
  obtain ⟨p', hp', hsim⟩ := moveAssign_simulates (E := ByteBufferStorage.element a)
    hs.simulates hne (element_ne_absent hthis) (element_holds hother hb he)
  simp only [step, Machine.program, hhandles, hne, ne_eq, not_false_eq_true, if_true, moveAssign,
    Option.map_map] at hp'
  obtain ⟨store, hrelease, rfl⟩ := Option.map_eq_some_iff.mp hp'
  refine ⟨(s.setBuffer store j (some { other with storage := none })).setBuffer store i
    (some other), ?_, follows_of_kept ?_ (releaseIfAny_kept hs.owned hrelease) rfl ?_⟩
  · simp only [Machine.bufferStep, hthis, hother, moveAssign, hrelease, hne, ne_eq,
      not_false_eq_true, if_true, Option.map_some]
  · rw [setBuffer_handles, setBuffer_handles]
    exact hsim.counted
  · rw [← hj]
    exact viewOf_move hother

theorem destruct_follows (hs : s.Good) (hi : s.view i ≠ .absent) :
    ∃ s', s.bufferStep a (.destruct i) = some (s', .unit)
      ∧ Follows s s' (Function.update s.view i .absent) [] := by
  obtain ⟨this, hthis⟩ := exists_buffer hi
  have hhandles : s.handles i = some this.storage := by simp [Machine.handles, hthis]
  obtain ⟨p', hp', hsim⟩ := destruct_simulates (E := ByteBufferStorage.element a)
    hs.simulates (element_ne_absent hthis)
  simp only [step, Machine.program, hhandles] at hp'
  obtain ⟨store, hrelease, rfl⟩ := Option.map_eq_some_iff.mp hp'
  refine ⟨s.setBuffer store i none, ?_,
    follows_of_kept ?_ (releaseIfAny_kept hs.owned hrelease) rfl ?_⟩
  · simp only [Machine.bufferStep, hthis, hrelease, Option.map_some]
  · rw [setBuffer_handles]
    exact hsim.counted
  · exact viewOf_update _ _ _ _

/-! ## A buffer alone on its block -/

/-- After `unique()`, or after construction: variable `i` alone has a handle on block `b`, whose
storage is `e`, and nothing else has changed. -/
structure Alone (s : Machine ι κ) (i : ι) (store : Storages) (b : ℕ) (e : ByteBufferStorage) :
    Prop where
  elements : store.elements = Function.update s.store.elements b (some e)
  updates : Updates s.memory store.world (owners s.store s.storages) (.inl b) e
  counted : Counted store (handlesOn (Function.update s.handles i (some (some b))))
  other : ∀ {j c}, j ≠ i → s.handles j = some (some c) → c ≠ b

variable {store : Storages} {b : ℕ} {e e' : ByteBufferStorage} {m : Memory}

omit [Fintype ι] in
theorem owners_update (s : Storages) (storages : κ → Option ByteBufferStorage) (b : ℕ)
    (e : ByteBufferStorage) (hstore : store.elements = Function.update s.elements b (some e)) :
    owners store storages = Function.update (owners s storages) (.inl b) (some e) := by
  rw [owners, owners, Sum.update_elim_inl, hstore]

theorem Alone.element (h : Alone s i store b e) : store.elements b = some e := by
  rw [h.elements, Function.update_self]

/-- What is done to the block next is still only seen by that variable. -/
theorem Alone.set (h : Alone s i store b e)
    (hup : Updates store.world m (Function.update (owners s.store s.storages) (.inl b) (some e))
      (.inl b) e') : Alone s i (store.setElement b m e') b e' where
  elements := by
    rw [setElement_elements h.element, h.elements, Function.update_idem]
  updates := h.updates.trans hup
  counted := h.counted.setElement m e'
  other := h.other

/-- The cells of the block were overwritten. -/
theorem Alone.world (h : Alone s i store b e)
    (hup : Updates store.world m (Function.update (owners s.store s.storages) (.inl b) (some e))
      (.inl b) e) : Alone s i { store with world := m } b e where
  elements := h.elements
  updates := h.updates.trans hup
  counted := h.counted.world m
  other := h.other

/-- Only faults were recorded. -/
theorem Alone.faults (h : Alone s i store b e) (hregions : m.regions = store.world.regions)
    (hnext : m.next = store.world.next) (hlog : m.log = store.world.log) :
    Alone s i { store with world := m } b e := by
  refine h.world ⟨?_, fun _ _ => ?_⟩
  · rw [Function.update_idem]
    exact h.updates.owned.recorded hregions hnext hlog
  · rw [ByteBufferStorage.contents, hregions]
    rfl

theorem Alone.follows (h : Alone s i store b e) (readerIndex writerIndex : Size)
    (faults : List Fault) (hfaults : store.world.faults = s.memory.faults ++ faults) :
    Follows s (s.setBuffer store i (some ⟨readerIndex, writerIndex, some b⟩))
      (Function.update s.view i (.holds ⟨readerIndex, writerIndex, e.contents store.world⟩))
      faults where
  counted := by
    rw [setBuffer_handles]
    exact h.counted
  owned := by
    have howned := h.updates.owned
    rw [← owners_update s.store s.storages b e h.elements] at howned
    exact howned
  view := by
    funext j
    rw [Machine.view]
    dsimp only [Machine.setBuffer]
    rcases eq_or_ne j i with rfl | hne
    · rw [Function.update_self, Function.update_self]
      exact viewOf_block rfl h.element
    · rw [Function.update_of_ne hne, Function.update_of_ne hne, Machine.view]
      -- the other buffer's block is another one, and was not touched
      cases hj : s.buffers j with
      | none => rfl
      | some buffer =>
          cases hc : buffer.storage with
          | none => rw [viewOf_null hc, viewOf_null hc]
          | some c =>
              have hcb : c ≠ b := h.other hne (by rw [Machine.handles, hj, Option.map_some, hc])
              have helements : store.elements c = s.store.elements c := by
                rw [h.elements, Function.update_of_ne hcb]
              cases hold : s.store.elements c with
              | none =>
                  rw [hold] at helements
                  have hread : ∀ st : Storages, st.elements c = none → buffer.read st = none := by
                    intro st hst
                    rw [ByteBuffer.read, hc]
                    exact hst
                  rw [viewOf, viewOf, hread _ helements, hread _ hold]
              | some f =>
                  have hother : (Sum.inl c : ℕ ⊕ κ) ≠ .inl b := by simpa using hcb
                  rw [viewOf_block hc (helements.trans hold), viewOf_block hc hold,
                    h.updates.frame hother hold]
                  rfl
  faults := hfaults
  storages := rfl

/-- What the allocator answers during a call on a buffer with the storage `e`: first to the
copy that a split makes, which needs memory if there is a block to copy, and then to a request
for more room. -/
def answers (a : ByteBufferAllocator) (m : Memory) (shared : Bool) (e : ByteBufferStorage) :
    Answers :=
  let copies := shared && e.bytes.isSome
  let lost := copies && !a.allocates m.requests
  let requests := if copies then m.requests + 1 else m.requests
  { lost := lost
    grows := if e.bytes.isSome && !lost then a.reallocates requests ≠ .fails
      else a.allocates requests }

/-- `unique()` leaves the buffer alone on a block with what it showed, unless that is lost. -/
theorem unique_alone (hs : s.Good) {buffer : ByteBuffer} (hi : s.buffers i = some buffer)
    (hb : buffer.storage = some b) (he : s.store.elements b = some e) :
    ∃ store b₁ e₁,
      buffer.unique a s.store = some (store, { buffer with storage := some b₁ }, b₁, e₁)
      ∧ Alone s i store b₁ e₁ ∧ store.world.faults = s.memory.faults
      ∧ e₁.contents store.world
        = (if (answers a s.memory (1 < handlesOn s.handles b) e).lost then none
            else e.contents s.memory)
      ∧ grants a store.world e₁ = (answers a s.memory (1 < handlesOn s.handles b) e).grows := by
  have hhandle : s.handles i = some (some b) := by rw [Machine.handles, hi, Option.map_some, hb]
  have howner : owners s.store s.storages (.inl b) = some e := he
  obtain ⟨store, b₁, hunique, hcase⟩ :=
    unique_spec (ByteBufferStorage.element a) hs.counted (handlesOn_pos hhandle)
  rcases hcase with ⟨hone, rfl, rfl⟩ | ⟨hmany, -, hfresh, -, -, hcounted, x, hx, helements, hworld⟩
  · -- the only handle: nothing happens
    have hshared : ¬ 1 < handlesOn s.handles b₁ := by omega
    refine ⟨s.store, b₁, e, ?_, ⟨?_, hs.owned.updates_self howner, ?_, ?_⟩, rfl, ?_, ?_⟩
    · simp only [ByteBuffer.unique, hb, hunique]
      rw [show s.store.read (some b₁) = some e from he]
      rfl
    · rw [← he, Function.update_eq_self]
    · rw [← hhandle, Function.update_eq_self]
      exact hs.counted
    · intro j c hne hj hcb
      subst hcb
      exact hne (handle_unique hone hj hhandle)
    · simp [answers, hshared, Machine.memory]
    · cases hp : e.bytes with
      | none => simp [answers, hshared, grants, hp, Machine.memory]
      | some p => simp [answers, hshared, grants, hp, Machine.memory]
  · obtain rfl : e = x := Option.some.inj (he.symm.trans hx)
    have habsent : owners s.store s.storages (.inl b₁) = none := by
      cases hcase : s.store.elements b₁ with
      | none => exact hcase
      | some y =>
          obtain ⟨block, hblock, -⟩ := Option.map_eq_some_iff.mp hcase
          exact absurd hfresh (Nat.ne_of_gt (hs.counted.live hblock).2)
    obtain ⟨m', e', hcopy, hupdates, hfaults, hrequests, hcontents⟩ :=
      copyConstruct_spec hs.owned habsent howner (a := a)
    have hcopied : (ByteBufferStorage.element a).copy s.store.world e = (m', e') := hcopy
    rw [hcopied] at helements hworld
    have halone : Alone s i store b₁ e' := by
      refine ⟨helements, by rw [hworld]; exact hupdates,
        hcounted.congr (handlesOn_split hhandle hfresh), ?_⟩
      intro j c _ hj hcb
      subst hcb
      exact absurd hfresh (Nat.ne_of_gt (handlesOn_pos hj))
    have hsome : e'.bytes.isSome = (e'.contents m').isSome :=
      (hupdates.owned.capacity_eq (Function.update_self _ _ _)).2
    refine ⟨store, b₁, e', ?_, halone, by rw [hworld]; exact hfaults, ?_, ?_⟩
    · simp only [ByteBuffer.unique, hb, hunique]
      rw [show store.read (some b₁) = some e' from halone.element]
      rfl
    · rw [hworld, hcontents]
      cases hp : e.bytes with
      | none => simp [answers, hp, ByteBufferStorage.contents]
      | some p =>
          cases ha : a.allocates s.memory.requests with
          | true => simp [answers, hp, ha]
          | false => simp [answers, hmany, hp, ha]
    · rw [hworld]
      have hgrants : grants a m' e'
          = if e'.bytes.isSome then decide (a.reallocates m'.requests ≠ .fails)
            else a.allocates m'.requests := by
        cases hp' : e'.bytes with
        | none => simp [grants, hp']
        | some q => simp [grants, hp']
      rw [hgrants, hsome, hcontents, hrequests]
      cases hp : e.bytes with
      | none => simp [answers, hp, ByteBufferStorage.contents]
      | some p =>
          obtain ⟨cells, -, hcells, -, -⟩ := hs.owned.contents howner hp
          cases ha : a.allocates s.memory.requests with
          | true => simp [answers, hmany, hp, ha, hcells]
          | false => simp [answers, hmany, hp, ha]

end NPFoundation
