import NPFoundation.ByteBuffer.Calls

/-!
# Legal programs

What a C++ program may do with its variables does not depend on what is in them: a
variable is constructed once, used while it exists, and a buffer that was moved from is
only assigned to or destroyed. `statusStep` is that discipline. Every program that keeps
to it runs, and every state it reaches is good, as long as no block has more handles than
its count can hold.
-/

namespace NPFoundation

open CopyOnWrite CopyOnWrite.Store Transition

variable {ι κ : Type}

/-! ## The discipline -/

/-- What the rules look at: which buffers exist and were moved from, which storages exist. -/
structure Status (ι κ : Type) where
  buffers : ι → Variable Unit
  storages : κ → Bool

def Status.start : Status ι κ := ⟨fun _ => .absent, fun _ => false⟩

variable [DecidableEq ι] [DecidableEq κ]

/-- The rules for buffers. -/
def bufferStatus (v : ι → Variable Unit) : BufferOp ι → Option (ι → Variable Unit)
  | .construct i _ => modelStep v (.construct i ())
  | .copyConstruct i j => modelStep v (.copyConstruct i j)
  | .moveConstruct i j => modelStep v (.moveConstruct i j)
  | .copyAssign i j => modelStep v (.copyAssign i j)
  | .moveAssign i j => modelStep v (.moveAssign i j)
  | .destruct i => modelStep v (.destruct i)
  | op => modelStep v (.read op.target)

/-- The rules for storages. -/
def storageStatus (v : κ → Bool) : StorageOp κ → Option (κ → Bool)
  | .construct k _ => if v k then none else some (Function.update v k true)
  | .copyConstruct k l => if ¬ v k ∧ v l then some (Function.update v k true) else none
  | .destruct k => if v k then some (Function.update v k false) else none
  | .reserve k _ => if v k then some v else none
  | .setBytes k _ _ _ => if v k then some v else none
  | .copyBytesTo k _ _ _ => if v k then some v else none

def statusStep (st : Status ι κ) : ProgramOp ι κ → Option (Status ι κ)
  | .buffer op => (bufferStatus st.buffers op).map fun v => { st with buffers := v }
  | .storage op => (storageStatus st.storages op).map fun v => { st with storages := v }

/-! ## The rules do not look at values -/

/-- The view of a variable fits what the rules say about it. -/
abbrev Fits (v : ι → Variable View) (st : ι → Variable Unit) : Prop :=
  ∀ i, Variable.Related (fun _ _ => True) (v i) (st i)

variable {v : ι → Variable View} {st st' : ι → Variable Unit}

theorem structural_of_status (h : Fits v st) {op : Op ι View} {op' : Op ι Unit}
    (hop : Op.Related (fun _ _ => True) op op') (hstep : modelStep st op' = some st') :
    ∃ v' result faults, structural v op = some (v', result, faults) ∧ Fits v' st' := by
  obtain ⟨v', hv', hfits⟩ := modelStep_related h hop hstep
  exact ⟨v', .unit, [], by rw [structural, hv']; rfl, hfits⟩

theorem onView_of_status (h : Fits v st) {i : ι} {f : View → Outcome}
    (hstep : modelStep st (.read i) = some st') :
    ∃ v' result faults, onView v i f = some (v', result, faults) ∧ Fits v' st' := by
  cases modelStep_cases hstep with
  | read hi =>
      have hrelated := h i
      rw [hi] at hrelated
      obtain ⟨view, hview, -⟩ := hrelated.exists_holds
      refine ⟨_, _, _, by rw [onView, hview], ?_⟩
      rw [← Function.update_eq_self i st, hi]
      exact related_update h i (.holds trivial)

/-- What the rules allow, the model with private views goes along with. -/
theorem privateStep_of_status (answers : Answers) (h : Fits v st) {op : BufferOp ι}
    (hstep : bufferStatus st op = some st') :
    ∃ v' result faults, privateStep answers v op = some (v', result, faults) ∧ Fits v' st' := by
  cases op with
  | construct i capacity => exact structural_of_status h (.construct i trivial) hstep
  | copyConstruct i j => exact structural_of_status h (.copyConstruct i j) hstep
  | moveConstruct i j => exact structural_of_status h (.moveConstruct i j) hstep
  | copyAssign i j => exact structural_of_status h (.copyAssign i j) hstep
  | moveAssign i j => exact structural_of_status h (.moveAssign i j) hstep
  | destruct i => exact structural_of_status h (.destruct i) hstep
  | _ => exact onView_of_status h hstep

/-! ## The storages of the program -/

variable [Fintype ι] {a : ByteBufferAllocator} {s : Machine ι κ} {k : κ}

omit [DecidableEq ι] in
/-- A storage of the program's own changes; no buffer sees it. -/
theorem setStorage_good (hs : s.Good) {m : Memory} {x : Option ByteBufferStorage}
    (howned : Owned m (Function.update (owners s.store s.storages) (.inr k) x))
    (hframe : ∀ {b e}, s.store.elements b = some e → e.contents m = e.contents s.memory) :
    (s.setStorage m k x).Good ∧ (s.setStorage m k x).view = s.view := by
  have hview : (s.setStorage m k x).view = s.view := by
    funext i
    rw [Machine.view, Machine.view]
    dsimp only [Machine.setStorage]
    cases hi : s.buffers i with
    | none => rfl
    | some buffer =>
        cases hb : buffer.storage with
        | none => rw [viewOf_null hb, viewOf_null hb]
        | some b =>
            obtain ⟨e, he⟩ := hs.counted.exists_element
              (handlesOn_pos (i := i) (by rw [Machine.handles, hi, Option.map_some, hb]))
            have hafter : elements { s.store with world := m } b = some e := he
            rw [viewOf_block hb he, viewOf_block hb hafter]
            rw [hframe he]
            rfl
  refine ⟨⟨hs.counted.world m, ?_, by rw [hview]; exact hs.valid⟩, hview⟩
  rw [owners, Sum.update_elim_inr] at howned
  exact howned

omit [DecidableEq ι] in
/-- The same, from what the functions of a storage guarantee. -/
theorem updates_good (hs : s.Good) {m : Memory} {e' : ByteBufferStorage}
    (h : Updates s.memory m (owners s.store s.storages) (.inr k) e') :
    (s.setStorage m k (some e')).Good ∧ (s.setStorage m k (some e')).view = s.view := by
  refine setStorage_good hs h.owned fun {b e} he => ?_
  have hother : (Sum.inl b : ℕ ⊕ κ) ≠ .inr k := by simp
  exact h.frame hother he

/-- The storages that exist. -/
def Machine.present (s : Machine ι κ) (k : κ) : Bool := (s.storages k).isSome

omit [DecidableEq ι] [Fintype ι] in
theorem present_set (s : Machine ι κ) (m : Memory) (k : κ) (x : Option ByteBufferStorage) :
    (s.setStorage m k x).present = Function.update s.present k x.isSome := by
  funext l
  rcases eq_or_ne l k with rfl | hne
  · simp [Machine.present, Machine.setStorage]
  · simp [Machine.present, Machine.setStorage, Function.update_of_ne hne]

omit [DecidableEq ι] [Fintype ι] in
theorem present_set_self {e e' : ByteBufferStorage} (hk : s.storages k = some e) (m : Memory) :
    (s.setStorage m k (some e')).present = s.present := by
  have hself : s.present k = true := by rw [Machine.present, hk]; rfl
  rw [present_set, Option.isSome_some, ← hself, Function.update_eq_self]

omit [DecidableEq ι] [DecidableEq κ] [Fintype ι] in
theorem exists_storage (h : s.present k = true) : ∃ e, s.storages k = some e :=
  Option.isSome_iff_exists.mp h

omit [DecidableEq ι] [DecidableEq κ] [Fintype ι] in
theorem storage_absent (h : ¬ s.present k = true) : s.storages k = none := by
  rw [Machine.present, Option.not_isSome_iff_eq_none] at h
  exact h

omit [DecidableEq ι] [DecidableEq κ] [Fintype ι] in
/-- What the rules say about an operation on an existing storage: there is one. -/
theorem owner_of_status {v v' : κ → Bool}
    (h : (if s.present k = true then some v else none) = some v') :
    v' = v ∧ ∃ e, s.storages k = some e ∧ owners s.store s.storages (.inr k) = some e := by
  split at h
  · rename_i hk
    obtain ⟨e, he⟩ := exists_storage hk
    exact ⟨(Option.some.inj h).symm, e, he, he⟩
  · exact absurd h (by simp)

omit [DecidableEq ι] in
/-- An operation on a storage of the program's own keeps the machine good, and is seen by no
buffer. -/
theorem storageStep_good (hs : s.Good) {op : StorageOp κ} {v' : κ → Bool}
    (h : storageStatus s.present op = some v') :
    ∃ s' result, s.storageStep a op = some (s', result) ∧ s'.Good ∧ s'.view = s.view
      ∧ s'.memory.faults = s.memory.faults ∧ s'.present = v' := by
  cases op with
  | construct k capacity =>
      simp only [storageStatus] at h
      split at h
      · exact absurd h (by simp)
      · rename_i hk
        obtain rfl := Option.some.inj h
        have hnone := storage_absent hk
        have howner : owners s.store s.storages (.inr k) = none := hnone
        obtain ⟨m, e', hmade, hupdates, hfaults, -⟩ := construct_spec hs.owned howner capacity (a := a)
        obtain ⟨hgood, hview⟩ := updates_good hs hupdates
        exact ⟨_, .unit, by simp only [Machine.storageStep, hnone, hmade], hgood, hview, hfaults,
          present_set _ _ _ _⟩
  | copyConstruct k l =>
      simp only [storageStatus] at h
      split at h
      · rename_i hkl
        obtain rfl := Option.some.inj h
        have hnone := storage_absent hkl.1
        obtain ⟨e, he⟩ := exists_storage hkl.2
        have howner : owners s.store s.storages (.inr k) = none := hnone
        have hother : owners s.store s.storages (.inr l) = some e := he
        obtain ⟨m, e', hmade, hupdates, hfaults, -, -⟩ :=
          copyConstruct_spec hs.owned howner hother (a := a)
        obtain ⟨hgood, hview⟩ := updates_good hs hupdates
        exact ⟨_, .unit, by simp only [Machine.storageStep, hnone, he, hmade], hgood, hview, hfaults,
          present_set _ _ _ _⟩
      · exact absurd h (by simp)
  | destruct k =>
      obtain ⟨rfl, e, he, howner⟩ := owner_of_status h
      have hreplaces := destruct_replaces hs.owned howner
      obtain ⟨hgood, hview⟩ := setStorage_good hs (hs.owned.replace howner hreplaces)
        fun {b e} hb => by
          have hne : (Sum.inl b : ℕ ⊕ κ) ≠ .inr k := by simp
          exact hreplaces.contents_eq hs.owned howner hne hb
      exact ⟨_, .unit, by simp only [Machine.storageStep, he], hgood, hview,
        destruct_faults hs.owned howner, present_set _ _ _ _⟩
  | reserve k minimumNeededCapacity =>
      obtain ⟨rfl, e, he, howner⟩ := owner_of_status h
      obtain ⟨m, e', ok, hreserve, hupdates, hfaults, -⟩ :=
        reserve_spec hs.owned howner minimumNeededCapacity (a := a)
      obtain ⟨hgood, hview⟩ := updates_good hs hupdates
      exact ⟨_, ⟨if ok then 1 else 0, []⟩, by simp only [Machine.storageStep, he, hreserve], hgood,
        hview, hfaults, present_set_self he m⟩
  | setBytes k source size atIndex =>
      obtain ⟨rfl, e, he, howner⟩ := owner_of_status h
      obtain ⟨m, e', n, hset, hupdates, hfaults, -⟩ :=
        setBytes_spec hs.owned howner source size atIndex (a := a)
      obtain ⟨hgood, hview⟩ := updates_good hs hupdates
      exact ⟨_, ⟨n, []⟩, by simp only [Machine.storageStep, he, hset], hgood, hview, hfaults,
        present_set_self he m⟩
  | copyBytesTo k destination size fromIndex =>
      obtain ⟨rfl, e, he, howner⟩ := owner_of_status h
      have hcopy := copyBytesTo_spec hs.owned howner destination size fromIndex
      obtain ⟨hgood, hview⟩ := updates_good hs (hs.owned.updates_self howner)
      exact ⟨_, ⟨(copyBlock (e.contents s.memory) destination size fromIndex).1, _⟩,
        by simp only [Machine.storageStep, he, hcopy]; rfl, hgood, hview, rfl,
        present_set_self he s.memory⟩

/-! ## Whole programs -/

/-- A machine in a good state whose variables are what the rules say they are. -/
structure Orderly (s : Machine ι κ) (st : Status ι κ) : Prop where
  good : s.Good
  buffers : Fits s.view st.buffers
  storages : s.present = st.storages

/-- The same, and what the buffers show was written to them, as long as nothing was copied from
outside of a live region. -/
structure Lawful (s : Machine ι κ) (st : Status ι κ) : Prop extends Orderly s st where
  written : Fault.source ∉ s.memory.faults → AllViews View.Written s.view

/-- Every state the program reaches has fewer than `2 ^ 32` handles on each block. -/
def FewHandlesAlong (a : ByteBufferAllocator) (s : Machine ι κ) (ops : List (ProgramOp ι κ)) : Prop :=
  Along (Machine.next a) (fun s op => ∀ s', s.next a op = some s' → FewHandles s'.handles) s ops

/-- **One step of a program.** What the rules allow, the machine does, whatever the allocator
answers. -/
theorem step_orderly {st st' : Status ι κ} (hs : Orderly s st) {op : ProgramOp ι κ}
    (h : statusStep st op = some st')
    (hfew : ∀ s', s.next a op = some s' → FewHandles s'.handles) :
    ∃ s', s.next a op = some s' ∧ Orderly s' st'
      ∧ ((Fault.source ∉ s.memory.faults → AllViews View.Written s.view) →
        Fault.source ∉ s'.memory.faults → AllViews View.Written s'.view) := by
  cases op with
  | buffer op =>
      obtain ⟨v', hv', rfl⟩ := Option.map_eq_some_iff.mp h
      obtain ⟨v₁, result, faults, hstep, hfits⟩ :=
        privateStep_of_status (s.answers a op.target) hs.buffers hv'
      obtain ⟨s', hs', hgood, hview, hfaults, hstorages⟩ := bufferStep_refines hs.good hstep
        fun s' result hs' => hfew s' (by rw [Machine.next, Machine.step, hs']; rfl)
      refine ⟨s', by rw [Machine.next, Machine.step, hs']; rfl,
        ⟨hgood, by rw [hview]; exact hfits, ?_⟩, fun hwritten hquiet => ?_⟩
      · rw [← hs.storages]
        funext k
        rw [Machine.present, Machine.present, hstorages]
      · rw [hfaults, List.mem_append, not_or] at hquiet
        rw [hview]
        exact privateStep_written hs.good.valid (hwritten hquiet.1) hquiet.2 hstep
  | storage op =>
      obtain ⟨v', hv', rfl⟩ := Option.map_eq_some_iff.mp h
      rw [← hs.storages] at hv'
      obtain ⟨s', result, hs', hgood, hview, hfaults, hpresent⟩ := storageStep_good hs.good hv' (a := a)
      refine ⟨s', by rw [Machine.next, Machine.step, hs']; rfl,
        ⟨hgood, by rw [hview]; exact hs.buffers, hpresent⟩, fun hwritten hquiet => ?_⟩
      rw [hview]
      exact hwritten (hfaults ▸ hquiet)

theorem step_lawful {st st' : Status ι κ} (hs : Lawful s st) {op : ProgramOp ι κ}
    (h : statusStep st op = some st')
    (hfew : ∀ s', s.next a op = some s' → FewHandles s'.handles) :
    ∃ s', s.next a op = some s' ∧ Lawful s' st' := by
  obtain ⟨s', hs', horderly, hwritten⟩ := step_orderly hs.toOrderly h hfew
  exact ⟨s', hs', horderly, hwritten hs.written⟩

omit [DecidableEq ι] [DecidableEq κ] in
theorem start_lawful : Lawful (Machine.start : Machine ι κ) .start where
  good := by
    refine ⟨(counted_empty _).congr fun b => ?_, ⟨?_, ?_, ?_, ?_, fun _ => rfl, fun _ => none, rfl,
      fun _ => rfl⟩, fun _ _ h => absurd h (by simp [Machine.view, Machine.start, viewOf])⟩
    · symm
      by_contra hne
      obtain ⟨i, hi⟩ := Tally.occurrences_pos.mp (Nat.pos_of_ne_zero hne)
      exact absurd hi (by simp [Machine.start, Machine.handles])
    -- there is no storage yet
    · intro o e p he
      cases o <;> exact absurd he (by simp [owners, Machine.start, Store.empty, elements])
    · intro o e he
      cases o <;> exact absurd he (by simp [owners, Machine.start, Store.empty, elements])
    · intro o o' p hp
      cases o <;> exact absurd hp (by simp [owners, Machine.start, Store.empty, elements, pointer])
    · intro p cells hp
      exact absurd hp (by simp [Machine.start, Machine.memory, Store.empty, Memory.start])
  buffers := fun _ => .absent
  storages := rfl
  written := fun _ _ _ h => absurd h (by simp [Machine.view, Machine.start, viewOf])

/-- Every legal program runs, and ends in a good state. -/
theorem run_lawful {st st' : Status ι κ} (hs : Lawful s st) {ops : List (ProgramOp ι κ)}
    (h : run statusStep st ops = some st') (hfew : FewHandlesAlong a s ops) :
    ∃ s', run (Machine.next a) s ops = some s' ∧ Lawful s' st' := by
  induction ops generalizing s st with
  | nil =>
      rw [run_nil, Option.some.injEq] at h
      exact ⟨s, rfl, h ▸ hs⟩
  | cons op ops ih =>
      obtain ⟨st₁, hst₁, hrest⟩ := run_cons_some.mp h
      obtain ⟨s₁, hs₁, hlawful₁⟩ := step_lawful hs hst₁ hfew.1
      obtain ⟨s₂, hs₂, hlawful₂⟩ := ih hlawful₁ hrest ((along_cons hs₁).mp hfew).2
      exact ⟨s₂, run_cons_some.mpr ⟨s₁, hs₁, hs₂⟩, hlawful₂⟩

end NPFoundation
