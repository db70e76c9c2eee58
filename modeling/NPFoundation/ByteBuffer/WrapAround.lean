import NPFoundation.ByteBuffer.Programs

/-!
# Too many copies

The count of a block is a `uint32_t` and nothing checks it. A program that copies one
buffer often enough brings it back to where it was before, or to 0. Here is what a run of
copies does to the machine; where the count ends up is up to how many there are.
-/

namespace NPFoundation

open CopyOnWrite CopyOnWrite.Store Transition

variable {ι κ : Type} [DecidableEq ι] [DecidableEq κ]

/-- Make each variable of `l` a copy of buffer `j`. -/
def copies (κ : Type) (l : List ι) (j : ι) : List (ProgramOp ι κ) :=
  l.map fun i => .buffer (.copyConstruct i j)

/-- Variables that were made copies of one. -/
def assigned {T : Type} (f : ι → T) (l : List ι) (x : T) (i : ι) : T := if i ∈ l then x else f i

theorem assigned_cons {T : Type} (f : ι → T) (k : ι) (l : List ι) (x : T) :
    assigned (Function.update f k x) l x = assigned f (k :: l) x := by
  funext i
  unfold assigned
  rcases eq_or_ne i k with rfl | hne
  · simp
  · simp [hne]

variable {j : ι} {l : List ι}

/-- Copies of private values. -/
theorem run_copies_model {T : Type} (v : ι → Variable T) {x : T} (hj : v j = .holds x)
    (hnodup : l.Nodup) (habsent : ∀ i ∈ l, v i = .absent) :
    run (fun v i => modelStep v (.copyConstruct i j)) v l = some (assigned v l (.holds x)) := by
  induction l generalizing v with
  | nil => rfl
  | cons k l ih =>
      obtain ⟨hk, hl⟩ := List.nodup_cons.mp hnodup
      have hkj : j ≠ k := by
        intro heq
        rw [heq, habsent k List.mem_cons_self] at hj
        exact absurd hj (by simp)
      have hstep : modelStep v (.copyConstruct k j) = some (Function.update v k (.holds x)) := by
        simp [modelStep, habsent k List.mem_cons_self, hj]
      rw [run_cons, hstep, Option.bind_some, ih, assigned_cons]
      · exact (Function.update_of_ne hkj _ _).trans hj
      · exact hl
      · intro i hi
        have hne : i ≠ k := by
          intro heq
          exact hk (heq ▸ hi)
        exact (Function.update_of_ne hne _ _).trans (habsent i (List.mem_cons_of_mem k hi))

/-- The rules have nothing against it. -/
theorem run_copies_status (st : Status ι κ) (hj : st.buffers j = .holds ()) (hnodup : l.Nodup)
    (habsent : ∀ i ∈ l, st.buffers i = .absent) :
    run statusStep st (copies κ l j)
      = some { st with buffers := assigned st.buffers l (.holds ()) } := by
  have hmap : run statusStep st (copies κ l j)
      = (run (fun v i => modelStep v (.copyConstruct i j)) st.buffers l).map
          fun v => { st with buffers := v } :=
    run_map (fun v => { st with buffers := v }) (fun i => ProgramOp.buffer (.copyConstruct i j))
      (fun _ _ => rfl) st.buffers l
  rw [hmap, run_copies_model st.buffers hj hnodup habsent]
  rfl

variable {a : ByteBufferAllocator} {buffer : ByteBuffer} {b : ℕ} {block : Block ByteBufferStorage}

/-- Each copy adds one to the count, modulo `2 ^ 32`. -/
theorem run_copies (s : Machine ι κ) (hj : s.buffers j = some buffer) (hb : buffer.storage = some b)
    (hblock : s.store.blocks b = some block) (hnodup : l.Nodup)
    (habsent : ∀ i ∈ l, s.buffers i = none) :
    run (Machine.next a) s (copies κ l j)
      = some { s with
          store := { s.store with
            blocks := Function.update s.store.blocks b
              (some { block with retainCount := block.retainCount + UInt32.ofNat l.length }) }
          buffers := assigned s.buffers l (some buffer) } := by
  induction l generalizing s block with
  | nil =>
      have hself : Function.update s.store.blocks b (some { block with
          retainCount := block.retainCount + UInt32.ofNat ([] : List ι).length })
          = s.store.blocks := by
        rw [List.length_nil, show (UInt32.ofNat 0) = 0 from rfl, UInt32.add_zero, ← hblock,
          Function.update_eq_self]
      rw [hself]
      rfl
  | cons k l ih =>
      obtain ⟨hk, hl⟩ := List.nodup_cons.mp hnodup
      have hnone := habsent k List.mem_cons_self
      have hkj : j ≠ k := by
        intro heq
        rw [heq, hnone] at hj
        exact absurd hj (by simp)
      have hcount : block.retainCount + 1 + UInt32.ofNat l.length
          = block.retainCount + UInt32.ofNat (k :: l).length := by
        rw [List.length_cons, UInt32.ofNat_add, UInt32.add_assoc, UInt32.add_comm 1]
        rfl
      -- the machine after the first copy
      obtain ⟨s₁, hs₁⟩ : ∃ s₁, s₁ = s.setBuffer { s.store with
          blocks := Function.update s.store.blocks b
            (some { block with retainCount := block.retainCount + 1 }) } k (some buffer) := ⟨_, rfl⟩
      have hstep : s.next a (.buffer (.copyConstruct k j)) = some s₁ := by
        simp only [Machine.next, Machine.step, Machine.bufferStep, hnone, hj, hb, copyConstruct,
          retain, hblock, Option.map_some, hs₁]
        rw [← hb]
      have hj₁ : s₁.buffers j = some buffer := by
        rw [hs₁]
        exact (Function.update_of_ne hkj _ _).trans hj
      have hblock₁ : s₁.store.blocks b
          = some { block with retainCount := block.retainCount + 1 } := by
        rw [hs₁]
        exact Function.update_self _ _ _
      have habsent₁ : ∀ i ∈ l, s₁.buffers i = none := by
        intro i hi
        have hne : i ≠ k := by
          intro heq
          exact hk (heq ▸ hi)
        rw [hs₁]
        exact (Function.update_of_ne hne _ _).trans (habsent i (List.mem_cons_of_mem k hi))
      rw [copies, List.map_cons, run_cons, hstep, Option.bind_some, ← copies,
        ih s₁ hj₁ hblock₁ hl habsent₁, hs₁]
      simp only [Machine.setBuffer, Function.update_idem, assigned_cons, hcount]

/-- The same, by what the machine has afterwards. -/
theorem exists_run_copies (s : Machine ι κ) (hj : s.buffers j = some buffer)
    (hb : buffer.storage = some b) (hblock : s.store.blocks b = some block) (hnodup : l.Nodup)
    (habsent : ∀ i ∈ l, s.buffers i = none) :
    ∃ s', run (Machine.next a) s (copies κ l j) = some s'
      ∧ s'.buffers j = some buffer ∧ (∀ i ∈ l, s'.buffers i = some buffer)
      ∧ s'.store.blocks b
        = some { block with retainCount := block.retainCount + UInt32.ofNat l.length }
      ∧ s'.store.world = s.store.world := by
  have hnotin : j ∉ l := by
    intro hmem
    rw [habsent j hmem] at hj
    exact absurd hj (by simp)
  refine ⟨_, run_copies s hj hb hblock hnodup habsent, (if_neg hnotin).trans hj,
    fun i hi => if_pos hi, ?_, rfl⟩
  exact Function.update_self b _ s.store.blocks

/-- All variables but the first. -/
def others (n : ℕ) : List (Fin (n + 1)) := (List.finRange n).map Fin.succ

theorem length_others (n : ℕ) : (others n).length = n := by simp [others]

theorem nodup_others (n : ℕ) : (others n).Nodup :=
  (List.nodup_finRange n).map (Fin.succ_injective n)

theorem mem_others {n : ℕ} {i : Fin (n + 1)} : i ∈ others n ↔ i ≠ 0 := by
  simp only [others, List.mem_map, List.mem_finRange, true_and]
  exact ⟨fun ⟨k, hk⟩ => hk ▸ Fin.succ_ne_zero k, fun hi => ⟨i.pred hi, Fin.succ_pred i hi⟩⟩

end NPFoundation
