import NPFoundation.ByteBuffer.Aliasing
import NPFoundation.ByteBuffer.WrapAround

/-!
# What the allocator sees

The log of a program, from its first construction on, is one that a strict allocator
accepts: every pointer passed back is live, with its length, and nothing is asked for that
has no length. And when the last buffer and the last storage are gone, so is every block.
It holds for every pattern of failures. What it takes is that no block has more handles
than its count can hold: with `2 ^ 32 + 1` the count is back at 1, and the first
destruction deletes the storage under all the others.
-/

namespace NPFoundation

open CopyOnWrite CopyOnWrite.Store Transition

section

variable {ι κ : Type} [DecidableEq ι] [DecidableEq κ] [Fintype ι] {s : Machine ι κ}
  {st : Status ι κ}

omit [DecidableEq ι] [DecidableEq κ] in
/-- A region has a storage, and a storage has a variable. -/
theorem Orderly.no_region (hs : Orderly s st) (hbuffers : ∀ i, st.buffers i = .absent)
    (hstorages : ∀ k, st.storages k = false) (p : Address) : s.memory.regions p = none := by
  cases hp : s.memory.regions p with
  | none => rfl
  | some cells =>
      obtain ⟨o, ho⟩ := hs.good.owned.owner hp
      obtain ⟨e, he, -⟩ := Option.bind_eq_some_iff.mp ho
      cases o with
      | inl b =>
          obtain ⟨block, hblock, -⟩ := Option.map_eq_some_iff.mp he
          obtain ⟨i, hi⟩ := Tally.occurrences_pos.mp (hs.good.counted.live hblock).2
          have hrelated := hs.buffers i
          rw [hbuffers i] at hrelated
          have habsent : s.view i = .absent := by
            generalize s.view i = x at hrelated
            cases hrelated
            rfl
          rw [Machine.handles, viewOf_absent habsent] at hi
          exact absurd hi (by simp)
      | inr k =>
          have hpresent : s.present k = true := by
            rw [Machine.present, show s.storages k = some e from he]
            rfl
          rw [hs.storages, hstorages k] at hpresent
          exact absurd hpresent (by simp)

/-- **The allocator's protocol.** Whatever the allocator refuses, every legal program runs, its
log replays on a strict allocator, and nothing is live once everything was destroyed. What is
written may come from any block and what is read may go to any, the written one and a deleted one
included. -/
theorem allocator_protocol (a : ByteBufferAllocator) (ops : List (PointerOp ι κ))
    (hlegal : run pointerStatus .start ops = some st) (hfew : FewHandlesThroughout a .start ops) :
    ∃ s live, run (Machine.pointerNext a) .start ops = some s
      ∧ replay (fun _ => none) s.memory.log = some live
      ∧ ((∀ i, st.buffers i = .absent) → (∀ k, st.storages k = false) → ∀ p, live p = none) := by
  obtain ⟨s, hrun, hs⟩ := run_orderly start_lawful.toOrderly hlegal hfew
  obtain ⟨live, hlive, hagrees⟩ := hs.good.owned.log
  exact ⟨s, live, hrun, hlive, fun hbuffers hstorages p =>
    hagrees.eq_none (hs.no_region hbuffers hstorages p)⟩

end

/-- An allocator that grants everything, and grows blocks where they are. -/
def ByteBufferAllocator.granting : ByteBufferAllocator := ⟨fun _ => true, fun _ => .inPlace⟩

/-- One that refuses its second and its fourth request, and moves what it grows. -/
def ByteBufferAllocator.stingy : ByteBufferAllocator :=
  ⟨fun n => n ≠ 1 ∧ n ≠ 3, fun n => if n = 1 ∨ n = 3 then .fails else .moves⟩

/-- A program with fewer than `2 ^ 32` buffers cannot have more handles than that. -/
theorem fewHandlesAlong_of_card {ι κ : Type} [DecidableEq ι] [DecidableEq κ] [Fintype ι]
    (hcard : Fintype.card ι < 2 ^ 32) (a : ByteBufferAllocator) (s : Machine ι κ)
    (ops : List (ProgramOp ι κ)) : FewHandlesAlong a s ops :=
  along_of_forall_states (C := fun s : Machine ι κ => FewHandles s.handles)
    (fun _ _ => Nat.lt_of_le_of_lt (Finset.card_le_univ _) hcard) s

/-- With the allocator above: a copy that is refused its block, a growth that is refused, one
that moves the block, and everything destroyed in the end. On the way a buffer is written to
itself and its block moves, and a storage is copied within itself, read into by the buffer and
read from into the buffer's block. -/
def failures {ι κ : Type} (i j : ι) (k : κ) : List (PointerOp ι κ) :=
  [.plain (.buffer (.construct i 2)), .plain (.buffer (.copyConstruct j i)),
    .plain (.buffer (.writeBytes j (some fun _ => 7) 1)),
    .plain (.buffer (.writeBytes i (some fun _ => 8) 9)), .plain (.storage (.construct k 4)),
    .plain (.storage (.reserve k 100)), .writeBytes j (.block (some 1) 0) 1,
    .setBytes k (.block (some 3) 0) 1 1, .readBytes j 3 10 1, .copyBytesTo k 4 0 1 1,
    .plain (.buffer (.moveAssign j i)), .plain (.buffer (.destruct i)),
    .plain (.storage (.destruct k)), .plain (.buffer (.destruct j))]

theorem allocator_protocol_failures :
    ∃ (s : Machine (Fin 2) (Fin 1)) (live : Address → Option Size),
      run (Machine.pointerNext .stingy) .start (failures 0 1 0) = some s
      ∧ replay (fun _ => none) s.memory.log = some live ∧ ∀ p, live p = none := by
  obtain ⟨s, live, hrun, hlog, hlive⟩ := allocator_protocol .stingy
    (failures (0 : Fin 2) 1 (0 : Fin 1)) rfl (fewHandlesThroughout_of_card (by decide) _ _ _)
  exact ⟨s, live, hrun, hlog, hlive (Fin.forall_fin_two.mpr ⟨rfl, rfl⟩)
    fun k => by rw [Subsingleton.elim k 0]; rfl⟩

/-! ## One handle too many -/

/-- Copy a buffer to `n + 1` others, and then destroy it and one of the others. -/
def destroyTwo (n : ℕ) : List (ProgramOp (Fin (n + 2)) Empty) :=
  .buffer (.construct 0 1) :: copies Empty (others (n + 1)) 0
    ++ [.buffer (.destruct 0), .buffer (.destruct 1)]

/-- The rules allow it. -/
theorem destroyTwo_legal (n : ℕ) : ∃ st, run statusStep .start (destroyTwo n) = some st := by
  obtain ⟨first, hfirst⟩ : ∃ first : Status (Fin (n + 2)) Empty,
      first = ⟨Function.update (fun _ => .absent) 0 (.holds ()), fun _ => false⟩ := ⟨_, rfl⟩
  have hcopies := run_copies_status first (j := 0) (by rw [hfirst]; rfl) (nodup_others (n + 1))
    fun i hi => by rw [hfirst]; simp [Function.update_of_ne (mem_others.mp hi)]
  have hstart : statusStep .start (.buffer (.construct 0 1)) = some first := by rw [hfirst]; rfl
  rw [destroyTwo, List.cons_append, run_cons, hstart, Option.bind_some, run_append, hcopies,
    Option.bind_some]
  simp [run_cons, statusStep, bufferStatus, modelStep, assigned, mem_others, hfirst]

/-- But when the count is back where it was, the second destruction finds the block deleted. -/
theorem destroyTwo_stuck {n : ℕ} (hn : UInt32.ofNat (n + 1) = 0) :
    run (Machine.next .granting) .start (destroyTwo n) = none := by
  obtain ⟨first, hfirst⟩ : ∃ first, Machine.next .granting (.start : Machine (Fin (n + 2)) Empty)
      (.buffer (.construct 0 1)) = some first := ⟨_, rfl⟩
  have hbuffers : first.buffers = Function.update (fun _ => none) 0 (some ⟨0, 0, some 0⟩) := by
    rw [← Option.some.inj hfirst]
    rfl
  have hblock : first.store.blocks 0 = some ⟨⟨some 0, 1⟩, 1⟩ := by
    rw [← Option.some.inj hfirst]
    rfl
  have hcopies := run_copies first (a := .granting) (j := 0) (by rw [hbuffers]; rfl) rfl hblock
    (nodup_others (n + 1)) fun i hi => by
      rw [hbuffers]
      exact Function.update_of_ne (mem_others.mp hi) _ _
  rw [destroyTwo, List.cons_append, run_cons, hfirst, Option.bind_some, run_append, hcopies,
    Option.bind_some, length_others, hn]
  simp [run_cons, Machine.next, Machine.step, Machine.bufferStep, assigned, mem_others, hbuffers,
    destruct, releaseIfAny, release, Machine.setBuffer]

/-- The protocol as it stands without a bound on the copies: a legal program of one buffer and
`2 ^ 32` copies that uses a deleted block. -/
theorem protocol_broken_by_copies :
    ∃ (a : ByteBufferAllocator) (ops : List (PointerOp (Fin (2 ^ 32 + 1)) Empty)),
      (∃ st, run pointerStatus .start ops = some st)
        ∧ run (Machine.pointerNext a) .start ops = none := by
  refine ⟨.granting, (destroyTwo (2 ^ 32 - 1)).map .plain, ?_, ?_⟩
  · rw [run_actions]
    exact destroyTwo_legal (2 ^ 32 - 1)
  · rw [run_actions]
    exact destroyTwo_stuck (by decide)

end NPFoundation
