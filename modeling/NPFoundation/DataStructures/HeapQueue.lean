import NPFoundation.Lib.Run
import NPFoundation.DataStructures.HeapOrder
import Mathlib.Algebra.Order.Group.Multiset

/-!
# Whole runs of a heap

A session is a heap together with the two multisets a user of it would keep in mind:
what was supplied since the last `clear`, and what has been popped since. The step
function runs the code and does the bookkeeping.

`Accounts` needs nothing of the comparison. `HeapOrdered` needs it to be a strict weak
order. Both are kept by every operation, so every statement about a session is one
about every run.
-/

namespace NPFoundation.Heap

open Transition

variable {α : Type} {lt gt : α → α → Bool} {h h' : Heap α}

/-! ## The system -/

/-- The calls a user makes on a heap that exists. -/
inductive Op (α : Type) where
  | push (value : α)
  | pop
  | top
  | clear
  deriving Repr

/-- A heap, with what went into it and what came out since the last `clear`. -/
structure Session (α : Type) where
  heap : Heap α
  supplied : Multiset α
  popped : Multiset α

/-- The two ways a heap comes to be: `Heap(type)` and `Heap(list, type)`. -/
def construct (lt gt : α → α → Bool) (type : HeapType) : Option (List α) → Option (Heap α)
  | none => some (empty type)
  | some list => ofList lt gt list type

def start (lt gt : α → α → Bool) (type : HeapType) (init : Option (List α)) :
    Option (Session α) :=
  (construct lt gt type init).map fun h => ⟨h, (init.getD [] : List α), 0⟩

/-- One call; `none` when the code left the vector. -/
def step (lt gt : α → α → Bool) (s : Session α) : Op α → Option (Session α)
  | .push value =>
      (s.heap.push lt gt value).map fun h => { s with heap := h, supplied := value ::ₘ s.supplied }
  | .pop =>
      (s.heap.pop lt gt).map fun (h, value) =>
        { s with heap := h, popped := (value.elim 0 fun a => {a}) + s.popped }
  | .top => some s
  | .clear => some ⟨s.heap.clear, 0, 0⟩

/-- Pop until `nullopt`; `none` when that takes more than the given number of calls. -/
def drain (lt gt : α → α → Bool) : Nat → Heap α → Option (List α)
  | 0, _ => none
  | fuel + 1, h =>
      match h.pop lt gt with
      | none => none
      | some (_, none) => some []
      | some (h', some a) => (drain lt gt fuel h').map (a :: ·)

/-! ## Nothing is lost -/

/-- What is stored, together with what was popped, is what was supplied. -/
def Accounts (s : Session α) : Prop := (s.heap.storage : Multiset α) + s.popped = s.supplied

theorem start_spec (lt gt : α → α → Bool) (type : HeapType) (init : Option (List α)) :
    ∃ s, start lt gt type init = some s ∧ Accounts s ∧ s.heap.type = type
      ∧ construct lt gt type init = some s.heap := by
  cases init with
  | none => exact ⟨_, rfl, rfl, rfl, rfl⟩
  | some list =>
      obtain ⟨h, hs, hperm, htype⟩ := ofList_isSome lt gt list type
      refine ⟨⟨h, list, 0⟩, by simp [start, construct, hs], ?_, htype, hs⟩
      rw [Accounts, add_zero]
      exact Multiset.coe_eq_coe.mpr hperm

theorem step_accounts (lt gt : α → α → Bool) {s : Session α} (hacc : Accounts s) (op : Op α) :
    ∃ s', step lt gt s op = some s' ∧ Accounts s' ∧ s'.heap.type = s.heap.type := by
  unfold Accounts at *
  cases op with
  | push value =>
      obtain ⟨h', hs, hperm, htype⟩ := push_isSome lt gt s.heap value
      refine ⟨_, by rw [step, hs]; rfl, ?_, htype⟩
      dsimp only
      rw [Multiset.coe_eq_coe.mpr hperm, ← Multiset.cons_coe, Multiset.cons_add, hacc]
  | pop =>
      rcases pop_spec lt gt s.heap with ⟨-, hs⟩ | ⟨h', sifted, a, hs, hp⟩
      · refine ⟨⟨s.heap, s.supplied, 0 + s.popped⟩, by rw [step, hs]; rfl, ?_, rfl⟩
        simpa using hacc
      · refine ⟨_, by rw [step, hs]; rfl, ?_, hp.type⟩
        dsimp only [Option.elim]
        rw [add_left_comm, Multiset.singleton_add, ← Multiset.cons_add, Multiset.cons_coe,
          Multiset.coe_eq_coe.mpr hp.perm, hacc]
  | top => exact ⟨s, rfl, hacc, rfl⟩
  | clear => exact ⟨_, rfl, rfl, rfl⟩

/-- Every sequence of calls runs to its end, and keeps the accounts and the type. -/
theorem run_accounts (lt gt : α → α → Bool) {s : Session α} (hacc : Accounts s)
    (ops : List (Op α)) :
    ∃ s', run (step lt gt) s ops = some s' ∧ Accounts s' ∧ s'.heap.type = s.heap.type := by
  induction ops generalizing s with
  | nil => exact ⟨s, rfl, hacc, rfl⟩
  | cons op ops ih =>
      obtain ⟨s₁, hs, hacc₁, htype₁⟩ := step_accounts lt gt hacc op
      obtain ⟨s₂, hr, hacc₂, htype₂⟩ := ih hacc₁
      exact ⟨s₂, run_cons_some.mpr ⟨s₁, hs, hr⟩, hacc₂, htype₂.trans htype₁⟩

/-- **Nothing is lost and nothing is doubled, whatever the comparisons answer.** Nothing is
assumed of `lt` and `gt`. From either constructor, every sequence of calls runs to its end; the
code answers `none` as soon as the comparator or `swap` is given a position outside the vector
as it is then, so no call ever was. Afterwards what is stored is what was supplied less what
was popped, and the next `pop` answers what `top` shows and takes out that one element. -/
theorem heap_conserves_elements (lt gt : α → α → Bool) (type : HeapType)
    (init : Option (List α)) (ops : List (Op α)) :
    (∀ (h : Heap α) (lhs rhs : Nat),
      ((h.comparator lt gt lhs rhs).isSome ↔ lhs < h.size ∧ rhs < h.size) ∧
      ((h.swap lhs rhs).isSome ↔ lhs < h.size ∧ rhs < h.size)) ∧
    ∃ s₀ s, start lt gt type init = some s₀ ∧ run (step lt gt) s₀ ops = some s
      ∧ s.heap.type = type
      ∧ (s.heap.storage : Multiset α) + s.popped = s.supplied
      ∧ (s.heap.top = none ↔ s.heap.storage = [])
      ∧ ∃ h', s.heap.pop lt gt = some (h', s.heap.top)
          ∧ (s.heap.top = none → h' = s.heap)
          ∧ ∀ a, s.heap.top = some a → (s.heap.storage : Multiset α) = a ::ₘ h'.storage := by
  refine ⟨fun h lhs rhs => ⟨comparator_isSome_iff lt gt h lhs rhs, swap_isSome_iff h lhs rhs⟩, ?_⟩
  obtain ⟨s₀, hstart, hacc₀, htype, -⟩ := start_spec lt gt type init
  obtain ⟨s, hrun, hacc, htype'⟩ := run_accounts lt gt hacc₀ ops
  obtain ⟨h', hpop, hkeep, htake⟩ := pop_takes_top lt gt s.heap
  refine ⟨s₀, s, hstart, hrun, htype'.trans htype, hacc, top_eq_none_iff s.heap, h', hpop, hkeep,
    ?_⟩
  intro a ha
  exact Multiset.coe_eq_coe.mpr (htake a ha)

/-! ## The best comes first -/

/-- What an ordered run carries along. -/
structure Queue (lt gt : α → α → Bool) (type : HeapType) (s : Session α) : Prop where
  accounts : Accounts s
  ordered : HeapOrdered lt gt s.heap
  type_eq : s.heap.type = type

section Ordered

variable {type : HeapType} [IsStrictWeakOrder α (better lt gt type)]

theorem start_queue (init : Option (List α)) {s : Session α}
    (hs : start lt gt type init = some s) : Queue lt gt type s := by
  obtain ⟨s₀, hs₀, hacc, htype, hcons⟩ := start_spec lt gt type init
  obtain rfl : s = s₀ := Option.some.inj (hs.symm.trans hs₀)
  refine ⟨hacc, ?_, htype⟩
  cases init with
  | none =>
      have hheap : s.heap = empty type := (Option.some.inj hcons).symm
      rw [hheap]
      exact fun i a b _ ha => absurd ha (by simp [empty])
  | some list => exact ofList_ordered hcons

theorem step_queue {s s' : Session α} {op : Op α} (hq : Queue lt gt type s)
    (hs : step lt gt s op = some s') : Queue lt gt type s' := by
  obtain ⟨s₁, hs₁, hacc, htype⟩ := step_accounts lt gt hq.accounts op
  obtain rfl : s' = s₁ := Option.some.inj (hs.symm.trans hs₁)
  refine ⟨hacc, ?_, htype.trans hq.type_eq⟩
  have hinst : IsStrictWeakOrder α (better lt gt s.heap.type) := by
    rw [hq.type_eq]; infer_instance
  cases op with
  | push value =>
      obtain ⟨h', hpush, rfl⟩ := Option.map_eq_some_iff.mp hs
      exact push_ordered hq.ordered hpush
  | pop =>
      rcases pop_spec lt gt s.heap with ⟨-, hpop⟩ | ⟨h', sifted, a, hpop, hp⟩
      · rw [step, hpop] at hs
        obtain rfl := Option.some.inj hs
        exact hq.ordered
      · rw [step, hpop] at hs
        obtain rfl := Option.some.inj hs
        exact hp.ordered hq.ordered
  | top =>
      obtain rfl := Option.some.inj hs
      exact hq.ordered
  | clear =>
      obtain rfl := Option.some.inj hs
      exact fun i a b _ ha => absurd ha (by simp [clear])

/-- Draining gives the contents back in order: nothing that comes later is strictly better. -/
theorem drain_sorted {fuel : Nat} (ho : HeapOrdered lt gt h) (htype : h.type = type)
    (hfuel : h.size < fuel) :
    ∃ out, drain lt gt fuel h = some out ∧ out.Perm h.storage
      ∧ out.Pairwise fun a b => ¬ better lt gt type b a := by
  induction fuel generalizing h with
  | zero => exact absurd hfuel (Nat.not_lt_zero _)
  | succ fuel ih =>
      rcases pop_spec lt gt h with ⟨hnil, hs⟩ | ⟨h', sifted, a, hs, hp⟩
      · exact ⟨[], by rw [drain, hs], by rw [hnil], List.Pairwise.nil⟩
      · subst htype
        have hsize : h'.size + 1 = h.size := hp.perm.length_eq
        obtain ⟨out, hd, hperm, hsorted⟩ := ih (hp.ordered ho) hp.type (by omega)
        have hall : (a :: out).Perm h.storage := (hperm.cons a).trans hp.perm
        refine ⟨a :: out, by rw [drain, hs]; simp [hd], hall,
          List.pairwise_cons.mpr ⟨fun b hb => ?_, hsorted⟩⟩
        exact top_best ho hp.top b (hall.subset (List.mem_cons_of_mem a hb))

end Ordered

/-- **A heap is a priority queue, over whole runs.** From either constructor, every sequence
of calls runs; afterwards the heap order holds and what is stored plus what was popped is what
was supplied. There `top` and `pop` answer `nullopt` exactly when the heap is empty, and else
the same element, which nothing stored beats and of which `pop` takes out one occurrence.
Draining gives a sorted permutation of what is stored. -/
theorem heap_is_priority_queue (lt gt : α → α → Bool)
    [hlt : IsStrictWeakOrder α fun a b => lt a b = true] (hgt : ∀ a b, gt a b = lt b a)
    (type : HeapType) (init : Option (List α)) (ops : List (Op α)) :
    ∃ s₀ s, start lt gt type init = some s₀ ∧ run (step lt gt) s₀ ops = some s
      ∧ HeapOrdered lt gt s.heap ∧ s.heap.type = type
      ∧ (s.heap.storage : Multiset α) + s.popped = s.supplied
      ∧ (s.heap.top = none ↔ s.heap.storage = [])
      ∧ (∃ h', s.heap.pop lt gt = some (h', s.heap.top)
          ∧ (s.heap.top = none → h' = s.heap)
          ∧ ∀ a, s.heap.top = some a →
              (∀ b ∈ s.heap.storage, ¬ better lt gt type b a)
              ∧ (s.heap.storage : Multiset α) = a ::ₘ h'.storage)
      ∧ ∃ out, drain lt gt (s.heap.size + 1) s.heap = some out ∧ out.Perm s.heap.storage
          ∧ out.Pairwise fun a b => ¬ better lt gt type b a := by
  have hbetter := better_strictWeakOrder hgt type
  obtain ⟨s₀, hstart, hacc, -, -⟩ := start_spec lt gt type init
  obtain ⟨s, hrun, -⟩ := run_accounts lt gt hacc ops
  have hq : Queue lt gt type s := run_invariant (fun hI hs => step_queue hI hs)
    (start_queue init hstart) hrun
  have hinst : IsStrictWeakOrder α (better lt gt s.heap.type) := by rw [hq.type_eq]; exact hbetter
  refine ⟨s₀, s, hstart, hrun, hq.ordered, hq.type_eq, hq.accounts, ?_, ?_,
    drain_sorted hq.ordered hq.type_eq (Nat.lt_succ_self _)⟩
  · exact top_eq_none_iff s.heap
  · obtain ⟨h', hpop, hkeep, htake⟩ := pop_takes_top lt gt s.heap
    refine ⟨h', hpop, hkeep, ?_⟩
    intro a ha
    have hbest := top_best hq.ordered ha
    rw [hq.type_eq] at hbest
    exact ⟨hbest, Multiset.coe_eq_coe.mpr (htake a ha)⟩

/-- The hypotheses met: pairs compared by their first component, so that different elements
may tie. -/
theorem heap_is_priority_queue_ties :
    ∃ s₀ s, start (α := Nat × Nat) (fun a b => decide (a.1 < b.1)) (fun a b => decide (b.1 < a.1))
        .max (some [(1, 0), (3, 1), (1, 2)]) = some s₀
      ∧ run (step (fun a b => decide (a.1 < b.1)) fun a b => decide (b.1 < a.1)) s₀
          [.push (3, 7), .pop] = some s
      ∧ HeapOrdered (fun a b => decide (a.1 < b.1)) (fun a b => decide (b.1 < a.1)) s.heap := by
  have hinst := strictWeakOrder_key (α := Nat × Nat) Prod.fst
  obtain ⟨s₀, s, hstart, hrun, ho, -⟩ := heap_is_priority_queue
    (fun a b : Nat × Nat => decide (a.1 < b.1)) (fun a b => decide (b.1 < a.1))
    (fun _ _ => rfl) .max (some [(1, 0), (3, 1), (1, 2)]) [.push (3, 7), .pop]
  exact ⟨s₀, s, hstart, hrun, ho⟩

end NPFoundation.Heap
