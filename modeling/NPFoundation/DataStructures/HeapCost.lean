import NPFoundation.Lib.TreeLevels
import NPFoundation.DataStructures.HeapQueue
import Mathlib.Tactic.Ring

/-!
# What a heap costs

The loops of `Heap<T>` again, with the work they give the element type counted: how often
`comparator` is called, and how often two elements are swapped. Leaving the counts out gives the
loops as they are, and nothing is assumed of the comparisons.

A sift goes along one path of the tree, at two comparisons a level on the way down and one on
the way up.
-/

namespace NPFoundation.Heap

open Transition ImplicitTree

/-- The work done so far. -/
structure Cost where
  comparisons : Nat
  swaps : Nat
  deriving DecidableEq, Repr

/-- `cost'` is at most so much more than `cost`. -/
structure Cost.Within (cost cost' : Cost) (comparisons swaps : Nat) : Prop where
  comparisons_le : cost'.comparisons ≤ cost.comparisons + comparisons
  swaps_le : cost'.swaps ≤ cost.swaps + swaps

variable {α : Type}

section Counted

variable (lt gt : α → α → Bool)

def swapCounted (h : Heap α) (lhs rhs : Nat) (cost : Cost) : Option (Heap α × Cost) :=
  (h.swap lhs rhs).map fun h' => (h', { cost with swaps := cost.swaps + 1 })

def comparatorCounted (h : Heap α) (lhs rhs : Nat) (cost : Cost) : Option (Bool × Cost) :=
  (h.comparator lt gt lhs rhs).map fun beats =>
    (beats, { cost with comparisons := cost.comparisons + 1 })

/-- `nextIndex`, counted. -/
def nextIndexCounted (h : Heap α) (idx size : Nat) (cost : Cost) : Option (Nat × Cost) :=
  match h.comparatorCounted lt gt (leftIndex idx) idx cost with
  | none => none
  | some (beats, cost) =>
      let next := if beats then leftIndex idx else idx
      if rightIndex idx < size then
        match h.comparatorCounted lt gt (rightIndex idx) next cost with
        | none => none
        | some (beats', cost) => some (if beats' then rightIndex idx else next, cost)
      else
        some (next, cost)

/-- One comparison for each child. -/
theorem nextIndexCounted_eq (h : Heap α) (idx size : Nat) (cost : Cost) :
    h.nextIndexCounted lt gt idx size cost = (h.nextIndex lt gt idx size).map fun next =>
      (next, { cost with
        comparisons := cost.comparisons + if rightIndex idx < size then 2 else 1 }) := by
  unfold nextIndexCounted nextIndex comparatorCounted
  cases hleft : h.comparator lt gt (leftIndex idx) idx with
  | none => rfl
  | some beats =>
      simp only [Option.map_some]
      by_cases hright : rightIndex idx < size
      · rw [if_pos hright, if_pos hright, if_pos hright]
        cases h.comparator lt gt (rightIndex idx) (if beats = true then leftIndex idx else idx) <;>
          rfl
      · rw [if_neg hright, if_neg hright, if_neg hright]
        rfl

theorem nextIndex_of_counted {h : Heap α} {idx size next : Nat} {cost cost' : Cost}
    (hn : h.nextIndexCounted lt gt idx size cost = some (next, cost')) :
    h.nextIndex lt gt idx size = some next := by
  rw [nextIndexCounted_eq] at hn
  obtain ⟨next', hnext, heq⟩ := Option.map_eq_some_iff.mp hn
  rw [hnext, (Prod.mk.inj heq).1]

/-- `heapify`, counted. -/
def heapifyCounted (h : Heap α) (idx size : Nat) (cost : Cost) : Option (Heap α × Cost) :=
  if leftIndex idx < size then
    match _ : h.nextIndexCounted lt gt idx size cost with
    | none => none
    | some (next, cost) =>
        if next ≠ idx then
          match h.swapCounted idx next cost with
          | none => none
          | some (h', cost) => heapifyCounted h' next size cost
        else some (h, cost)
  else some (h, cost)
termination_by size - idx
decreasing_by
  rename_i hleft _ hnext hne
  have hcases := nextIndex_cases lt gt (nextIndex_of_counted lt gt hnext)
  simp only [leftIndex, rightIndex, left, right] at *
  omega

/-- The loop of `build`, counted. -/
def buildFromCounted (h : Heap α) (size : Nat) : Nat → Cost → Option (Heap α × Cost)
  | 0, cost => some (h, cost)
  | idx + 1, cost =>
      match h.heapifyCounted lt gt idx size cost with
      | none => none
      | some (h', cost) => buildFromCounted h' size idx cost

/-- `Heap(list, type)`, counted. -/
def ofListCounted (list : List α) (type : HeapType) : Option (Heap α × Cost) :=
  buildFromCounted lt gt ⟨list, type⟩ list.length (list.length / 2) ⟨0, 0⟩

/-- `siftUp`, counted. -/
def siftUpCounted (h : Heap α) (idx : Nat) (cost : Cost) : Option (Heap α × Cost) :=
  if _ : 0 < idx then
    match h.comparatorCounted lt gt idx (parentIndex idx) cost with
    | none => none
    | some (false, cost) => some (h, cost)
    | some (true, cost) =>
        match h.swapCounted idx (parentIndex idx) cost with
        | none => none
        | some (h', cost) => siftUpCounted h' (parentIndex idx) cost
  else some (h, cost)
termination_by idx
decreasing_by exact parent_lt ‹0 < idx›

/-- `push`, counted. -/
def pushCounted (h : Heap α) (value : α) (cost : Cost) : Option (Heap α × Cost) :=
  let appended : Heap α := { h with storage := h.storage ++ [value] }
  appended.siftUpCounted lt gt (appended.size - 1) cost

/-- `pop`, counted. -/
def popCounted (h : Heap α) (cost : Cost) : Option ((Heap α × Option α) × Cost) :=
  if h.size < 1 then some ((h, none), cost)
  else
    let size := h.size - 1
    if 0 < size then
      match h.swapCounted 0 size cost with
      | none => none
      | some (swapped, cost) =>
          match swapped.heapifyCounted lt gt 0 size cost with
          | none => none
          | some (sifted, cost) => (sifted.takeBack size).map (·, cost)
    else
      (h.takeBack size).map (·, cost)

end Counted

/-! ## One operation -/

variable {lt gt : α → α → Bool} {h h' : Heap α} {idx size : Nat}

theorem Cost.Within.mono {cost cost' : Cost} {m n m' n' : Nat} (hw : cost.Within cost' m n)
    (hm : m ≤ m') (hn : n ≤ n') : cost.Within cost' m' n' :=
  ⟨Nat.le_trans hw.comparisons_le (Nat.add_le_add_left hm _),
    Nat.le_trans hw.swaps_le (Nat.add_le_add_left hn _)⟩

theorem Cost.Within.trans {cost₁ cost₂ cost₃ : Cost} {m n m' n' : Nat}
    (h₁ : cost₁.Within cost₂ m n) (h₂ : cost₂.Within cost₃ m' n') :
    cost₁.Within cost₃ (m + m') (n + n') := by
  have hm := Nat.le_trans h₂.comparisons_le (Nat.add_le_add_right h₁.comparisons_le m')
  have hn := Nat.le_trans h₂.swaps_le (Nat.add_le_add_right h₁.swaps_le n')
  exact ⟨by omega, by omega⟩

theorem Cost.Within.refl (cost : Cost) : cost.Within cost 0 0 := ⟨Nat.le_refl _, Nat.le_refl _⟩

/-- A turn of the counted loop. -/
theorem heapifyCounted_turn {next : Nat} (hleft : leftIndex idx < size)
    (hnext : h.nextIndex lt gt idx size = some next) (cost : Cost) :
    h.heapifyCounted lt gt idx size cost =
      let cost₁ : Cost :=
        { cost with comparisons := cost.comparisons + if rightIndex idx < size then 2 else 1 }
      if next ≠ idx then
        (h.swap idx next).bind fun h' =>
          h'.heapifyCounted lt gt next size { cost₁ with swaps := cost₁.swaps + 1 }
      else some (h, cost₁) := by
  rw [heapifyCounted, if_pos hleft]
  have hcounted := nextIndexCounted_eq lt gt h idx size cost
  rw [hnext, Option.map_some] at hcounted
  split
  · rename_i hnone
    rw [hcounted] at hnone
    exact absurd hnone (by simp)
  · rename_i next' cost' hsome
    rw [hcounted] at hsome
    obtain ⟨rfl, rfl⟩ := Prod.mk.inj (Option.some.inj hsome)
    unfold swapCounted
    cases h.swap idx next <;> rfl

/-- A sift down goes no further than the tree below it. -/
theorem heapifyCounted_spec (hs : h.heapify lt gt idx size = some h') (cost : Cost) :
    ∃ cost', h.heapifyCounted lt gt idx size cost = some (h', cost')
      ∧ cost.Within cost' (2 * height size idx) (height size idx) := by
  fun_induction heapify lt gt h idx size generalizing cost with
  | case1 => exact absurd hs (by simp)
  | case2 => exact absurd hs (by simp)
  | case3 h idx hleft next hnext hne h₁ hswap ih =>
      have hchild := height_child hleft ((nextIndex_cases lt gt hnext).resolve_left hne)
      obtain ⟨cost', hrest, hwithin⟩ := ih hs
        ⟨cost.comparisons + if rightIndex idx < size then 2 else 1, cost.swaps + 1⟩
      refine ⟨cost', ?_, ?_⟩
      · rw [heapifyCounted_turn hleft hnext, if_pos hne, hswap]
        exact hrest
      · have hturn : (if rightIndex idx < size then 2 else 1) ≤ 2 := by split <;> omega
        have hcomparisons := hwithin.comparisons_le
        have hswaps := hwithin.swaps_le
        dsimp only at hcomparisons hswaps
        exact ⟨by omega, by omega⟩
  | case4 h idx hleft next hnext heq =>
      obtain rfl := Option.some.inj hs
      obtain rfl : next = idx := by simpa using heq
      refine ⟨⟨cost.comparisons + if rightIndex next < size then 2 else 1, cost.swaps⟩, ?_, ?_⟩
      · rw [heapifyCounted_turn hleft hnext, if_neg heq]
      · have hturn : (if rightIndex next < size then 2 else 1) ≤ 2 := by split <;> omega
        have hlevel := height_eq hleft
        exact ⟨by dsimp only; omega, by dsimp only; omega⟩
  | case5 h idx hleft =>
      obtain rfl := Option.some.inj hs
      refine ⟨cost, by rw [heapifyCounted, if_neg hleft], (Cost.Within.refl cost).mono ?_ ?_⟩ <;>
        exact Nat.zero_le _

/-- A sift up goes no further than to the root. -/
theorem siftUpCounted_spec (hs : h.siftUp lt gt idx = some h') (cost : Cost) :
    ∃ cost', h.siftUpCounted lt gt idx cost = some (h', cost')
      ∧ cost.Within cost' (depth idx) (depth idx) := by
  fun_induction siftUp lt gt h idx generalizing cost with
  | case1 => exact absurd hs (by simp)
  | case2 h idx hpos hstop =>
      obtain rfl := Option.some.inj hs
      have hlevel : depth idx = depth (parentIndex idx) + 1 := depth_eq hpos
      refine ⟨⟨cost.comparisons + 1, cost.swaps⟩, ?_, by dsimp only; omega, by dsimp only; omega⟩
      rw [siftUpCounted, dif_pos hpos]
      simp [comparatorCounted, hstop]
  | case3 => exact absurd hs (by simp)
  | case4 h idx hpos hbeats h₁ hswap ih =>
      have hlevel : depth idx = depth (parentIndex idx) + 1 := depth_eq hpos
      obtain ⟨cost', hrest, hwithin⟩ := ih hs ⟨cost.comparisons + 1, cost.swaps + 1⟩
      refine ⟨cost', ?_, ?_⟩
      · rw [siftUpCounted, dif_pos hpos]
        simp only [comparatorCounted, hbeats, Option.map_some, swapCounted, hswap]
        exact hrest
      · have hcomparisons := hwithin.comparisons_le
        have hswaps := hwithin.swaps_le
        dsimp only at hcomparisons hswaps
        exact ⟨by omega, by omega⟩
  | case5 h idx hpos =>
      obtain rfl := Option.some.inj hs
      refine ⟨cost, by rw [siftUpCounted, dif_neg hpos], (Cost.Within.refl cost).mono ?_ ?_⟩ <;>
        exact Nat.zero_le _

open Finset in
theorem buildFromCounted_spec {k : Nat} (hs : h.buildFrom lt gt size k = some h') (cost : Cost) :
    ∃ cost', h.buildFromCounted lt gt size k cost = some (h', cost')
      ∧ cost.Within cost' (2 * ∑ i ∈ range k, height size i) (∑ i ∈ range k, height size i) := by
  induction k generalizing h cost with
  | zero =>
      obtain rfl := Option.some.inj hs
      exact ⟨cost, rfl, .refl cost⟩
  | succ k ih =>
      rw [buildFrom] at hs
      cases hsift : h.heapify lt gt k size with
      | none =>
          rw [hsift] at hs
          exact absurd hs (by simp)
      | some h₁ =>
          rw [hsift] at hs
          obtain ⟨cost₁, hcounted, hwithin⟩ := heapifyCounted_spec hsift cost
          obtain ⟨cost', hrest, hwithin'⟩ := ih hs cost₁
          refine ⟨cost', by rw [buildFromCounted, hcounted]; exact hrest, ?_⟩
          rw [sum_range_succ, Nat.mul_add]
          exact (hwithin.trans hwithin').mono (by omega) (by omega)

/-- `build` is linear in the size. -/
theorem ofListCounted_spec {list : List α} {type : HeapType} (hs : ofList lt gt list type = some h) :
    ∃ cost, ofListCounted lt gt list type = some (h, cost)
      ∧ Cost.Within ⟨0, 0⟩ cost (2 * (list.length - 1)) (list.length - 1) := by
  obtain ⟨cost, hcounted, hwithin⟩ := buildFromCounted_spec (h := ⟨list, type⟩) hs ⟨0, 0⟩
  have hsum := sum_height_le list.length
  exact ⟨cost, hcounted, hwithin.mono (Nat.mul_le_mul_left 2 hsum) hsum⟩

theorem pushCounted_spec {value : α} (hs : h.push lt gt value = some h') (cost : Cost) :
    ∃ cost', h.pushCounted lt gt value cost = some (h', cost')
      ∧ cost.Within cost' (Nat.log 2 (h.size + 1)) (Nat.log 2 (h.size + 1)) := by
  obtain ⟨cost', hcounted, hwithin⟩ := siftUpCounted_spec hs cost
  have hlast : depth ((h.storage ++ [value]).length - 1) = Nat.log 2 (h.size + 1) := by
    simp [depth, size]
  exact ⟨cost', hcounted, hlast ▸ hwithin⟩

theorem popCounted_spec {value : Option α} (hs : h.pop lt gt = some (h', value)) (cost : Cost) :
    ∃ cost', h.popCounted lt gt cost = some ((h', value), cost')
      ∧ cost.Within cost' (2 * Nat.log 2 (h.size - 1)) (Nat.log 2 (h.size - 1) + 1) := by
  unfold pop at hs
  unfold popCounted
  by_cases hempty : h.size < 1
  · rw [if_pos hempty] at hs ⊢
    obtain ⟨rfl, rfl⟩ := Prod.mk.inj (Option.some.inj hs)
    exact ⟨cost, rfl, (Cost.Within.refl cost).mono (Nat.zero_le _) (Nat.zero_le _)⟩
  rw [if_neg hempty] at hs ⊢
  by_cases hone : 0 < h.size - 1
  · dsimp only at hs ⊢
    rw [if_pos hone] at hs ⊢
    cases hswap : h.swap 0 (h.size - 1) with
    | none =>
        rw [hswap] at hs
        exact absurd hs (by simp)
    | some swapped =>
        rw [hswap] at hs
        dsimp only at hs
        cases hsift : swapped.heapify lt gt 0 (h.size - 1) with
        | none =>
            rw [hsift] at hs
            exact absurd hs (by simp)
        | some sifted =>
            rw [hsift] at hs
            dsimp only at hs
            obtain ⟨cost', hcounted, hwithin⟩ :=
              heapifyCounted_spec hsift { cost with swaps := cost.swaps + 1 }
            rw [height_root] at hwithin
            have hswaps := hwithin.swaps_le
            dsimp only at hswaps
            refine ⟨cost', ?_, hwithin.comparisons_le, by omega⟩
            simp only [swapCounted, hswap, Option.map_some, hcounted, hs]
  · dsimp only at hs ⊢
    rw [if_neg hone] at hs ⊢
    refine ⟨cost, ?_, (Cost.Within.refl cost).mono (Nat.zero_le _) (Nat.zero_le _)⟩
    simp only [hs, Option.map_some]

/-! ## Whole sessions -/

section Sessions

variable (lt gt : α → α → Bool)

/-- `start`, counted. -/
def startCounted (type : HeapType) : Option (List α) → Option (Session α × Cost)
  | none => some (⟨empty type, 0, 0⟩, ⟨0, 0⟩)
  | some list => (ofListCounted lt gt list type).map fun (h, cost) => (⟨h, list, 0⟩, cost)

/-- `step`, counted. -/
def stepCounted (p : Session α × Cost) : Op α → Option (Session α × Cost)
  | .push value =>
      (p.1.heap.pushCounted lt gt value p.2).map fun (h, cost) =>
        ({ p.1 with heap := h, supplied := value ::ₘ p.1.supplied }, cost)
  | .pop =>
      (p.1.heap.popCounted lt gt p.2).map fun ((h, value), cost) =>
        ({ p.1 with heap := h, popped := (value.elim 0 fun a => {a}) + p.1.popped }, cost)
  | .top => some p
  | .clear => some (⟨p.1.heap.clear, 0, 0⟩, p.2)

end Sessions

def Op.isPush : Op α → Bool
  | .push _ => true
  | _ => false

def Op.isPop : Op α → Bool
  | .pop => true
  | _ => false

/-- What a call costs on a heap of `n` elements: a push goes up from its new leaf, a pop down from
the root of what is left. -/
def Op.comparisonsOn (n : Nat) : Op α → Nat
  | .push _ => Nat.log 2 (n + 1)
  | .pop => 2 * Nat.log 2 (n - 1)
  | _ => 0

/-- The last element is swapped with the root before it sinks. -/
def Op.swapsOn (n : Nat) : Op α → Nat
  | .push _ => Nat.log 2 (n + 1)
  | .pop => Nat.log 2 (n - 1) + 1
  | _ => 0

/-- What some calls may cost on a heap of up to `n` elements. -/
def comparisonsBound (n : Nat) (ops : List (Op α)) : Nat :=
  (ops.countP Op.isPush + 2 * ops.countP Op.isPop) * Nat.log 2 n

def swapsBound (n : Nat) (ops : List (Op α)) : Nat :=
  ops.countP Op.isPush * Nat.log 2 n + ops.countP Op.isPop * (Nat.log 2 n + 1)

variable {s s' : Session α} {op : Op α} {n : Nat}

theorem comparisonsBound_cons (n : Nat) (op : Op α) (ops : List (Op α)) :
    comparisonsBound n (op :: ops) = comparisonsBound n [op] + comparisonsBound n ops := by
  unfold comparisonsBound
  rw [← List.singleton_append, List.countP_append, List.countP_append]
  ring

theorem swapsBound_cons (n : Nat) (op : Op α) (ops : List (Op α)) :
    swapsBound n (op :: ops) = swapsBound n [op] + swapsBound n ops := by
  unfold swapsBound
  rw [← List.singleton_append, List.countP_append, List.countP_append]
  ring

/-- **One call.** It costs the levels of the tree on the way of its sift. -/
theorem stepCounted_cost (hs : step lt gt s op = some s') (cost : Cost) :
    ∃ cost', stepCounted lt gt (s, cost) op = some (s', cost')
      ∧ cost.Within cost' (op.comparisonsOn s.heap.size) (op.swapsOn s.heap.size) := by
  cases op with
  | push value =>
      obtain ⟨h', hpush, rfl⟩ := Option.map_eq_some_iff.mp hs
      obtain ⟨cost', hcounted, hwithin⟩ := pushCounted_spec hpush cost
      exact ⟨cost', by simp [stepCounted, hcounted], hwithin⟩
  | pop =>
      obtain ⟨⟨h', value⟩, hpop, rfl⟩ := Option.map_eq_some_iff.mp hs
      obtain ⟨cost', hcounted, hwithin⟩ := popCounted_spec hpop cost
      exact ⟨cost', by simp [stepCounted, hcounted], hwithin⟩
  | top =>
      obtain rfl := Option.some.inj hs
      exact ⟨cost, rfl, .refl cost⟩
  | clear =>
      obtain rfl := Option.some.inj hs
      exact ⟨cost, rfl, .refl cost⟩

/-- A push makes the heap one larger, and nothing else does. -/
theorem size_step (hs : step lt gt s op = some s') :
    s'.heap.size ≤ s.heap.size + [op].countP Op.isPush := by
  cases op with
  | push value =>
      obtain ⟨h', hpush, rfl⟩ := Option.map_eq_some_iff.mp hs
      obtain ⟨h₁, hpush₁, hperm, -⟩ := push_isSome lt gt s.heap value
      obtain rfl : h' = h₁ := Option.some.inj (hpush.symm.trans hpush₁)
      have hlength := hperm.length_eq
      simpa [size, Op.isPush] using Nat.le_of_eq hlength
  | pop =>
      obtain ⟨⟨h', value⟩, hpop, rfl⟩ := Option.map_eq_some_iff.mp hs
      rcases pop_spec lt gt s.heap with ⟨-, hnone⟩ | ⟨h₁, sifted, a, hsome, hp⟩
      · obtain ⟨rfl, -⟩ := Prod.mk.inj (Option.some.inj (hpop.symm.trans hnone))
        exact Nat.le_add_right _ _
      · obtain ⟨rfl, -⟩ := Prod.mk.inj (Option.some.inj (hpop.symm.trans hsome))
        have hlength := hp.perm.length_eq
        rw [List.length_cons] at hlength
        change h'.storage.length ≤ s.heap.storage.length + _
        omega
  | top =>
      obtain rfl := Option.some.inj hs
      exact Nat.le_add_right _ _
  | clear =>
      obtain rfl := Option.some.inj hs
      exact Nat.zero_le _

/-- On a heap of up to `n` elements a call costs no more than what it is counted with. -/
theorem Op.cost_le (op : Op α) {m n : Nat} (hm : m + [op].countP Op.isPush ≤ n) :
    op.comparisonsOn m ≤ comparisonsBound n [op] ∧ op.swapsOn m ≤ swapsBound n [op] := by
  cases op with
  | push value =>
      have hlog : Nat.log 2 (m + 1) ≤ Nat.log 2 n := Nat.log_mono_right hm
      simpa [comparisonsOn, swapsOn, comparisonsBound, swapsBound, isPush, isPop] using hlog
  | pop =>
      have hlog : Nat.log 2 (m - 1) ≤ Nat.log 2 n := Nat.log_mono_right (by omega)
      simpa [comparisonsOn, swapsOn, comparisonsBound, swapsBound, isPush, isPop] using hlog
  | top => exact ⟨Nat.zero_le _, Nat.zero_le _⟩
  | clear => exact ⟨Nat.zero_le _, Nat.zero_le _⟩

theorem runCounted_spec {ops : List (Op α)} (hrun : run (step lt gt) s ops = some s')
    (hsize : s.heap.size + ops.countP Op.isPush ≤ n) (cost : Cost) :
    ∃ cost', run (stepCounted lt gt) (s, cost) ops = some (s', cost')
      ∧ cost.Within cost' (comparisonsBound n ops) (swapsBound n ops) := by
  induction ops generalizing s cost with
  | nil =>
      obtain rfl := Option.some.inj hrun
      exact ⟨cost, rfl, (Cost.Within.refl cost).mono (Nat.zero_le _) (Nat.zero_le _)⟩
  | cons op ops ih =>
      obtain ⟨s₁, hstep, hrest⟩ := run_cons_some.mp hrun
      have hcount : (op :: ops).countP Op.isPush
          = [op].countP Op.isPush + ops.countP Op.isPush := by
        rw [← List.singleton_append, List.countP_append]
      obtain ⟨cost₁, hcounted, hwithin⟩ := stepCounted_cost hstep cost
      have hsize₁ := size_step hstep
      have hroom : s.heap.size + [op].countP Op.isPush ≤ n := by omega
      obtain ⟨hcomparisons, hswaps⟩ := op.cost_le hroom
      obtain ⟨cost', hrun', hwithin'⟩ := ih hrest (by omega) cost₁
      refine ⟨cost', run_cons_some.mpr ⟨_, hcounted, hrun'⟩, ?_⟩
      rw [comparisonsBound_cons, swapsBound_cons]
      exact (hwithin.mono hcomparisons hswaps).trans hwithin'

/-- **Building is linear, and the operations are logarithmic.** Whatever the comparisons answer:
making a heap of `n` elements takes no more than `2 * (n - 1)` comparisons and `n - 1` swaps. Each
push in a run after it takes one comparison for each level of the tree at most, each pop two; so
the whole run takes no more than that on a heap of all there was and all that was pushed. -/
theorem session_cost (lt gt : α → α → Bool) (type : HeapType) (init : Option (List α))
    (ops : List (Op α)) :
    ∃ s₀ cost₀ s cost,
      start lt gt type init = some s₀ ∧ startCounted lt gt type init = some (s₀, cost₀)
      ∧ run (step lt gt) s₀ ops = some s
      ∧ run (stepCounted lt gt) (s₀, cost₀) ops = some (s, cost)
      ∧ Cost.Within ⟨0, 0⟩ cost₀ (2 * ((init.getD []).length - 1)) ((init.getD []).length - 1)
      ∧ (∀ before op after, ops = before ++ op :: after → ∃ s₁ cost₁ s₂ cost₂,
          run (stepCounted lt gt) (s₀, cost₀) before = some (s₁, cost₁)
          ∧ stepCounted lt gt (s₁, cost₁) op = some (s₂, cost₂)
          ∧ cost₁.Within cost₂ (op.comparisonsOn s₁.heap.size) (op.swapsOn s₁.heap.size))
      ∧ cost.comparisons ≤ cost₀.comparisons + (ops.countP Op.isPush + 2 * ops.countP Op.isPop)
          * Nat.log 2 ((init.getD []).length + ops.countP Op.isPush)
      ∧ cost.swaps ≤ cost₀.swaps + (ops.countP Op.isPush + ops.countP Op.isPop)
          * (Nat.log 2 ((init.getD []).length + ops.countP Op.isPush) + 1) := by
  obtain ⟨s₀, hstart, hacc₀, -, hconstruct⟩ := start_spec lt gt type init
  obtain ⟨s, hrun, -, -⟩ := run_accounts lt gt hacc₀ ops
  obtain ⟨cost₀, hcounted, hwithin, hsize⟩ : ∃ cost₀, startCounted lt gt type init = some (s₀, cost₀)
      ∧ Cost.Within ⟨0, 0⟩ cost₀ (2 * ((init.getD []).length - 1)) ((init.getD []).length - 1)
      ∧ s₀.heap.size = (init.getD []).length := by
    cases init with
    | none =>
        obtain rfl := Option.some.inj hstart
        exact ⟨⟨0, 0⟩, rfl, .refl _, rfl⟩
    | some list =>
        obtain ⟨h, hbuild, rfl⟩ := Option.map_eq_some_iff.mp hstart
        obtain ⟨cost₀, hcounted, hwithin⟩ := ofListCounted_spec hbuild
        obtain ⟨h₁, hbuild₁, hperm, -⟩ := ofList_isSome lt gt list type
        obtain rfl : h = h₁ := Option.some.inj (hbuild.symm.trans hbuild₁)
        exact ⟨cost₀, by simp [startCounted, hcounted], hwithin, hperm.length_eq⟩
  obtain ⟨cost, hrun', hspent⟩ := runCounted_spec hrun (Nat.le_of_eq (by rw [hsize])) cost₀
  refine ⟨s₀, cost₀, s, cost, hstart, hcounted, hrun, hrun', hwithin, ?_, hspent.comparisons_le, ?_⟩
  · rintro before op after rfl
    obtain ⟨s₁, hbefore, hafter⟩ := run_append_some.mp hrun
    obtain ⟨s₂, hop, -⟩ := run_cons_some.mp hafter
    obtain ⟨cost₁, hcounted₁, -⟩ := runCounted_spec hbefore (Nat.le_refl _) cost₀
    obtain ⟨cost₂, hcounted₂, hcall⟩ := stepCounted_cost hop cost₁
    exact ⟨s₁, cost₁, s₂, cost₂, hcounted₁, hcounted₂, hcall⟩
  · refine Nat.le_trans hspent.swaps_le (Nat.add_le_add_left ?_ _)
    rw [swapsBound, Nat.add_mul]
    exact Nat.add_le_add_right (Nat.mul_le_mul_left _ (Nat.le_succ _)) _

end NPFoundation.Heap
