import Mathlib.Algebra.Order.BigOperators.Group.Finset
import Mathlib.Data.Fintype.BigOperators

/-!
# Tallies over a finite family

The invariants of a concurrent or reference-counted program count things: calls
in flight, handles on a block. Each count is a sum over a finite family (threads,
variables) of a weight of one entry, and each step changes one entry. These are
the facts that turn "one entry changed" into "the sum changed by this much".
-/

namespace Tally

variable {ι β : Type*} [Fintype ι]

/-- The total weight of a family. -/
def total (weight : β → ℕ) (g : ι → β) : ℕ := ∑ i, weight (g i)

/-- Replacing one entry swaps its weight for the new one. -/
theorem total_update [DecidableEq ι] (weight : β → ℕ) (g : ι → β) (i : ι) (b : β) :
    total weight (Function.update g i b) + weight (g i) = total weight g + weight b := by
  have hrest : ∑ j ∈ Finset.univ.erase i, weight (Function.update g i b j)
      = ∑ j ∈ Finset.univ.erase i, weight (g j) := by
    refine Finset.sum_congr rfl fun j hj => ?_
    rw [Function.update_of_ne (Finset.ne_of_mem_erase hj)]
  have hnew := Finset.add_sum_erase Finset.univ (fun j => weight (Function.update g i b j))
    (Finset.mem_univ i)
  have hold := Finset.add_sum_erase Finset.univ (fun j => weight (g j)) (Finset.mem_univ i)
  simp only [Function.update_self] at hnew
  unfold total
  omega

theorem weight_le_total (weight : β → ℕ) (g : ι → β) (i : ι) : weight (g i) ≤ total weight g :=
  Finset.single_le_sum (f := fun j => weight (g j)) (fun _ _ => Nat.zero_le _) (Finset.mem_univ i)

theorem total_eq_zero {weight : β → ℕ} {g : ι → β} :
    total weight g = 0 ↔ ∀ i, weight (g i) = 0 := by
  unfold total
  rw [Finset.sum_eq_zero_iff]
  exact ⟨fun h i => h i (Finset.mem_univ i), fun h i _ => h i⟩

/-- A positive tally has an entry that contributes to it. -/
theorem exists_of_total_pos {weight : β → ℕ} {g : ι → β} (h : 0 < total weight g) :
    ∃ i, 0 < weight (g i) := by
  by_contra hn
  have hz : total weight g = 0 :=
    total_eq_zero.mpr fun i => Nat.le_zero.mp (Nat.not_lt.mp fun hi => hn ⟨i, hi⟩)
  omega

/-! ## How often a value occurs -/

section Occurrences

variable [DecidableEq β]

/-- How many members of the family are `b`. -/
def occurrences (g : ι → β) (b : β) : ℕ := (Finset.univ.filter fun i => g i = b).card

theorem occurrences_eq_total (g : ι → β) (b : β) :
    occurrences g b = total (fun c => if c = b then 1 else 0) g := by
  rw [occurrences, Finset.card_filter, total]

theorem occurrences_update [DecidableEq ι] (g : ι → β) (i : ι) (c b : β) :
    occurrences (Function.update g i c) b + (if g i = b then 1 else 0)
      = occurrences g b + (if c = b then 1 else 0) := by
  rw [occurrences_eq_total, occurrences_eq_total]
  exact total_update (fun c => if c = b then 1 else 0) g i c

theorem occurrences_pos {g : ι → β} {b : β} : 0 < occurrences g b ↔ ∃ i, g i = b := by
  rw [occurrences, Finset.card_pos]
  exact ⟨fun ⟨i, hi⟩ => ⟨i, (Finset.mem_filter.mp hi).2⟩,
    fun ⟨i, hi⟩ => ⟨i, Finset.mem_filter.mpr ⟨Finset.mem_univ i, hi⟩⟩⟩

theorem eq_of_occurrences_le_one {g : ι → β} {b : β} {i j : ι} (h : occurrences g b ≤ 1)
    (hi : g i = b) (hj : g j = b) : i = j :=
  Finset.card_le_one.mp h i (Finset.mem_filter.mpr ⟨Finset.mem_univ i, hi⟩) j
    (Finset.mem_filter.mpr ⟨Finset.mem_univ j, hj⟩)

theorem occurrences_eq_zero {g : ι → β} {b : β} : occurrences g b = 0 ↔ ∀ i, g i ≠ b := by
  rw [← Nat.le_zero, ← Nat.not_lt, occurrences_pos, not_exists]

/-- Entries of a second family that each stand for another member than the ones counted: the
two counts together do not exceed the family. -/
theorem occurrences_add_le_card {κ γ : Type*} [Fintype κ] [DecidableEq γ] {g : ι → β} {b : β}
    {g' : κ → γ} {c : γ} (stands : κ → ι → Prop)
    (hstands : ∀ k, g' k = c → ∃ i, stands k i ∧ g i ≠ b)
    (hinj : ∀ k k' i, stands k i → stands k' i → k = k') :
    occurrences g b + occurrences g' c ≤ Fintype.card ι := by
  classical
  have hle : occurrences g' c ≤ (Finset.univ.filter fun i => ¬ g i = b).card := by
    rcases isEmpty_or_nonempty ι with hempty | hne
    · have hzero : occurrences g' c = 0 := occurrences_eq_zero.mpr fun k hk =>
        hempty.false (hstands k hk).choose
      omega
    · choose! pick hpick using hstands
      refine Finset.card_le_card_of_injOn pick (fun k hk => ?_) fun k hk k' hk' heq => ?_
      · exact Finset.mem_coe.mpr (Finset.mem_filter.mpr
          ⟨Finset.mem_univ _, (hpick k (Finset.mem_filter.mp hk).2).2⟩)
      · exact hinj k k' (pick k) (hpick k (Finset.mem_filter.mp hk).2).1
          (heq ▸ (hpick k' (Finset.mem_filter.mp hk').2).1)
  have hall := Finset.card_filter_add_card_filter_not (s := Finset.univ) fun i => g i = b
  rw [Finset.card_univ] at hall
  unfold occurrences at *
  omega

/-- Entries of a second family that each stand for another of the ones counted. -/
theorem occurrences_le {κ γ : Type*} [Fintype κ] [DecidableEq γ] {g : ι → β} {b : β} {g' : κ → γ}
    {c : γ} (stands : κ → ι → Prop) (hstands : ∀ k, g' k = c → ∃ i, stands k i ∧ g i = b)
    (hinj : ∀ k k' i, stands k i → stands k' i → k = k') :
    occurrences g' c ≤ occurrences g b := by
  classical
  rcases isEmpty_or_nonempty ι with hempty | hne
  · have hzero : occurrences g' c = 0 := occurrences_eq_zero.mpr fun k hk =>
      hempty.false (hstands k hk).choose
    omega
  · choose! pick hpick using hstands
    refine Finset.card_le_card_of_injOn pick (fun k hk => ?_) fun k hk k' hk' heq => ?_
    · exact Finset.mem_coe.mpr (Finset.mem_filter.mpr
        ⟨Finset.mem_univ _, (hpick k (Finset.mem_filter.mp hk).2).2⟩)
    · exact hinj k k' (pick k) (hpick k (Finset.mem_filter.mp hk).2).1
        (heq ▸ (hpick k' (Finset.mem_filter.mp hk').2).1)

end Occurrences

/-! ## Views of the members of a family of lists -/

section Sightings

variable {γ : Type*} [DecidableEq γ] {view : β → Option γ} {c : γ} {lists : ι → List β}
  {i j : ι} {x y : β} {rest : List β}

/-- How many members of all the lists show `c`. -/
def sightings (view : β → Option γ) (c : γ) (lists : ι → List β) : ℕ :=
  total (fun list => list.countP fun x => view x = some c) lists

theorem sightings_update [DecidableEq ι] (view : β → Option γ) (c : γ) (lists : ι → List β) (i : ι)
    (list : List β) :
    sightings view c (Function.update lists i list) + (lists i).countP (fun x => view x = some c)
      = sightings view c lists + list.countP fun x => view x = some c :=
  total_update _ lists i list

/-- A list is used as a stack: one more on top. -/
theorem sightings_push [DecidableEq ι] (view : β → Option γ) (c : γ) (lists : ι → List β) (i : ι)
    (x : β) :
    sightings view c (Function.update lists i (x :: lists i))
      = sightings view c lists + if view x = some c then 1 else 0 := by
  have h := sightings_update view c lists i (x :: lists i)
  rw [List.countP_cons] at h
  simp only [decide_eq_true_eq] at h
  omega

theorem sightings_pop [DecidableEq ι] (view : β → Option γ) (c : γ) (hi : lists i = x :: rest) :
    sightings view c (Function.update lists i rest) + (if view x = some c then 1 else 0)
      = sightings view c lists := by
  have h := sightings_update view c lists i rest
  rw [hi, List.countP_cons] at h
  simp only [decide_eq_true_eq] at h
  omega

/-- The top is exchanged. -/
theorem sightings_swap [DecidableEq ι] (view : β → Option γ) (c : γ) (hi : lists i = x :: rest)
    (y : β) :
    sightings view c (Function.update lists i (y :: rest)) + (if view x = some c then 1 else 0)
      = sightings view c lists + if view y = some c then 1 else 0 := by
  have h := sightings_update view c lists i (y :: rest)
  rw [hi, List.countP_cons, List.countP_cons] at h
  simp only [decide_eq_true_eq] at h
  omega

omit [Fintype ι] [DecidableEq γ] in
theorem mem_pushed [DecidableEq ι] {list : List β} (hi : lists i = list)
    (h : y ∈ Function.update lists i (x :: list) j) : (j = i ∧ y = x) ∨ y ∈ lists j := by
  by_cases hj : j = i
  · subst hj
    rw [Function.update_self] at h
    rcases List.mem_cons.mp h with rfl | h
    · exact .inl ⟨rfl, rfl⟩
    · exact .inr (hi ▸ h)
  · rw [Function.update_of_ne hj] at h
    exact .inr h

omit [Fintype ι] [DecidableEq γ] in
theorem mem_popped [DecidableEq ι] (hi : lists i = x :: rest)
    (h : y ∈ Function.update lists i rest j) : y ∈ lists j ∧ (j = i → y ∈ rest) := by
  by_cases hj : j = i
  · subst hj
    rw [Function.update_self] at h
    exact ⟨by rw [hi]; exact List.mem_cons_of_mem x h, fun _ => h⟩
  · rw [Function.update_of_ne hj] at h
    exact ⟨h, fun hc => absurd hc hj⟩

omit [Fintype ι] [DecidableEq γ] in
theorem mem_swapped [DecidableEq ι] {z : β} (hi : lists i = x :: rest)
    (h : z ∈ Function.update lists i (y :: rest) j) :
    (j = i ∧ z = y) ∨ (z ∈ lists j ∧ (j = i → z ∈ rest)) := by
  by_cases hj : j = i
  · subst hj
    rw [Function.update_self] at h
    rcases List.mem_cons.mp h with rfl | h
    · exact .inl ⟨rfl, rfl⟩
    · exact .inr ⟨by rw [hi]; exact List.mem_cons_of_mem x h, fun _ => h⟩
  · rw [Function.update_of_ne hj] at h
    exact .inr ⟨h, fun hc => absurd hc hj⟩

theorem sightings_pos : 0 < sightings view c lists ↔ ∃ i, ∃ x ∈ lists i, view x = some c := by
  constructor
  · intro h
    obtain ⟨i, hi⟩ := exists_of_total_pos h
    obtain ⟨x, hmem, hx⟩ := List.countP_pos_iff.mp hi
    exact ⟨i, x, hmem, of_decide_eq_true hx⟩
  · rintro ⟨i, x, hmem, hx⟩
    have hpos : 0 < (lists i).countP fun x => view x = some c :=
      List.countP_pos_iff.mpr ⟨x, hmem, decide_eq_true hx⟩
    exact hpos.trans_le (weight_le_total (fun list : List β =>
      list.countP fun x => view x = some c) lists i)

theorem sightings_empty (view : β → Option γ) (c : γ) : sightings view c (fun _ : ι => []) = 0 :=
  Nat.le_zero.mp (Nat.not_lt.mp fun hpos => by
    obtain ⟨_, x, hmem, -⟩ := sightings_pos.mp hpos
    exact absurd hmem (by simp))

/-- What is seen at most once is at one place of one list. -/
theorem eq_of_sightings_le_one (hle : sightings view c lists ≤ 1) (hi : lists i = x :: rest)
    (hx : view x = some c) (hmem : y ∈ lists j) (hy : view y = some c) : j = i ∧ y ∉ rest := by
  classical
  have hpos : 0 < (lists j).countP fun x => view x = some c :=
    List.countP_pos_iff.mpr ⟨y, hmem, decide_eq_true hy⟩
  have hone := sightings_update view c lists i rest
  rw [hi, List.countP_cons, if_pos (decide_eq_true hx)] at hone
  have hzero : sightings view c (Function.update lists i rest) = 0 := by omega
  have hnone : ∀ k, ∀ z ∈ Function.update lists i rest k, view z ≠ some c := by
    intro k z hz hview
    have hseen : 0 < sightings view c (Function.update lists i rest) :=
      sightings_pos.mpr ⟨k, z, hz, hview⟩
    omega
  refine ⟨?_, ?_⟩
  · by_contra hne
    exact hnone j y (by rwa [Function.update_of_ne hne]) hy
  · intro hrest
    exact hnone i y (by rwa [Function.update_self]) hy

end Sightings

end Tally
