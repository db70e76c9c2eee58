import NPFoundation.Lib.ImplicitTree
import Mathlib.Algebra.BigOperators.Intervals
import Mathlib.Data.Nat.Log

/-!
# Levels of an implicit binary tree

How far a position is from the root, and how far down its subtree goes when there are `n`
positions. A path up or down can be no longer than that. Most positions have next to nothing
below them: the heights of all positions add up to less than `n`.
-/

namespace ImplicitTree

/-- The levels above a position. -/
def depth (i : ℕ) : ℕ := Nat.log 2 (i + 1)

/-- The levels below a position, in a tree of `n`. -/
def height (n i : ℕ) : ℕ := Nat.log 2 (n / (i + 1))

variable {n i : ℕ}

theorem depth_eq (h : 0 < i) : depth i = depth (parent i) + 1 := by
  have hhalf : (i + 1) / 2 = parent i + 1 := by unfold parent; omega
  rw [depth, Nat.log_of_one_lt_of_le Nat.one_lt_two (by omega), hhalf, depth]

theorem height_eq (h : left i < n) : height n i = height n (left i) + 1 := by
  have htwo : 2 ≤ n / (i + 1) := by
    rw [Nat.le_div_iff_mul_le (Nat.succ_pos i)]
    unfold left at h
    omega
  have hhalf : n / (i + 1) / 2 = n / (left i + 1) := by
    rw [Nat.div_div_eq_div_mul, left, show (i + 1) * 2 = 2 * i + 1 + 1 by omega]
  rw [height, Nat.log_of_one_lt_of_le Nat.one_lt_two htwo, hhalf, height]

theorem height_right_le (n i : ℕ) : height n (right i) ≤ height n (left i) := by
  refine Nat.log_mono_right (Nat.div_le_div_left ?_ (Nat.succ_pos _))
  unfold left right
  omega

theorem height_child {c : ℕ} (h : left i < n) (hc : c = left i ∨ c = right i) :
    height n c + 1 ≤ height n i := by
  rw [height_eq h]
  rcases hc with rfl | rfl
  · exact Nat.le_refl _
  · exact Nat.succ_le_succ (height_right_le n i)

theorem height_root (n : ℕ) : height n 0 = Nat.log 2 n := by rw [height, Nat.div_one]

/-- Half the tree has nothing below it, and without its lowest level the tree is half as large. -/
theorem height_half (h : i < n / 2) : height n i = height (n / 2) i + 1 := by
  have htwo : 2 ≤ n / (i + 1) := by
    rw [Nat.le_div_iff_mul_le (Nat.succ_pos i)]
    omega
  rw [height, Nat.log_of_one_lt_of_le Nat.one_lt_two htwo, Nat.div_div_eq_div_mul,
    Nat.mul_comm, ← Nat.div_div_eq_div_mul, height]

theorem height_leaf (h : n / 2 ≤ i) : height n i = 0 := by
  refine Nat.log_of_lt ?_
  rw [Nat.div_lt_iff_lt_mul (Nat.succ_pos i)]
  omega

open Finset in
/-- **The heights add up to less than the size.** Only the first half of the positions have any. -/
theorem sum_height_le (n : ℕ) : ∑ i ∈ range (n / 2), height n i ≤ n - 1 := by
  induction n using Nat.strongRecOn with
  | ind n ih =>
      rcases Nat.lt_or_ge n 2 with hn | hn
      · rw [show n / 2 = 0 by omega, range_zero, sum_empty]
        exact Nat.zero_le _
      · have hhalf := ih (n / 2) (by omega)
        have hleaves : ∑ i ∈ range (n / 2), height (n / 2) i
            = ∑ i ∈ range (n / 2 / 2), height (n / 2) i := by
          refine (sum_subset (range_subset_range.mpr (Nat.div_le_self _ 2)) ?_).symm
          intro i _ hi
          exact height_leaf (by simpa using hi)
        calc ∑ i ∈ range (n / 2), height n i
            = ∑ i ∈ range (n / 2), (height (n / 2) i + 1) :=
              sum_congr rfl fun i hi => height_half (mem_range.mp hi)
          _ = ∑ i ∈ range (n / 2 / 2), height (n / 2) i + n / 2 := by
              rw [sum_add_distrib, hleaves, ← card_eq_sum_ones, card_range]
          _ ≤ n - 1 := by omega

end ImplicitTree
