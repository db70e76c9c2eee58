import Mathlib.Algebra.BigOperators.Group.List.Basic
import Mathlib.Algebra.Order.Ring.Nat
import Mathlib.Data.List.Chain

/-!
# Sizes that at least double

The sizes something has had, the newest first, each at least twice the one before. All the
earlier ones together are less than the newest, and there are no more of them than its
logarithm.
-/

/-- Each number is at least twice the one after it, and none is 0. -/
structure Doubling (sizes : List ℕ) : Prop where
  chain : sizes.IsChain fun newer older => 2 * older ≤ newer
  pos : ∀ n ∈ sizes, 0 < n

namespace Doubling

variable {newest n : ℕ} {earlier : List ℕ}

theorem singleton (h : 0 < n) : Doubling [n] where
  chain := List.isChain_singleton n
  pos := fun _ hm => List.mem_singleton.mp hm ▸ h

theorem cons (h : Doubling (n :: earlier)) (hnewest : 2 * n ≤ newest) :
    Doubling (newest :: n :: earlier) where
  chain := List.isChain_cons_cons.mpr ⟨hnewest, h.chain⟩
  pos := by
    intro m hm
    rcases List.mem_cons.mp hm with rfl | hm
    · have hpos := h.pos n List.mem_cons_self
      omega
    · exact h.pos m hm

theorem tail (h : Doubling (newest :: earlier)) : Doubling earlier where
  chain := h.chain.tail
  pos := fun m hm => h.pos m (List.mem_cons_of_mem _ hm)

/-- The geometric sum. -/
theorem sum_lt (h : Doubling (newest :: earlier)) : earlier.sum < newest := by
  induction earlier generalizing newest with
  | nil => exact h.pos newest List.mem_cons_self
  | cons n earlier ih =>
      have htwice := (List.isChain_cons_cons.mp h.chain).1
      have hsum := ih h.tail
      rw [List.sum_cons]
      omega

theorem two_pow_length_le (h : Doubling (newest :: earlier)) : 2 ^ earlier.length ≤ newest := by
  induction earlier generalizing newest with
  | nil => exact h.pos newest List.mem_cons_self
  | cons n earlier ih =>
      have htwice := (List.isChain_cons_cons.mp h.chain).1
      have hpow := ih h.tail
      rw [List.length_cons, Nat.pow_succ]
      omega

end Doubling
