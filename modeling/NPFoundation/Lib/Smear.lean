import Mathlib.Data.BitVec
import Mathlib.Data.Nat.Log

/-!
# Smearing a bit vector to the right

`x ||| x >>> 1`, and the same with 2, 4 and so on, sets every bit below a set bit, a longer
stretch each time. Once the stretch is as long as the vector, all bits from the highest set
one down are set, and the number is one less than a power of two.
-/

namespace Smear

variable {w : ℕ} {x y : BitVec w} {k s : ℕ}

/-- A bit of `y` is set if one of the `k` bits of `x` from there up is. -/
def Smeared (k : ℕ) (x y : BitVec w) : Prop :=
  ∀ i, y.getLsbD i = true ↔ ∃ d, d < k ∧ x.getLsbD (i + d) = true

theorem smeared_one (x : BitVec w) : Smeared 1 x x := by
  intro i
  constructor
  · intro h
    exact ⟨0, Nat.one_pos, h⟩
  · rintro ⟨d, hd, h⟩
    obtain rfl : d = 0 := by omega
    exact h

/-- One more shift. -/
theorem Smeared.step (hs : s ≤ k) (h : Smeared k x y) : Smeared (k + s) x (y ||| y >>> s) := by
  intro i
  rw [BitVec.getLsbD_or, BitVec.getLsbD_ushiftRight, Bool.or_eq_true, h, h]
  constructor
  · rintro (⟨d, hd, hx⟩ | ⟨d, hd, hx⟩)
    · exact ⟨d, by omega, hx⟩
    · refine ⟨s + d, by omega, ?_⟩
      rwa [Nat.add_left_comm, ← Nat.add_assoc]
  · rintro ⟨d, hd, hx⟩
    -- the lower stretch, or what the shift adds to it
    rcases Nat.lt_or_ge d k with hlt | hge
    · exact .inl ⟨d, hlt, hx⟩
    · refine .inr ⟨d - s, by omega, ?_⟩
      rwa [show s + i + (d - s) = i + d by omega]

/-- All bits from the highest one down. -/
theorem Smeared.toNat_eq (hw : w ≤ k) (hx : x ≠ 0) (h : Smeared k x y) :
    y.toNat = 2 ^ (x.toNat.log2 + 1) - 1 := by
  have hne : x.toNat ≠ 0 := fun hzero => hx (BitVec.eq_of_toNat_eq (by simpa using hzero))
  refine Nat.eq_of_testBit_eq fun i => ?_
  rw [Nat.testBit_two_pow_sub_one, Bool.eq_iff_iff, decide_eq_true_iff, Nat.lt_succ_iff]
  change y.getLsbD i = true ↔ _
  rw [h]
  constructor
  · rintro ⟨d, -, hd⟩
    have hle : 2 ^ (i + d) ≤ x.toNat := Nat.ge_two_pow_of_testBit hd
    have hlog : i + d ≤ x.toNat.log2 := (Nat.le_log2 hne).mpr hle
    omega
  · intro hi
    have hlt : x.toNat.log2 < w := (Nat.log2_lt hne).mpr x.isLt
    refine ⟨x.toNat.log2 - i, by omega, ?_⟩
    rw [Nat.add_sub_cancel' hi]
    exact Nat.testBit_log2 hne

end Smear
