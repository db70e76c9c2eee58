import NPFoundation.Lib.Smear
import NPFoundation.ByteBuffer.Storage

/-!
# The rounding of capacities

`nextPowerOf2ClampedToMax` is the least power of two that is not below its argument, or the
largest number there is when no power of two of that width is. That makes it monotone, and it
leaves its own results alone. A copy of it with every step checked always answers, so no step
of it wraps around.
-/

namespace NPFoundation

open Smear

/-- The least power of two that is at least `n`, or the largest number of `w` bits. -/
def roundUp (w n : ℕ) : ℕ := if Nat.clog 2 n < w then 2 ^ Nat.clog 2 n else 2 ^ w - 1

variable {w : ℕ}

theorem clog_of_pred_log2 {n : ℕ} (hn : 2 ≤ n) : (n - 1).log2 + 1 = Nat.clog 2 n := by
  have hne : n - 1 ≠ 0 := by omega
  have hlow : 2 ^ (n - 1).log2 ≤ n - 1 := Nat.log2_self_le hne
  have hhigh : n - 1 < 2 ^ ((n - 1).log2 + 1) := Nat.lt_log2_self
  refine Nat.le_antisymm ?_ ?_
  · exact (Nat.lt_clog_iff_pow_lt (by decide)).mpr (by omega)
  · exact Nat.clog_le_of_le_pow (by omega)

theorem toNat_one (hw : 0 < w) : (1 : BitVec w).toNat = 1 := by
  change (BitVec.ofNat w 1).toNat = 1
  rw [BitVec.toNat_ofNat, Nat.mod_eq_of_lt (Nat.one_lt_two_pow (by omega))]

/-- For a `Size` of up to 64 bits the shifts are enough. -/
theorem toNat_nextPowerOf2ClampedToMax (hw : 2 ≤ w) (hwide : w ≤ 64) (n : BitVec w) :
    (nextPowerOf2ClampedToMax n).toNat = roundUp w n.toNat := by
  have hone : (1 : BitVec w).toNat = 1 := toNat_one (by omega)
  unfold nextPowerOf2ClampedToMax roundUp
  split
  · rename_i hn
    rw [BitVec.le_def, hone] at hn
    rw [hone, Nat.clog_of_right_le_one hn, if_pos (by omega), Nat.pow_zero]
  · rename_i hn
    rw [BitVec.le_def, hone, Nat.not_le] at hn
    extract_lets c₀ c₁ c₂ c₃ c₄ c₅ c₆
    have hpred : c₀.toNat = n.toNat - 1 := by
      rw [BitVec.toNat_sub_of_le (BitVec.le_def.mpr (by rw [hone]; omega)), hone]
    have hne : c₀ ≠ 0 := by
      intro hzero
      have hpos : c₀.toNat = 0 := by rw [hzero]; exact BitVec.toNat_ofNat 0 w
      omega
    have hsmeared : Smeared (1 + 1 + 2 + 4 + 8 + 16 + w / 2) c₀ c₆ :=
      ((((((smeared_one c₀).step (by omega)).step (by omega)).step (by omega)).step
        (by omega)).step (by omega)).step (by omega)
    have hall : c₆.toNat = 2 ^ Nat.clog 2 n.toNat - 1 := by
      rw [hsmeared.toNat_eq (by omega) hne, hpred, clog_of_pred_log2 hn]
    have hclog : Nat.clog 2 n.toNat ≤ w := Nat.clog_le_of_le_pow n.isLt.le
    have hpos : 0 < 2 ^ Nat.clog 2 n.toNat := Nat.two_pow_pos _
    split
    · rename_i hmax
      rw [hmax, BitVec.toNat_allOnes] at hall
      rw [BitVec.toNat_allOnes, if_neg]
      intro hlt
      have hstrict := Nat.pow_lt_pow_right (a := 2) (by decide) hlt
      omega
    · rename_i hmax
      have hlt : Nat.clog 2 n.toNat < w := by
        refine Nat.lt_of_le_of_ne hclog fun heq => hmax (BitVec.eq_of_toNat_eq ?_)
        rw [hall, heq, BitVec.toNat_allOnes]
      have hstrict := Nat.pow_lt_pow_right (a := 2) (by decide) hlt
      rw [if_pos hlt, BitVec.toNat_add, hone, hall, Nat.mod_eq_of_lt (by omega)]
      omega

/-! ## What follows from that -/

theorem le_roundUp {n : ℕ} (h : n < 2 ^ w) : n ≤ roundUp w n := by
  unfold roundUp
  split
  · exact Nat.le_pow_clog (by decide) n
  · omega

theorem roundUp_mono (w : ℕ) {n n' : ℕ} (h : n ≤ n') : roundUp w n ≤ roundUp w n' := by
  have hclog : Nat.clog 2 n ≤ Nat.clog 2 n' := Nat.clog_mono_right 2 h
  unfold roundUp
  split
  · rename_i hlt
    split
    · exact Nat.pow_le_pow_right (by decide) hclog
    · have hstrict := Nat.pow_lt_pow_right (a := 2) (by decide) hlt
      omega
  · rename_i hge
    rw [if_neg (by omega)]

/-- What has been rounded stays as it is. -/
theorem roundUp_roundUp (hw : 2 ≤ w) (n : ℕ) : roundUp w (roundUp w n) = roundUp w n := by
  unfold roundUp
  by_cases h : Nat.clog 2 n < w
  · rw [if_pos h, Nat.clog_pow 2 _ (by decide), if_pos h]
  · rw [if_neg h, if_neg]
    rw [Nat.not_lt]
    -- the largest number is above every smaller power of two
    have hstrict := Nat.pow_lt_pow_right (a := 2) (by decide) (Nat.sub_lt (by omega) Nat.one_pos : w - 1 < w)
    have htwo : 2 ^ w = 2 * 2 ^ (w - 1) := by
      rw [← Nat.pow_succ']
      congr 1
      omega
    have hbig : 2 ≤ 2 ^ (w - 1) := Nat.le_self_pow (by omega) 2
    have hlt := (Nat.lt_clog_iff_pow_lt (by decide)).mpr (show 2 ^ (w - 1) < 2 ^ w - 1 by omega)
    omega

/-- Rounding up what is already below a rounded number does not go beyond it. -/
theorem roundUp_le_of_le (hw : 2 ≤ w) {n n' : ℕ} (h : n ≤ roundUp w n') :
    roundUp w n ≤ roundUp w n' := by
  rw [← roundUp_roundUp hw n']
  exact roundUp_mono w h

/-- A power of two, or the largest number. -/
theorem roundUp_cases (w n : ℕ) : (∃ j, roundUp w n = 2 ^ j) ∨ roundUp w n = 2 ^ w - 1 := by
  unfold roundUp
  split
  · exact .inl ⟨_, rfl⟩
  · exact .inr rfl

/-- Up to the highest power of two of the width it is the least power of two there is. -/
theorem roundUp_isLeast (hw : 2 ≤ w) {n : ℕ} (h : n ≤ 2 ^ (w - 1)) :
    IsLeast {p | (∃ k, p = 2 ^ k) ∧ max n 1 ≤ p} (roundUp w n) := by
  have hclog : Nat.clog 2 n ≤ w - 1 := Nat.clog_le_of_le_pow h
  rw [roundUp, if_pos (by omega)]
  constructor
  · exact ⟨⟨_, rfl⟩, max_le (Nat.le_pow_clog (by decide) n) Nat.one_le_two_pow⟩
  · intro p hp
    obtain ⟨⟨k, rfl⟩, hk⟩ := hp
    have hle : Nat.clog 2 n ≤ k := Nat.clog_le_of_le_pow ((Nat.le_max_left n 1).trans hk)
    exact Nat.pow_le_pow_right (by decide) hle

/-- Above it there is none, and the largest number takes its place. -/
theorem roundUp_of_lt (hw : 2 ≤ w) {n : ℕ} (h : 2 ^ (w - 1) < n) : roundUp w n = 2 ^ w - 1 := by
  have hclog : w - 1 < Nat.clog 2 n := (Nat.lt_clog_iff_pow_lt (by decide)).mpr h
  rw [roundUp, if_neg (by omega)]

/-! ## At a width -/

/-- The rounded capacity is at least what was asked for. -/
theorem le_clamped (hw : 2 ≤ w) (hwide : w ≤ 64) (n : BitVec w) :
    n ≤ nextPowerOf2ClampedToMax n := by
  rw [BitVec.le_def, toNat_nextPowerOf2ClampedToMax hw hwide]
  exact le_roundUp n.isLt

theorem clamped_mono (hw : 2 ≤ w) (hwide : w ≤ 64) {n n' : BitVec w} (h : n ≤ n') :
    nextPowerOf2ClampedToMax n ≤ nextPowerOf2ClampedToMax n' := by
  rw [BitVec.le_def, toNat_nextPowerOf2ClampedToMax hw hwide,
    toNat_nextPowerOf2ClampedToMax hw hwide]
  exact roundUp_mono w (BitVec.le_def.mp h)

theorem clamped_clamped (hw : 2 ≤ w) (hwide : w ≤ 64) (n : BitVec w) :
    nextPowerOf2ClampedToMax (nextPowerOf2ClampedToMax n) = nextPowerOf2ClampedToMax n := by
  apply BitVec.eq_of_toNat_eq
  rw [toNat_nextPowerOf2ClampedToMax hw hwide, toNat_nextPowerOf2ClampedToMax hw hwide]
  exact roundUp_roundUp hw n.toNat

/-- The same for a `size_t`. -/
theorem toNat_rounded (n : Size) : (nextPowerOf2ClampedToMax n).toNat = roundUp 64 n.toNat :=
  toNat_nextPowerOf2ClampedToMax (by decide) (Nat.le_refl _) n

/-! ## Every step checked -/

/-- `lhs - rhs`, unless it wraps around. -/
def checkedSub (lhs rhs : BitVec w) : Option (BitVec w) :=
  if lhs.usubOverflow rhs then none else some (lhs - rhs)

/-- `lhs + rhs`, unless it wraps around. -/
def checkedAdd (lhs rhs : BitVec w) : Option (BitVec w) :=
  if lhs.uaddOverflow rhs then none else some (lhs + rhs)

/-- `capacity |= capacity >> amount`, unless the shift is by the whole width or more. -/
def checkedSmear (capacity : BitVec w) (amount : ℕ) : Option (BitVec w) :=
  if amount < w then some (capacity ||| capacity >>> amount) else none

/-- `nextPowerOf2ClampedToMax` with every step checked. -/
def checkedNextPowerOf2 (minimumCapacity : BitVec w) : Option (BitVec w) :=
  if minimumCapacity ≤ 1 then some 1
  else do
    let capacity ← checkedSub minimumCapacity 1
    let capacity ← checkedSmear capacity 1
    let capacity ← checkedSmear capacity 2
    let capacity ← checkedSmear capacity 4
    let capacity ← checkedSmear capacity 8
    let capacity ← checkedSmear capacity 16
    let capacity ← checkedSmear capacity (w / 2)
    if capacity = BitVec.allOnes w then some (BitVec.allOnes w) else checkedAdd capacity 1

theorem checkedSub_one {n : BitVec w} (hw : 0 < w) (hn : ¬ n ≤ 1) :
    checkedSub n 1 = some (n - 1) := by
  rw [BitVec.le_def, toNat_one hw] at hn
  rw [checkedSub, if_neg]
  rw [BitVec.usubOverflow, toNat_one hw, decide_eq_true_eq]
  omega

/-- Only the largest number has no successor. -/
theorem checkedAdd_one {n : BitVec w} (hw : 0 < w) (hn : n ≠ BitVec.allOnes w) :
    checkedAdd n 1 = some (n + 1) := by
  have hlt : n.toNat ≠ 2 ^ w - 1 :=
    fun heq => hn (BitVec.eq_of_toNat_eq (by rw [heq, BitVec.toNat_allOnes]))
  have hbound := n.isLt
  rw [checkedAdd, if_neg]
  rw [BitVec.uaddOverflow, toNat_one hw, decide_eq_true_eq]
  omega

theorem checkedSmear_eq {amount : ℕ} (h : amount < w) (capacity : BitVec w) :
    checkedSmear capacity amount = some (capacity ||| capacity >>> amount) := if_pos h

/-- No step of the rounding wraps around. -/
theorem checkedNextPowerOf2_eq (hw : 16 < w) (n : BitVec w) :
    checkedNextPowerOf2 n = some (nextPowerOf2ClampedToMax n) := by
  unfold checkedNextPowerOf2 nextPowerOf2ClampedToMax
  by_cases hn : n ≤ 1
  · rw [if_pos hn, if_pos hn]
  · rw [if_neg hn, if_neg hn, checkedSub_one (by omega) hn]
    simp only [Option.bind_eq_bind, Option.bind_some, checkedSmear_eq (show 1 < w by omega),
      checkedSmear_eq (show 2 < w by omega), checkedSmear_eq (show 4 < w by omega),
      checkedSmear_eq (show 8 < w by omega), checkedSmear_eq hw,
      checkedSmear_eq (show w / 2 < w by omega)]
    split
    · rfl
    · rename_i hmax
      exact checkedAdd_one (by omega) hmax

/-! ## The caller -/

/-- `reserve` refuses only when the allocator does: its own test of the rounded capacity is never
what fails. -/
theorem reserve_refused {a : ByteBufferAllocator} {m : Memory} {storage : ByteBufferStorage}
    {n : Size} (h : (storage.reserve a m n).2.2 = false) :
    (storage.bytes.elim (m.allocate a (nextPowerOf2ClampedToMax n))
      fun bytes => m.reallocate a bytes (nextPowerOf2ClampedToMax n)).2 = none := by
  have hle := BitVec.not_lt.mpr (le_clamped (by decide) (Nat.le_refl 64) n)
  unfold ByteBufferStorage.reserve at h
  split at h
  · exact absurd h (by simp)
  · dsimp only at h
    rw [if_neg hle] at h
    cases hb : storage.bytes with
    | none =>
        rw [hb] at h
        dsimp only at h
        split at h
        · rename_i hnone
          rw [Option.elim_none, hnone]
        · exact absurd h (by simp)
    | some bytes =>
        rw [hb] at h
        dsimp only at h
        split at h
        · rename_i hnone
          rw [Option.elim_some, hnone]
        · exact absurd h (by simp)

/-- **The rounding of capacities is exact, and saturates.** For a `Size` of 32 or 64 bits it is
the least power of two that is at least its argument and 1 when there is one of that width, and
the largest number else. It is never below its argument, monotone, leaves its own results alone,
and no step of it wraps around. So `reserve` refuses only what the allocator refused. -/
theorem rounding_exact (hw : w = 32 ∨ w = 64) :
    (∀ n : BitVec w,
      (n.toNat ≤ 2 ^ (w - 1) →
        IsLeast {p | (∃ k, p = 2 ^ k) ∧ max n.toNat 1 ≤ p} (nextPowerOf2ClampedToMax n).toNat)
      ∧ (2 ^ (w - 1) < n.toNat → (nextPowerOf2ClampedToMax n).toNat = 2 ^ w - 1)
      ∧ ¬ nextPowerOf2ClampedToMax n < n
      ∧ nextPowerOf2ClampedToMax (nextPowerOf2ClampedToMax n) = nextPowerOf2ClampedToMax n
      ∧ checkedNextPowerOf2 n = some (nextPowerOf2ClampedToMax n))
    ∧ (∀ n n' : BitVec w, n ≤ n' → nextPowerOf2ClampedToMax n ≤ nextPowerOf2ClampedToMax n')
    ∧ ∀ (a : ByteBufferAllocator) (m : Memory) (storage : ByteBufferStorage) (n : Size),
        (storage.reserve a m n).2.2 = false →
        (storage.bytes.elim (m.allocate a (nextPowerOf2ClampedToMax n))
          fun bytes => m.reallocate a bytes (nextPowerOf2ClampedToMax n)).2 = none := by
  have hlow : 16 < w := by omega
  have hwide : w ≤ 64 := by omega
  refine ⟨?_, fun n n' h => clamped_mono (by omega) hwide h,
    fun a m storage n => reserve_refused⟩
  intro n
  refine ⟨?_, ?_, BitVec.not_lt.mpr (le_clamped (by omega) hwide n),
    clamped_clamped (by omega) hwide n, checkedNextPowerOf2_eq hlow n⟩
  · intro h
    rw [toNat_nextPowerOf2ClampedToMax (by omega) hwide]
    exact roundUp_isLeast (by omega) h
  · intro h
    rw [toNat_nextPowerOf2ClampedToMax (by omega) hwide]
    exact roundUp_of_lt (by omega) h

/-- Both widths, at the highest power of two and just above it. -/
theorem rounding_exact_edges :
    IsLeast {p | (∃ k, p = 2 ^ k) ∧ max 2147483648 1 ≤ p}
        (nextPowerOf2ClampedToMax (2147483648#32)).toNat
      ∧ (nextPowerOf2ClampedToMax (9223372036854775809#64)).toNat = 18446744073709551615 :=
  ⟨((rounding_exact (Or.inl rfl)).1 2147483648#32).1 (by decide),
    ((rounding_exact (Or.inr rfl)).1 9223372036854775809#64).2.1 (by decide)⟩

end NPFoundation
