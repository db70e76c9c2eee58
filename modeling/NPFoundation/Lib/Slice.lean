import Mathlib.Data.List.Basic

/-!
# Reading and writing stretches of a list

A block of memory is a list of cells. `slice` reads a stretch of it and `splice` writes
one, in place. What a byte queue needs of the two: a write behind a stretch extends it, a
write at the front of the list replaces it, growing the list does not disturb it.
-/

namespace Slice

variable {α : Type*} {l d : List α} {i j n : ℕ}

/-- The `n` cells from `i` on. -/
def slice (l : List α) (i n : ℕ) : List α := (l.drop i).take n

/-- The list with the cells from `i` on overwritten by `d`. -/
def splice (l : List α) (i : ℕ) (d : List α) : List α := l.take i ++ d ++ l.drop (i + d.length)

theorem length_slice (h : i + n ≤ l.length) : (slice l i n).length = n := by
  rw [slice, List.length_take, List.length_drop]
  omega

theorem length_splice (h : i + d.length ≤ l.length) : (splice l i d).length = l.length := by
  simp only [splice, List.length_append, List.length_take, List.length_drop]
  omega

@[simp] theorem slice_zero (l : List α) (i : ℕ) : slice l i 0 = [] := List.take_zero

theorem getElem?_slice (l : List α) (i n k : ℕ) :
    (slice l i n)[k]? = if k < n then l[i + k]? else none := by
  rw [slice, List.getElem?_take]
  split
  · rw [List.getElem?_drop]
  · rfl

theorem getElem?_splice (h : i + d.length ≤ l.length) (k : ℕ) :
    (splice l i d)[k]? = if i ≤ k ∧ k < i + d.length then d[k - i]? else l[k]? := by
  have htake : (l.take i).length = i := by rw [List.length_take]; omega
  unfold splice
  by_cases hlow : k < i
  · rw [List.append_assoc, List.getElem?_append_left (by omega), List.getElem?_take_of_lt hlow,
      if_neg (by omega)]
  · by_cases hmid : k < i + d.length
    · rw [List.getElem?_append_left (by simp only [List.length_append]; omega),
        List.getElem?_append_right (by omega), htake, if_pos ⟨by omega, hmid⟩]
    · rw [List.getElem?_append_right (by simp only [List.length_append]; omega),
        List.getElem?_drop, if_neg (by omega)]
      congr 1
      simp only [List.length_append, htake]
      omega

/-- Reading a stretch in two parts. -/
theorem slice_add (l : List α) (i m n : ℕ) : slice l i (m + n) = slice l i m ++ slice l (i + m) n := by
  rw [slice, List.take_add, slice, slice, List.drop_drop]

theorem take_slice (l : List α) (i n m : ℕ) : (slice l i n).take m = slice l i (min m n) := by
  rw [slice, List.take_take, slice]

theorem drop_slice (l : List α) (i n m : ℕ) : (slice l i n).drop m = slice l (i + m) (n - m) := by
  rw [slice, List.drop_take, List.drop_drop, slice]

/-- Growing a list does not disturb what it holds. -/
theorem slice_append_left (h : i + n ≤ l.length) (d : List α) : slice (l ++ d) i n = slice l i n := by
  apply List.ext_getElem?
  intro k
  rw [getElem?_slice, getElem?_slice]
  split
  · exact List.getElem?_append_left (by omega)
  · rfl

/-- A write elsewhere does not disturb a stretch. -/
theorem slice_splice_of_le (h : j + d.length ≤ l.length) (hle : i + n ≤ j) :
    slice (splice l j d) i n = slice l i n := by
  apply List.ext_getElem?
  intro k
  rw [getElem?_slice, getElem?_slice]
  split
  · rw [getElem?_splice h, if_neg (by omega)]
  · rfl

/-- What was written can be read back. -/
theorem slice_splice_self (h : i + d.length ≤ l.length) : slice (splice l i d) i d.length = d := by
  apply List.ext_getElem?
  intro k
  rw [getElem?_slice]
  split
  · rw [getElem?_splice h, if_pos (by omega), Nat.add_sub_cancel_left]
  · rw [List.getElem?_eq_none (by omega)]

/-- A write behind a stretch extends it. -/
theorem slice_splice_append (hij : i ≤ j) (h : j + d.length ≤ l.length) :
    slice (splice l j d) i (j - i + d.length) = slice l i (j - i) ++ d := by
  rw [slice_add, slice_splice_of_le h (by omega), Nat.add_sub_cancel' hij, slice_splice_self h]

/-- A write of one cell inside a stretch. -/
theorem slice_splice_singleton {k : ℕ} {a : α} (hk : k < n) (h : i + n ≤ l.length) :
    slice (splice l (i + k) [a]) i n = (slice l i n).set k a := by
  apply List.ext_getElem?
  intro m
  have hroom : i + k + [a].length ≤ l.length := by simp only [List.length_singleton]; omega
  rw [getElem?_slice, List.getElem?_set, length_slice h]
  by_cases hm : m < n
  · rw [if_pos hm, getElem?_splice hroom, List.length_singleton]
    by_cases hkm : k = m
    · subst hkm
      rw [if_pos ⟨Nat.le_refl _, Nat.lt_succ_self _⟩, if_pos rfl, if_pos hk, Nat.sub_self]
      rfl
    · rw [if_neg (by omega), if_neg hkm, getElem?_slice, if_pos hm]
  · rw [if_neg hm, if_neg (by omega), getElem?_slice, if_neg hm]

/-- Overwriting everything. -/
theorem splice_all (h : d.length = l.length) : splice l 0 d = d := by
  simp [splice, h]

/-- Reading everything. -/
theorem slice_all (l : List α) : slice l 0 l.length = l := by simp [slice]

end Slice
