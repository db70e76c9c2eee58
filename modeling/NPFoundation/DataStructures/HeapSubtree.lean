import NPFoundation.DataStructures.HeapOrder

/-!
# What one `heapify` is for

`heapify(idx, size)` is given a subtree that is in order but for its root and puts it in
order, and it does so without touching anything else. Both of its callers rest on that
second half:

* `build` runs it from the last parent down to the root, so the subtrees it has already
  repaired stay as they are or are the ones it is repairing;
* `pop` has parked the element it will return at position `size`, where the sift cannot
  reach it.
-/

namespace NPFoundation.Heap

open ImplicitTree

variable {α : Type} {lt gt : α → α → Bool} {h h' : Heap α} {idx size : Nat}

/-- Below `size`, no element is strictly better than its parent when the parent's position
satisfies `S`. -/
def InOrder (lt gt : α → α → Bool) (h : Heap α) (S : Nat → Prop) (size : Nat) : Prop :=
  ∀ c a b, 0 < c → c < size → S (parentIndex c) → h.storage[c]? = some a →
    h.storage[parentIndex c]? = some b → ¬ better lt gt h.type a b

/-- The turns of the loop of `build` that visit the `n` positions from `k` on, the last one
first. -/
def buildDownTo (lt gt : α → α → Bool) (h : Heap α) (size k : Nat) : Nat → Option (Heap α)
  | 0 => some h
  | n + 1 =>
      match h.heapify lt gt (k + n) size with
      | none => none
      | some h' => buildDownTo lt gt h' size k n

theorem inOrder_iff (d : α) {S : Nat → Prop} (hsize : size ≤ h.size) :
    InOrder lt gt h S size ↔ OrderedOn (better lt gt h.type) S (h.view d) size := by
  constructor
  · intro ho c hc hcn hS
    have hp : parentIndex c < c := parent_lt hc
    exact ho c _ _ hc hcn hS (getElem?_eq_view (by omega)) (getElem?_eq_view (by omega))
  · intro ho c a b hc hcn hS ha hb
    rw [← view_eq (d := d) ha, ← view_eq (d := d) hb]
    exact ho c hc hcn hS

/-- Nothing to compare below a bound of at most one element. -/
theorem inOrder_of_size_le_one (h : Heap α) (S : Nat → Prop) (hsize : size ≤ 1) :
    InOrder lt gt h S size := by
  intro c a b hc hcn
  omega

theorem InOrder.mono {S T : Nat → Prop} (ho : InOrder lt gt h T size) (hST : ∀ p, S p → T p) :
    InOrder lt gt h S size :=
  fun c a b hc hcn hS => ho c a b hc hcn (hST _ hS)

/-! ## One subtree -/

section Order

variable [IsStrictWeakOrder α (better lt gt h.type)]

/-- `heapify` puts the subtree it starts at in order when only its root was out of place. -/
theorem heapify_inOrder (hsize : size ≤ h.size)
    (hready : InOrder lt gt h (fun p => Under idx p ∧ p ≠ idx) size)
    (hs : h.heapify lt gt idx size = some h') : InOrder lt gt h' (Under idx) size := by
  rcases Nat.eq_zero_or_pos size with h0 | hpos
  · exact inOrder_of_size_le_one h' _ (by omega)
  -- the vector is not empty, so one of its elements can stand for what lies past its end
  have hlt : 0 < h.size := by omega
  let d := h.storage[0]
  have hsame := heapify_same hs
  rw [inOrder_iff d (by rw [hsame.size_eq]; exact hsize), hsame.2]
  rw [inOrder_iff d hsize] at hready
  refine heapify_ordered d (fun p hp => ⟨hp.left, hp.right⟩) Under.root hsize ?_ hs
  constructor
  · intro c hc hcn hS hne
    exact hready c hc hcn ⟨hS, hne⟩
  · intro hidx hS
    -- the parent of the root is above the subtree
    exact absurd hS.le (Nat.not_le.mpr (parent_lt hidx))

/-! ## The loop of `build` -/

/-- The turns down to `k` can be made, are the first ones of the loop, and leave every subtree
rooted at a position from `k` on in order. -/
theorem buildDownTo_inOrder (d : α) (k n : Nat) (hsize : size ≤ h.size)
    (ho : OrderedOn (better lt gt h.type) (fun p => k + n ≤ p) (h.view d) size) :
    ∃ h₁, buildDownTo lt gt h size k n = some h₁ ∧ SameElements h h₁
      ∧ h.buildFrom lt gt size (k + n) = h₁.buildFrom lt gt size k
      ∧ OrderedOn (better lt gt h.type) (fun p => k ≤ p) (h₁.view d) size := by
  induction n generalizing h with
  | zero => exact ⟨h, rfl, SameElements.refl h, rfl, ho⟩
  | succ n ih =>
      obtain ⟨h₁, hs⟩ := heapify_isSome lt gt (k + n) hsize
      have hsame := heapify_same hs
      have hnext := heapify_visits d hsize ho hs
      have hinst : IsStrictWeakOrder α (better lt gt h₁.type) := by rw [hsame.2]; infer_instance
      rw [← hsame.2] at hnext
      obtain ⟨h₂, hb, hsame₂, hrest, ho₂⟩ := ih (by rw [hsame.size_eq]; exact hsize) hnext
      rw [hsame.2] at ho₂
      refine ⟨h₂, ?_, hsame.trans hsame₂, ?_, ho₂⟩
      · rw [buildDownTo, hs]; exact hb
      · rw [← Nat.add_assoc, buildFrom, hs]; exact hrest

/-- At every turn of `build` the subtrees already visited are heaps. -/
theorem build_visited (k : Nat) (hk : k ≤ h.size / 2) :
    ∃ h₁, buildDownTo lt gt h h.size k (h.size / 2 - k) = some h₁
      ∧ h.build lt gt = h₁.buildFrom lt gt h.size k
      ∧ ∀ i, k ≤ i → InOrder lt gt h₁ (Under i) h.size := by
  rcases hlist : h.storage with _ | ⟨d, rest⟩
  · have h0 : h.size = 0 := by rw [size, hlist]; rfl
    obtain rfl : k = 0 := by omega
    rw [build, h0]
    exact ⟨h, rfl, rfl, fun i _ => inOrder_of_size_le_one h _ (Nat.zero_le 1)⟩
  · have hsum : k + (h.size / 2 - k) = h.size / 2 := by omega
    have hstart : OrderedOn (better lt gt h.type) (fun p => k + (h.size / 2 - k) ≤ p)
        (h.view d) h.size := by
      -- nothing from the middle on has a child
      intro c hc hcn hp
      simp only [parent] at hp
      omega
    obtain ⟨h₁, hb, hsame, hrest, ho⟩ := buildDownTo_inOrder d k _ (Nat.le_refl h.size) hstart
    refine ⟨h₁, hb, by rw [build, ← hrest, hsum], ?_⟩
    intro i hi
    rw [← hsame.2, ← inOrder_iff d (by rw [hsame.size_eq])] at ho
    exact ho.mono fun p hp => Nat.le_trans hi hp.le

end Order

/-! ## The element `pop` has parked -/

/-- In a pop of a heap with more than its root, the root's element is at position `size` after
the exchange, is still there after the sift, and is what the pop returns. -/
theorem pop_parks_top (lt gt : α → α → Bool) (h : Heap α) (hsize : 1 < h.size) :
    ∃ swapped sifted h', h.swap 0 (h.size - 1) = some swapped
      ∧ swapped.heapify lt gt 0 (h.size - 1) = some sifted
      ∧ swapped.storage[h.size - 1]? = h.top
      ∧ sifted.storage[h.size - 1]? = swapped.storage[h.size - 1]?
      ∧ h.pop lt gt = some (h', sifted.storage[h.size - 1]?) := by
  rcases pop_spec lt gt h with ⟨hnil, -⟩ | ⟨h', sifted, a, hpop, hp⟩
  · rw [size, hnil] at hsize
    exact absurd hsize (by simp)
  rcases hp.how with ⟨hone, -⟩ | ⟨swapped, hswap, hsift⟩
  · omega
  have hparked : swapped.storage[h.size - 1]? = h.top := by
    rw [swap_getElem? hswap, Equiv.swap_apply_right, top]
  have hkept : sifted.storage[h.size - 1]? = swapped.storage[h.size - 1]? :=
    (heapify_rearranged hsift (by rw [swap_size hswap]; omega)).frame
      fun hin => Nat.lt_irrefl _ hin.2
  refine ⟨swapped, sifted, h', hswap, hsift, hparked, hkept, ?_⟩
  rw [hkept, hparked, hp.top]
  exact hpop

/-- **`heapify` repairs one subtree and nothing else.** Given that every pair below `size` whose
parent is a proper descendant of `idx` is in order, every pair whose parent is in the subtree of
`idx` is afterwards; the elements of the subtree below `size` change places among themselves and
every other element stays. So at every turn of `build`, with the positions from `k` on visited,
the subtrees rooted there are heaps, and in `pop` the element parked at the last position is the
one returned. -/
theorem heapify_repairs_subtree (lt gt : α → α → Bool)
    [hlt : IsStrictWeakOrder α fun a b => lt a b = true] (hgt : ∀ a b, gt a b = lt b a)
    (h : Heap α) :
    (∀ idx size, size ≤ h.size → InOrder lt gt h (fun p => Under idx p ∧ p ≠ idx) size →
      ∃ h', h.heapify lt gt idx size = some h' ∧ h'.type = h.type
        ∧ InOrder lt gt h' (Under idx) size
        ∧ Rearranged (fun k => Under idx k ∧ k < size) h h'
        ∧ ∀ k, ¬ Under idx k ∨ size ≤ k → h'.storage[k]? = h.storage[k]?)
    ∧ (∀ k, k ≤ h.size / 2 →
        ∃ h₁, buildDownTo lt gt h h.size k (h.size / 2 - k) = some h₁
          ∧ h.build lt gt = h₁.buildFrom lt gt h.size k
          ∧ ∀ i, k ≤ i → InOrder lt gt h₁ (Under i) h.size)
    ∧ (1 < h.size →
        ∃ swapped sifted h', h.swap 0 (h.size - 1) = some swapped
          ∧ swapped.heapify lt gt 0 (h.size - 1) = some sifted
          ∧ swapped.storage[h.size - 1]? = h.top
          ∧ sifted.storage[h.size - 1]? = swapped.storage[h.size - 1]?
          ∧ h.pop lt gt = some (h', sifted.storage[h.size - 1]?)) := by
  have hbetter := better_strictWeakOrder hgt h.type
  refine ⟨?_, fun k hk => build_visited k hk, pop_parks_top lt gt h⟩
  intro idx size hsize hready
  obtain ⟨h', hs⟩ := heapify_isSome lt gt idx hsize
  have hmoved := heapify_rearranged hs hsize
  refine ⟨h', hs, (heapify_same hs).2, heapify_inOrder hsize hready hs, hmoved, ?_⟩
  intro k hk
  refine hmoved.frame ?_
  intro hin
  rcases hk with hk | hk
  · exact hk hin.1
  · omega

/-- The hypotheses met below the root of a max-heap that is out of order elsewhere: at position 0,
and between position 4 and the last one, which the bound leaves out. -/
theorem heapify_repairs_subtree_inner :
    InOrder (fun a b => decide (a < b)) (fun a b => decide (b < a))
        ⟨[7, 0, 8, 5, 6, 2, 1, 3, 4, 9], .max⟩ (fun p => Under 1 p ∧ p ≠ 1) 9
      ∧ ∃ h', heapify (fun a b => decide (a < b)) (fun a b => decide (b < a))
            ⟨[7, 0, 8, 5, 6, 2, 1, 3, 4, 9], .max⟩ 1 9 = some h'
          ∧ InOrder (fun a b : Nat => decide (a < b)) (fun a b => decide (b < a)) h' (Under 1) 9
          ∧ h'.storage[9]? = some 9 := by
  have hinst := strictWeakOrder_key (α := Nat) fun a => a
  have hready : InOrder (fun a b => decide (a < b)) (fun a b => decide (b < a))
      ⟨[7, 0, 8, 5, 6, 2, 1, 3, 4, 9], .max⟩ (fun p => Under 1 p ∧ p ≠ 1) 9 := by
    intro c a b hc hcn hS ha hb
    have hp : 1 < parentIndex c := Nat.lt_of_le_of_ne hS.1.le (Ne.symm hS.2)
    have hlow : parentIndex c = (c - 1) / 2 := rfl
    obtain rfl | rfl | rfl | rfl : c = 5 ∨ c = 6 ∨ c = 7 ∨ c = 8 := by omega
    all_goals
      obtain rfl := Option.some.inj ha
      obtain rfl := Option.some.inj hb
      decide
  obtain ⟨h', hs, -, ho, -, hout⟩ := (heapify_repairs_subtree (fun a b : Nat => decide (a < b))
    (fun a b => decide (b < a)) (fun _ _ => rfl)
    ⟨[7, 0, 8, 5, 6, 2, 1, 3, 4, 9], .max⟩).1 1 9 (by decide) hready
  exact ⟨hready, h', hs, ho, hout 9 (Or.inr (Nat.le_refl 9))⟩

end NPFoundation.Heap
