import NPFoundation.DataStructures.Heap
import Mathlib.Data.List.Perm.Basic

/-!
# What no comparison can break

None of this assumes anything of the two comparisons: they may be inconsistent, not
transitive, or answer at random. Whatever they say, every access stays inside the
vector, every loop ends, and the vector only ever has two of its elements exchanged.

The two sifts are loops around `swap`. `heapify_rule` and `siftUp_rule` are their
invariant rules, and every later statement about a sift, here and in the ordered case,
is an instance of them.
-/

namespace NPFoundation.Heap

open ImplicitTree

variable {α : Type} {lt gt : α → α → Bool} {h h' : Heap α} {idx size : Nat}

/-! ## One exchange -/

/-- What `swap` does when it stays inside the vector. -/
theorem swap_eq_some {lhs rhs : Nat} (hs : h.swap lhs rhs = some h') :
    ∃ a b, h.storage[lhs]? = some a ∧ h.storage[rhs]? = some b
      ∧ h' = { h with storage := (h.storage.set lhs b).set rhs a } := by
  unfold swap at hs
  split at hs
  · rename_i a b ha hb
    exact ⟨a, b, ha, hb, (Option.some.inj hs).symm⟩
  · exact absurd hs (by simp)

theorem swap_isSome {lhs rhs : Nat} (hl : lhs < h.size) (hr : rhs < h.size) :
    ∃ h', h.swap lhs rhs = some h' := by
  unfold swap
  rw [List.getElem?_eq_getElem hl, List.getElem?_eq_getElem hr]
  exact ⟨_, rfl⟩

theorem swap_perm {lhs rhs : Nat} (hs : h.swap lhs rhs = some h') :
    h'.storage.Perm h.storage ∧ h'.type = h.type := by
  obtain ⟨a, b, ha, hb, rfl⟩ := swap_eq_some hs
  obtain ⟨hl, rfl⟩ := List.getElem?_eq_some_iff.mp ha
  obtain ⟨hr, rfl⟩ := List.getElem?_eq_some_iff.mp hb
  exact ⟨List.set_set_perm hl hr, rfl⟩

/-- After an exchange every position holds what the transposition says. -/
theorem swap_getElem? {lhs rhs : Nat} (hs : h.swap lhs rhs = some h') (k : Nat) :
    h'.storage[k]? = h.storage[Equiv.swap lhs rhs k]? := by
  obtain ⟨a, b, ha, hb, rfl⟩ := swap_eq_some hs
  obtain ⟨hl, -⟩ := List.getElem?_eq_some_iff.mp ha
  obtain ⟨hr, -⟩ := List.getElem?_eq_some_iff.mp hb
  dsimp only
  by_cases hkr : k = rhs
  · subst hkr
    rw [Equiv.swap_apply_right, ha, List.getElem?_set_self (by rwa [List.length_set])]
  by_cases hkl : k = lhs
  · subst hkl
    rw [Equiv.swap_apply_left, hb, List.getElem?_set_ne (Ne.symm hkr), List.getElem?_set_self hl]
  · rw [Equiv.swap_apply_of_ne_of_ne hkl hkr, List.getElem?_set_ne (Ne.symm hkr),
      List.getElem?_set_ne (Ne.symm hkl)]

theorem comparator_isSome (lt gt : α → α → Bool) {lhs rhs : Nat} (hl : lhs < h.size)
    (hr : rhs < h.size) : ∃ b, h.comparator lt gt lhs rhs = some b := by
  unfold comparator lessThan greaterThan
  rw [List.getElem?_eq_getElem hl, List.getElem?_eq_getElem hr]
  split <;> exact ⟨_, rfl⟩

/-- `swap` answers exactly when both positions are inside the vector. -/
theorem swap_isSome_iff (h : Heap α) (lhs rhs : Nat) :
    (h.swap lhs rhs).isSome ↔ lhs < h.size ∧ rhs < h.size := by
  constructor
  · intro hsome
    obtain ⟨h', hs⟩ := Option.isSome_iff_exists.mp hsome
    obtain ⟨a, b, ha, hb, -⟩ := swap_eq_some hs
    exact ⟨(List.getElem?_eq_some_iff.mp ha).1, (List.getElem?_eq_some_iff.mp hb).1⟩
  · intro hin
    exact Option.isSome_iff_exists.mpr (swap_isSome hin.1 hin.2)

/-- So does the comparator. -/
theorem comparator_isSome_iff (lt gt : α → α → Bool) (h : Heap α) (lhs rhs : Nat) :
    (h.comparator lt gt lhs rhs).isSome ↔ lhs < h.size ∧ rhs < h.size := by
  constructor
  · intro hsome
    by_contra hout
    have hmiss : h.storage[lhs]? = none ∨ h.storage[rhs]? = none := by
      rw [List.getElem?_eq_none_iff, List.getElem?_eq_none_iff]
      unfold size at hout
      omega
    have hnone : h.comparator lt gt lhs rhs = none := by
      unfold comparator lessThan greaterThan
      rcases hmiss with hm | hm <;> rw [hm] <;> simp
    rw [hnone] at hsome
    exact absurd hsome (by simp)
  · intro hin
    exact Option.isSome_iff_exists.mpr (comparator_isSome lt gt hin.1 hin.2)

/-! ## Every access is inside the vector -/

theorem nextIndex_isSome (lt gt : α → α → Bool) (hsize : size ≤ h.size)
    (hleft : leftIndex idx < size) :
    ∃ next, h.nextIndex lt gt idx size = some next ∧ next < size := by
  have hidx : idx < size := by simp only [leftIndex, left] at hleft; omega
  obtain ⟨b, hb⟩ := comparator_isSome lt gt (Nat.lt_of_lt_of_le hleft hsize)
    (Nat.lt_of_lt_of_le hidx hsize)
  have hnext : (if b then leftIndex idx else idx) < size := by split <;> assumption
  unfold nextIndex
  rw [hb]
  dsimp only
  split
  · rename_i hright
    obtain ⟨b', hb'⟩ := comparator_isSome lt gt (Nat.lt_of_lt_of_le hright hsize)
      (Nat.lt_of_lt_of_le hnext hsize)
    rw [hb']
    refine ⟨_, rfl, ?_⟩
    split <;> assumption
  · exact ⟨_, rfl, hnext⟩

theorem nextIndex_lt {next : Nat} (hsize : size ≤ h.size) (hleft : leftIndex idx < size)
    (hn : h.nextIndex lt gt idx size = some next) : next < size := by
  obtain ⟨next', hnext', hlt⟩ := nextIndex_isSome lt gt hsize hleft
  rw [Option.some.inj (hn.symm.trans hnext')]
  exact hlt

theorem swap_size {lhs rhs : Nat} (hs : h.swap lhs rhs = some h') : h'.size = h.size :=
  (swap_perm hs).1.length_eq

theorem heapify_isSome (lt gt : α → α → Bool) (idx : Nat) (hsize : size ≤ h.size) :
    ∃ h', h.heapify lt gt idx size = some h' := by
  fun_induction heapify lt gt h idx size with
  | case1 h idx hleft hnone =>
      obtain ⟨next, hnext, -⟩ := nextIndex_isSome lt gt hsize hleft
      rw [hnext] at hnone; exact absurd hnone (by simp)
  | case2 h idx hleft next hnext hne hnone =>
      have hlt := nextIndex_lt hsize hleft hnext
      have hidx : idx < size := by simp only [leftIndex, left] at hleft; omega
      obtain ⟨h', hs⟩ := swap_isSome (Nat.lt_of_lt_of_le hidx hsize)
        (Nat.lt_of_lt_of_le hlt hsize)
      rw [hs] at hnone; exact absurd hnone (by simp)
  | case3 h idx hleft next hnext hne h' hs ih => exact ih (by rw [swap_size hs]; exact hsize)
  | case4 h idx hleft next hnext heq => exact ⟨h, rfl⟩
  | case5 h idx hleft => exact ⟨h, rfl⟩

theorem siftUp_isSome (lt gt : α → α → Bool) (hidx : idx < h.size) :
    ∃ h', h.siftUp lt gt idx = some h' := by
  fun_induction siftUp lt gt h idx with
  | case1 h idx hpos hnone =>
      have hp := parent_lt hpos
      obtain ⟨b, hb⟩ := comparator_isSome lt gt hidx (Nat.lt_trans hp hidx)
      rw [hb] at hnone; exact absurd hnone (by simp)
  | case2 h idx hpos hstop => exact ⟨h, rfl⟩
  | case3 h idx hpos hbeats hnone =>
      obtain ⟨h', hs⟩ := swap_isSome hidx (Nat.lt_trans (parent_lt hpos) hidx)
      rw [hs] at hnone; exact absurd hnone (by simp)
  | case4 h idx hpos hbeats h' hs ih =>
      exact ih (by rw [swap_size hs]; exact Nat.lt_trans (parent_lt hpos) hidx)
  | case5 h idx hpos => exact ⟨h, rfl⟩

/-! ## The invariant rules of the two sifts -/

/-- What every turn of `heapify` preserves holds where it stops: at a position without a child
below `size`, or where `nextIndex` stays put. -/
theorem heapify_rule {I : Heap α → Nat → Prop}
    (hmove : ∀ {h idx next h'}, I h idx → leftIndex idx < size →
      h.nextIndex lt gt idx size = some next → next ≠ idx → h.swap idx next = some h' →
      I h' next) (hI : I h idx) (hs : h.heapify lt gt idx size = some h') :
    ∃ idx', I h' idx' ∧ (leftIndex idx' < size → h'.nextIndex lt gt idx' size = some idx') := by
  fun_induction heapify lt gt h idx size with
  | case1 => exact absurd hs (by simp)
  | case2 => exact absurd hs (by simp)
  | case3 h idx hleft next hnext hne h₁ hswap ih => exact ih (hmove hI hleft hnext hne hswap) hs
  | case4 h idx hleft next hnext heq =>
      obtain rfl := Option.some.inj hs
      obtain rfl : next = idx := by simpa using heq
      exact ⟨next, hI, fun _ => hnext⟩
  | case5 h idx hleft =>
      obtain rfl := Option.some.inj hs
      exact ⟨idx, hI, fun hl => absurd hl hleft⟩

/-- The same for `siftUp`, which stops at the root or below a parent it does not beat. -/
theorem siftUp_rule {I : Heap α → Nat → Prop}
    (hmove : ∀ {h idx h'}, I h idx → 0 < idx →
      h.comparator lt gt idx (parentIndex idx) = some true →
      h.swap idx (parentIndex idx) = some h' → I h' (parentIndex idx))
    (hI : I h idx) (hs : h.siftUp lt gt idx = some h') :
    ∃ idx', I h' idx' ∧
      (0 < idx' → h'.comparator lt gt idx' (parentIndex idx') = some false) := by
  fun_induction siftUp lt gt h idx with
  | case1 => exact absurd hs (by simp)
  | case2 h idx hpos hstop =>
      obtain rfl := Option.some.inj hs
      exact ⟨idx, hI, fun _ => hstop⟩
  | case3 => exact absurd hs (by simp)
  | case4 h idx hpos hbeats h₁ hswap ih => exact ih (hmove hI hpos hbeats hswap) hs
  | case5 h idx hpos =>
      obtain rfl := Option.some.inj hs
      exact ⟨idx, hI, fun hp => absurd hp hpos⟩

/-! ## What is stored stays stored -/

/-- `h'` holds the elements of `h`, in some order, and is of the same type. -/
def SameElements (h h' : Heap α) : Prop := h'.storage.Perm h.storage ∧ h'.type = h.type

theorem SameElements.refl (h : Heap α) : SameElements h h := ⟨List.Perm.refl _, rfl⟩

theorem SameElements.trans {h₁ h₂ h₃ : Heap α} (h12 : SameElements h₁ h₂)
    (h23 : SameElements h₂ h₃) : SameElements h₁ h₃ :=
  ⟨h23.1.trans h12.1, h23.2.trans h12.2⟩

theorem SameElements.size_eq {h₁ h₂ : Heap α} (hsame : SameElements h₁ h₂) : h₂.size = h₁.size :=
  hsame.1.length_eq

theorem heapify_same (hs : h.heapify lt gt idx size = some h') : SameElements h h' := by
  obtain ⟨_, hI, -⟩ := heapify_rule (I := fun h₁ _ => SameElements h h₁)
    (fun hI _ _ _ hswap => hI.trans (swap_perm hswap)) (SameElements.refl h) hs
  exact hI

/-- The elements at the positions of `S` changed places among themselves; every other element is
where it was. -/
def Rearranged (S : Nat → Prop) (h h' : Heap α) : Prop :=
  ∃ σ : Equiv.Perm ℕ, (∀ k, ¬ S k → σ k = k) ∧ ∀ k, h'.storage[k]? = h.storage[σ k]?

theorem Rearranged.refl (S : Nat → Prop) (h : Heap α) : Rearranged S h h :=
  ⟨Equiv.refl ℕ, fun _ _ => rfl, fun _ => rfl⟩

theorem Rearranged.frame {S : Nat → Prop} (hr : Rearranged S h h') {k : Nat} (hk : ¬ S k) :
    h'.storage[k]? = h.storage[k]? := by
  obtain ⟨σ, hfix, hσ⟩ := hr
  rw [hσ k, hfix k hk]

/-- An exchange of two positions of `S` after a rearrangement of `S`. -/
theorem Rearranged.swap {S : Nat → Prop} {h₁ h₂ : Heap α} {lhs rhs : Nat}
    (hr : Rearranged S h h₁) (hl : S lhs) (hrhs : S rhs) (hs : h₁.swap lhs rhs = some h₂) :
    Rearranged S h h₂ := by
  obtain ⟨σ, hfix, hσ⟩ := hr
  refine ⟨(Equiv.swap lhs rhs).trans σ, ?_, ?_⟩
  · intro k hk
    have hkl : k ≠ lhs := fun he => hk (he ▸ hl)
    have hkr : k ≠ rhs := fun he => hk (he ▸ hrhs)
    rw [Equiv.trans_apply, Equiv.swap_apply_of_ne_of_ne hkl hkr]
    exact hfix k hk
  · intro k
    rw [swap_getElem? hs k, Equiv.trans_apply]
    exact hσ _

/-- `heapify` moves elements about inside the subtree it starts at, below `size`, and nowhere
else. -/
theorem heapify_rearranged (hs : h.heapify lt gt idx size = some h') (hsize : size ≤ h.size) :
    Rearranged (fun k => Under idx k ∧ k < size) h h' := by
  have hmove : ∀ {h₁ : Heap α} {i next : Nat} {h₂ : Heap α},
      (size ≤ h₁.size ∧ Under idx i ∧ Rearranged (fun k => Under idx k ∧ k < size) h h₁) →
      leftIndex i < size → h₁.nextIndex lt gt i size = some next → next ≠ i →
      h₁.swap i next = some h₂ →
      size ≤ h₂.size ∧ Under idx next ∧ Rearranged (fun k => Under idx k ∧ k < size) h h₂ := by
    intro h₁ i next h₂ hI hleft hnext hne hswap
    obtain ⟨hle, hi, hr⟩ := hI
    have hlt := nextIndex_lt hle hleft hnext
    have hil : i < size := by simp only [leftIndex, left] at hleft; omega
    have hn : Under idx next := by
      rcases nextIndex_cases lt gt hnext with he | he | he
      · exact absurd he hne
      · rw [he]; exact hi.left
      · rw [he]; exact hi.right
    exact ⟨by rw [swap_size hswap]; exact hle, hn, hr.swap ⟨hi, hil⟩ ⟨hn, hlt⟩ hswap⟩
  obtain ⟨_, ⟨-, -, hr⟩, -⟩ := heapify_rule
    (I := fun h₁ i => size ≤ h₁.size ∧ Under idx i ∧
      Rearranged (fun k => Under idx k ∧ k < size) h h₁)
    hmove ⟨hsize, Under.root, Rearranged.refl _ h⟩ hs
  exact hr

theorem siftUp_same (hs : h.siftUp lt gt idx = some h') : SameElements h h' := by
  obtain ⟨_, hI, -⟩ := siftUp_rule (I := fun h₁ _ => SameElements h h₁)
    (fun hI _ _ hswap => hI.trans (swap_perm hswap)) (SameElements.refl h) hs
  exact hI

/-- The loop of `build` reaches its end, whatever is left of it. -/
theorem buildFrom_isSome (lt gt : α → α → Bool) (k : Nat) (hsize : size ≤ h.size) :
    ∃ h', h.buildFrom lt gt size k = some h' ∧ SameElements h h' := by
  induction k generalizing h with
  | zero => exact ⟨h, rfl, SameElements.refl h⟩
  | succ k ih =>
      obtain ⟨h₁, hs⟩ := heapify_isSome lt gt k hsize
      have hsame := heapify_same hs
      obtain ⟨h₂, hb, hsame₂⟩ := ih (h := h₁) (by rw [hsame.size_eq]; exact hsize)
      exact ⟨h₂, by rw [buildFrom, hs]; exact hb, hsame.trans hsame₂⟩

/-- Both constructors give a heap, with the elements of the vector it was given. -/
theorem ofList_isSome (lt gt : α → α → Bool) (list : List α) (type : HeapType) :
    ∃ h, ofList lt gt list type = some h ∧ h.storage.Perm list ∧ h.type = type := by
  obtain ⟨h, hb, hperm, htype⟩ := buildFrom_isSome lt gt (h := ⟨list, type⟩)
    (list.length / 2) (Nat.le_refl list.length)
  exact ⟨h, hb, hperm, htype⟩

/-- `push` gives a heap with one element more. -/
theorem push_isSome (lt gt : α → α → Bool) (h : Heap α) (value : α) :
    ∃ h', h.push lt gt value = some h' ∧ h'.storage.Perm (value :: h.storage)
      ∧ h'.type = h.type := by
  have hlt : h.storage.length < size { h with storage := h.storage ++ [value] } := by simp [size]
  obtain ⟨h', hs⟩ := siftUp_isSome lt gt hlt
  obtain ⟨hperm, htype⟩ := siftUp_same hs
  refine ⟨h', ?_, hperm.trans List.perm_append_comm, htype⟩
  simpa [push, size] using hs

/-! ## Popping -/

/-- What a pop that answers an element did: it brought the root's element to the last slot,
by an exchange and a sift that stays below that slot unless there is only the root. -/
structure Popped (lt gt : α → α → Bool) (h h' sifted : Heap α) (a : α) : Prop where
  top : h.top = some a
  same : SameElements h sifted
  /-- The sift left the last slot alone. -/
  last : sifted.storage = h'.storage ++ [a]
  type : h'.type = h.type
  /-- How `sifted` came about. -/
  how : (h.size = 1 ∧ sifted = h) ∨
    ∃ swapped, h.swap 0 (h.size - 1) = some swapped
      ∧ swapped.heapify lt gt 0 (h.size - 1) = some sifted

theorem takeBack_eq {k : Nat} {a : α} (hlen : h.size = k + 1) (hlast : h.storage[k]? = some a) :
    ∃ h', h.takeBack k = some (h', some a) ∧ h.storage = h'.storage ++ [a]
      ∧ h'.type = h.type := by
  refine ⟨{ h with storage := h.storage.dropLast }, by rw [takeBack, hlast], ?_, rfl⟩
  have hlast? : h.storage.getLast? = some a := by
    rw [List.getLast?_eq_getElem?, show h.storage.length - 1 = k by unfold size at hlen; omega, hlast]
  obtain ⟨init, happ⟩ := List.getLast?_eq_some_iff.mp hlast?
  rw [happ, List.dropLast_concat]

/-- `pop` always ends: with `nullopt` on an empty heap, and else with the element that
`top` showed. -/
theorem pop_spec (lt gt : α → α → Bool) (h : Heap α) :
    (h.storage = [] ∧ h.pop lt gt = some (h, none)) ∨
    ∃ h' sifted a, h.pop lt gt = some (h', some a) ∧ Popped lt gt h h' sifted a := by
  by_cases hempty : h.size < 1
  · exact Or.inl ⟨List.length_eq_zero_iff.mp (by unfold size at hempty; omega),
      by rw [pop, if_pos hempty]⟩
  right
  have hpos : 0 < h.size := by omega
  have htop : h.top = some h.storage[0] := List.getElem?_eq_getElem hpos
  by_cases hone : 0 < h.size - 1
  · obtain ⟨swapped, hswap⟩ := swap_isSome hpos (show h.size - 1 < h.size by omega)
    have hsize : swapped.size = h.size := swap_size hswap
    have hle : h.size - 1 ≤ swapped.size := by omega
    obtain ⟨sifted, hsift⟩ := heapify_isSome lt gt 0 hle
    have hsame : SameElements h sifted := SameElements.trans (swap_perm hswap) (heapify_same hsift)
    have hlast : sifted.storage[h.size - 1]? = some h.storage[0] := by
      rw [(heapify_rearranged hsift hle).frame fun hin => Nat.lt_irrefl _ hin.2]
      obtain ⟨a, b, ha, -, rfl⟩ := swap_eq_some hswap
      rw [← htop, top, ha]
      exact List.getElem?_set_self (by rw [List.length_set]; exact (by omega : h.size - 1 < h.size))
    obtain ⟨h', htake, happ, htype⟩ := takeBack_eq (by rw [hsame.size_eq]; omega) hlast
    refine ⟨h', sifted, h.storage[0], ?_, htop, hsame, happ, htype.trans hsame.2,
      Or.inr ⟨swapped, hswap, hsift⟩⟩
    simp only [pop, if_neg hempty, if_pos hone, hswap, hsift, htake]
  · obtain ⟨h', htake, happ, htype⟩ := takeBack_eq (h := h) (k := h.size - 1) (a := h.storage[0])
      (by omega) (by rw [show h.size - 1 = 0 by omega]; exact htop)
    refine ⟨h', h, h.storage[0], ?_, htop, SameElements.refl h, happ, htype,
      Or.inl ⟨by omega, rfl⟩⟩
    simp only [pop, if_neg hempty, if_neg hone, htake]

variable {sifted : Heap α} {a : α}

/-- A pop takes out exactly one occurrence of what it returns. -/
theorem Popped.perm (hp : Popped lt gt h h' sifted a) : (a :: h'.storage).Perm h.storage := by
  have hcons : (a :: h'.storage).Perm (h'.storage ++ [a]) := (List.perm_append_singleton a h'.storage).symm
  rw [← hp.last] at hcons
  exact hcons.trans hp.same.1

/-- `pop` answers what `top` shows, and takes out one occurrence of it and nothing else. -/
theorem pop_takes_top (lt gt : α → α → Bool) (h : Heap α) :
    ∃ h', h.pop lt gt = some (h', h.top) ∧ (h.top = none → h' = h) ∧
      ∀ a, h.top = some a → h.storage.Perm (a :: h'.storage) := by
  rcases pop_spec lt gt h with ⟨hnil, hs⟩ | ⟨h', sifted, a, hs, hp⟩
  · have htop : h.top = none := by rw [top, hnil]; rfl
    rw [htop]
    exact ⟨h, hs, fun _ => rfl, fun a ha => absurd ha (by simp)⟩
  · rw [hp.top]
    refine ⟨h', hs, fun hnone => absurd hnone (by simp), ?_⟩
    intro b hb
    obtain rfl : a = b := Option.some.inj hb
    exact hp.perm.symm

theorem top_eq_none_iff (h : Heap α) : h.top = none ↔ h.storage = [] := by
  rw [top, List.getElem?_eq_none_iff, Nat.le_zero, List.length_eq_zero_iff]

end NPFoundation.Heap
