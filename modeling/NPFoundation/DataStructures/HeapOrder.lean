import NPFoundation.DataStructures.HeapConserve

/-!
# The heap order, when the comparison is one

Now `<` is a strict weak order and `>` its converse. The vector is read as a function of
the position, so that an exchange of two slots is composition with a transposition and
the two sifts become instances of the ones in `ImplicitTree`:

* `heapify` carries `SinkReady` from the position it starts at to the one it stops at;
* `siftUp` carries `RiseReady` the same way;
* `build`, `push` and `pop` each set up one of the two.
-/

namespace NPFoundation.Heap

open ImplicitTree

variable {α : Type} {lt gt : α → α → Bool} {h h' : Heap α} {idx size : Nat}

/-- Strictly better: `<` for a min-heap and `>` for a max-heap. -/
def better (lt gt : α → α → Bool) (type : HeapType) (a b : α) : Prop :=
  (if type = .min then lt a b else gt a b) = true

instance (lt gt : α → α → Bool) (type : HeapType) : DecidableRel (better lt gt type) :=
  fun _ _ => inferInstanceAs (Decidable (_ = true))

/-- No element is strictly better than its parent. -/
def HeapOrdered (lt gt : α → α → Bool) (h : Heap α) : Prop :=
  ∀ i a b, 0 < i → h.storage[i]? = some a → h.storage[parentIndex i]? = some b →
    ¬ better lt gt h.type a b

/-- The vector as a function of the position, `d` past its end. -/
def view (d : α) (h : Heap α) (k : Nat) : α := h.storage.getD k d

variable {d : α}

theorem view_eq {k : Nat} {a : α} (ha : h.storage[k]? = some a) : h.view d k = a := by
  rw [view, List.getD_eq_getElem?_getD, ha, Option.getD_some]

theorem getElem?_eq_view {k : Nat} (hk : k < h.size) : h.storage[k]? = some (h.view d k) := by
  rw [List.getElem?_eq_getElem hk]
  exact congrArg some (view_eq (List.getElem?_eq_getElem hk)).symm

theorem heapOrdered_iff (d : α) :
    HeapOrdered lt gt h ↔
      OrderedOn (better lt gt h.type) (fun _ => True) (h.view d) h.size := by
  constructor
  · intro ho c hc hcn _
    exact ho c _ _ hc (getElem?_eq_view hcn)
      (getElem?_eq_view (Nat.lt_trans (parent_lt hc) hcn))
  · intro ho i a b hi ha hb
    rw [← view_eq (d := d) ha, ← view_eq (d := d) hb]
    exact ho i hi (List.getElem?_eq_some_iff.mp ha).1 trivial

theorem swap_view {lhs rhs : Nat} (hs : h.swap lhs rhs = some h') :
    h'.view d = h.view d ∘ Equiv.swap lhs rhs := by
  funext k
  simp only [Function.comp_apply, view, List.getD_eq_getElem?_getD, swap_getElem? hs k]

theorem comparator_view (lt gt : α → α → Bool) {lhs rhs : Nat} (d : α) (hl : lhs < h.size) (hr : rhs < h.size) :
    h.comparator lt gt lhs rhs =
      some (decide (better lt gt h.type (h.view d lhs) (h.view d rhs))) := by
  unfold comparator lessThan greaterThan better
  rw [getElem?_eq_view (d := d) hl, getElem?_eq_view (d := d) hr]
  split <;> simp

/-- To compare by a number is a strict weak order. -/
theorem strictWeakOrder_key (key : α → Nat) :
    IsStrictWeakOrder α fun a b => decide (key a < key b) = true where
  irrefl := fun a => by simp
  trans := fun a b c hab hbc => by
    rw [decide_eq_true_eq] at *
    omega
  incomp_trans := fun a b c hab hbc => by
    simp only [decide_eq_true_eq] at *
    omega

section Ordered

variable [IsStrictWeakOrder α fun a b => lt a b = true]

/-- Both directions of a strict weak order are one. -/
theorem better_strictWeakOrder (hgt : ∀ a b, gt a b = lt b a) (type : HeapType) :
    IsStrictWeakOrder α (better lt gt type) := by
  have hlt : IsStrictWeakOrder α fun a b => lt a b = true := inferInstance
  cases type with
  | min => exact hlt
  | max =>
      have hconv : better lt gt HeapType.max = fun a b => lt b a = true := by
        funext a b; simp [better, hgt]
      rw [hconv]
      exact {
        irrefl := fun a => hlt.irrefl a
        trans := fun a b c hab hbc => hlt.trans c b a hbc hab
        incomp_trans := fun a b c hab hbc =>
          (hlt.incomp_trans a b c hab.symm hbc.symm).symm }

end Ordered

/-! ## The sift down -/

section Sift

variable [IsStrictWeakOrder α (better lt gt h.type)]

/-- `nextIndex` stays only when no child is better, and else moves to a best child. -/
theorem nextIndex_best (d : α) {next : Nat} (hsize : size ≤ h.size) (hleft : leftIndex idx < size)
    (hn : h.nextIndex lt gt idx size = some next) :
    (next ≠ idx → 0 < next ∧ next < size ∧ parent next = idx
      ∧ better lt gt h.type (h.view d next) (h.view d idx)) ∧
    ∀ c, 0 < c → c < size → parent c = idx →
      ¬ better lt gt h.type (h.view d c) (h.view d next) := by
  have hidx : idx < size := by simp only [leftIndex, left] at hleft; omega
  have hl := comparator_view lt gt d (Nat.lt_of_lt_of_le hleft hsize)
    (Nat.lt_of_lt_of_le hidx hsize)
  -- the child the first comparison leaves standing
  obtain ⟨next₀, hnext₀, hlt₀, hbeats₀, hleft₀⟩ : ∃ next₀,
      next₀ = (if better lt gt h.type (h.view d (leftIndex idx)) (h.view d idx)
        then leftIndex idx else idx) ∧ next₀ < size ∧
      (next₀ ≠ idx → next₀ = leftIndex idx
        ∧ better lt gt h.type (h.view d next₀) (h.view d idx)) ∧
      ¬ better lt gt h.type (h.view d (leftIndex idx)) (h.view d next₀) := by
    refine ⟨_, rfl, ?_⟩
    split
    · rename_i hb
      exact ⟨hleft, fun _ => ⟨rfl, hb⟩, irrefl_of (better lt gt h.type) _⟩
    · rename_i hb
      exact ⟨hidx, fun hne => absurd rfl hne, hb⟩
  have hposl : 0 < leftIndex idx := by simp only [leftIndex, left]; omega
  have hposr : 0 < rightIndex idx := by simp only [rightIndex, right]; omega
  unfold nextIndex at hn
  rw [hl] at hn
  simp only [decide_eq_true_eq, ← hnext₀] at hn
  split at hn
  · rename_i hright
    rw [comparator_view lt gt d (Nat.lt_of_lt_of_le hright hsize) (Nat.lt_of_lt_of_le hlt₀ hsize)] at hn
    simp only [decide_eq_true_eq, Option.some.injEq] at hn
    by_cases hb : better lt gt h.type (h.view d (rightIndex idx)) (h.view d next₀)
    · rw [if_pos hb] at hn; subst hn
      refine ⟨fun _ => ⟨hposr, hright, parent_right idx, ?_⟩, ?_⟩
      · by_cases hne : next₀ = idx
        · rw [hne] at hb; exact hb
        · exact IsTrans.trans _ _ _ hb (hbeats₀ hne).2
      · intro c hc _ hp
        rcases eq_left_or_right hc hp with rfl | rfl
        · exact not_better_trans hleft₀ (not_better_of_better hb)
        · exact irrefl_of (better lt gt h.type) _
    · rw [if_neg hb] at hn; subst hn
      refine ⟨fun hne => ?_, ?_⟩
      · obtain ⟨heq, hbl⟩ := hbeats₀ hne
        exact ⟨heq ▸ hposl, hlt₀, by rw [heq]; exact parent_left idx, hbl⟩
      · intro c hc _ hp
        rcases eq_left_or_right hc hp with rfl | rfl
        · exact hleft₀
        · exact hb
  · rename_i hright
    rw [Option.some.injEq] at hn; subst hn
    refine ⟨fun hne => ?_, ?_⟩
    · obtain ⟨heq, hbl⟩ := hbeats₀ hne
      exact ⟨heq ▸ hposl, hlt₀, by rw [heq]; exact parent_left idx, hbl⟩
    · intro c hc hcn hp
      rcases eq_left_or_right hc hp with rfl | rfl
      · exact hleft₀
      · exact absurd hcn hright

/-- **`heapify` repairs what hangs below it.** If everything but the hole is in order, then
everything is when it stops. -/
theorem heapify_ordered (d : α) {S : ℕ → Prop} (hS : ∀ p, S p → S (left p) ∧ S (right p))
    (hi : S idx) (hsize : size ≤ h.size)
    (hready : SinkReady (better lt gt h.type) S (h.view d) size idx)
    (hs : h.heapify lt gt idx size = some h') :
    OrderedOn (better lt gt h.type) S (h'.view d) size := by
  have hmove : ∀ {h₁ : Heap α} {i next : Nat} {h₂ : Heap α},
      (size ≤ h₁.size ∧ h₁.type = h.type ∧ S i ∧
        SinkReady (better lt gt h.type) S (h₁.view d) size i) → leftIndex i < size →
      h₁.nextIndex lt gt i size = some next → next ≠ i → h₁.swap i next = some h₂ →
      size ≤ h₂.size ∧ h₂.type = h.type ∧ S next ∧
        SinkReady (better lt gt h.type) S (h₂.view d) size next := by
    rintro h₁ i next h₂ ⟨hle, htype, hSi, hr⟩ hleft hnext hne hswap
    have hinst : IsStrictWeakOrder α (better lt gt h₁.type) := by rw [htype]; infer_instance
    obtain ⟨hbest, hmin⟩ := nextIndex_best d hle hleft hnext
    obtain ⟨hpos, hlt, hp, hb⟩ := hbest hne
    rw [htype] at hb hmin
    have hSn : S next := by
      rcases eq_left_or_right hpos hp with rfl | rfl
      · exact (hS i hSi).1
      · exact (hS i hSi).2
    refine ⟨by rw [swap_size hswap]; exact hle, (swap_perm hswap).2.trans htype, hSn, ?_⟩
    rw [swap_view hswap]
    exact hr.move hS hSi hpos hlt hp hmin hb
  obtain ⟨i, ⟨hle, htype, -, hr⟩, hstop⟩ := heapify_rule
    (I := fun h₁ i => size ≤ h₁.size ∧ h₁.type = h.type ∧ S i ∧
      SinkReady (better lt gt h.type) S (h₁.view d) size i) hmove ⟨hsize, rfl, hi, hready⟩ hs
  refine hr.finish fun c hc hcn hp => ?_
  have hleft : leftIndex i < size := by
    rcases eq_left_or_right hc hp with rfl | rfl
    · exact hcn
    · simp only [leftIndex, left, right] at *; omega
  have hinst : IsStrictWeakOrder α (better lt gt h'.type) := by rw [htype]; infer_instance
  have hmin := (nextIndex_best d hle hleft (hstop hleft)).2 c hc hcn hp
  rwa [htype] at hmin

/-- The sift up of a heap that is in order but for its last element. -/
theorem siftUp_ordered (d : α) (hidx : idx < h.size)
    (hready : RiseReady (better lt gt h.type) (h.view d) h.size idx)
    (hs : h.siftUp lt gt idx = some h') : HeapOrdered lt gt h' := by
  have hmove : ∀ {h₁ : Heap α} {i : Nat} {h₂ : Heap α},
      (SameElements h h₁ ∧ i < h.size ∧
        RiseReady (better lt gt h.type) (h₁.view d) h.size i) → 0 < i →
      h₁.comparator lt gt i (parentIndex i) = some true →
      h₁.swap i (parentIndex i) = some h₂ →
      SameElements h h₂ ∧ parentIndex i < h.size ∧
        RiseReady (better lt gt h.type) (h₂.view d) h.size (parentIndex i) := by
    rintro h₁ i h₂ ⟨hsame, hlt, hr⟩ hpos hbeats hswap
    have hp : parentIndex i < i := parent_lt hpos
    have hsize := hsame.size_eq
    rw [comparator_view lt gt d (by omega) (by omega), hsame.2, Option.some.injEq,
      decide_eq_true_eq] at hbeats
    refine ⟨hsame.trans (swap_perm hswap), by omega, ?_⟩
    rw [swap_view hswap]
    exact hr.move hpos hlt hbeats
  obtain ⟨i, ⟨hsame, hlt, hr⟩, hstop⟩ := siftUp_rule
    (I := fun h₁ i => SameElements h h₁ ∧ i < h.size ∧
      RiseReady (better lt gt h.type) (h₁.view d) h.size i) hmove
    ⟨SameElements.refl h, hidx, hready⟩ hs
  have hsize := hsame.size_eq
  rw [heapOrdered_iff d, hsame.2, hsize]
  refine hr.finish fun hpos => ?_
  have hp : parentIndex i < i := parent_lt hpos
  have hno := hstop hpos
  rw [comparator_view lt gt d (by omega) (by omega), hsame.2, Option.some.injEq,
    decide_eq_false_iff_not] at hno
  exact hno

/-! ## The three operations that sift -/

/-- One turn of the loop of `build`: with the parents from `idx + 1` on in order, those from
`idx` on are when it is over. -/
theorem heapify_visits (d : α) (hsize : size ≤ h.size)
    (ho : OrderedOn (better lt gt h.type) (fun p => idx + 1 ≤ p) (h.view d) size)
    (hs : h.heapify lt gt idx size = some h') :
    OrderedOn (better lt gt h.type) (fun p => idx ≤ p) (h'.view d) size := by
  have hready : SinkReady (better lt gt h.type) (fun p => idx ≤ p) (h.view d) size idx :=
    { except := fun c hc hcn hk hne => ho c hc hcn (Nat.lt_of_le_of_ne hk (Ne.symm hne))
      -- the hole's own parent has not been visited yet
      grand := fun hpos hk => absurd (parent_lt hpos) (Nat.not_lt.mpr hk) }
  exact heapify_ordered d (fun p hp => by simp only [left, right]; omega) (Nat.le_refl idx)
    hsize hready hs

/-- The loop of `build`: the parents from `k` on are in order, and then those from `0` on. -/
theorem buildFrom_ordered (d : α) {k : Nat} {type : HeapType} (htype : h.type = type)
    (hsize : size ≤ h.size)
    (ho : OrderedOn (better lt gt h.type) (fun p => k ≤ p) (h.view d) size)
    (hs : h.buildFrom lt gt size k = some h') :
    OrderedOn (better lt gt type) (fun _ => True) (h'.view d) size := by
  subst htype
  induction k generalizing h with
  | zero =>
      rw [buildFrom, Option.some.injEq] at hs; subst hs
      exact fun c hc hcn _ => ho c hc hcn (Nat.zero_le _)
  | succ k ih =>
      rw [buildFrom] at hs
      split at hs
      · exact absurd hs (by simp)
      · rename_i h₁ hsift
        have hsame := heapify_same hsift
        have hnext := heapify_visits d hsize ho hsift
        have hinst : IsStrictWeakOrder α (better lt gt h₁.type) := by
          rw [hsame.2]; infer_instance
        rw [← hsame.2] at hnext ⊢
        exact ih (by rw [hsame.size_eq]; exact hsize) hnext hs

theorem push_ordered {value : α} (ho : HeapOrdered lt gt h) (hs : h.push lt gt value = some h') :
    HeapOrdered lt gt h' := by
  have hview : ∀ k, k < h.storage.length →
      view value { h with storage := h.storage ++ [value] } k = h.view value k := by
    intro k hk
    rw [view, view, List.getD_eq_getElem?_getD, List.getElem?_append_left hk,
      List.getD_eq_getElem?_getD]
  have hinst : IsStrictWeakOrder α (better lt gt (Heap.mk (h.storage ++ [value]) h.type).type) :=
    ‹IsStrictWeakOrder α (better lt gt h.type)›
  refine siftUp_ordered value (by simp [size]) ?_ hs
  rw [heapOrdered_iff value] at ho
  constructor
  · intro c hc hcn hne
    have hlt : c < h.storage.length := by
      simp only [size, List.length_append, List.length_singleton] at hcn hne; omega
    rw [hview c hlt, hview _ (Nat.lt_trans (parent_lt hc) hlt)]
    exact ho c hc hlt trivial
  · intro _ c hc hcn hp
    -- the last slot has no children
    have := parent_lt hc
    simp only [size, List.length_append, List.length_singleton] at hcn hp; omega

end Sift

theorem ofList_ordered {list : List α} {type : HeapType}
    [IsStrictWeakOrder α (better lt gt type)] (hs : ofList lt gt list type = some h) :
    HeapOrdered lt gt h := by
  obtain ⟨h₀, hs₀, hperm, htype⟩ := ofList_isSome lt gt list type
  obtain rfl : h = h₀ := Option.some.inj (hs.symm.trans hs₀)
  rcases hlist : list with _ | ⟨d, rest⟩
  · intro i a b _ ha
    rw [hlist] at hperm
    rw [hperm.eq_nil] at ha
    exact absurd ha (by simp)
  · have hinst : IsStrictWeakOrder α (better lt gt (Heap.mk list type).type) :=
      ‹IsStrictWeakOrder α (better lt gt type)›
    have hstart : OrderedOn (better lt gt (Heap.mk list type).type)
        (fun p => list.length / 2 ≤ p) (view d ⟨list, type⟩) list.length := by
      intro c hc hcn hp
      simp only [parent] at hp; omega
    have ho := buildFrom_ordered d rfl (Nat.le_refl _) hstart hs
    rw [heapOrdered_iff d, htype, show h.size = list.length from hperm.length_eq]
    exact ho

variable {sifted : Heap α} {a : α}

/-- After a pop what is left is in order again, and nothing in the heap was better than the
element it gave out. -/
theorem Popped.ordered [IsStrictWeakOrder α (better lt gt h.type)] (ho : HeapOrdered lt gt h)
    (hp : Popped lt gt h h' sifted a) : HeapOrdered lt gt h' := by
  have hlen : h'.size + 1 = h.size := by
    have := hp.same.size_eq
    simp only [size, hp.last, List.length_append, List.length_singleton] at this
    exact this
  have hview : ∀ k, k < h'.size → h'.view a k = sifted.view a k := by
    intro k hk
    rw [view, view, hp.last, List.getD_eq_getElem?_getD, List.getD_eq_getElem?_getD,
      List.getElem?_append_left hk]
  have hsifted : OrderedOn (better lt gt h.type) (fun _ => True) (sifted.view a) h'.size := by
    rw [heapOrdered_iff a] at ho
    rcases hp.how with ⟨hone, -⟩ | ⟨swapped, hswap, hsift⟩
    · intro c hc hcn; omega
    · obtain ⟨hperm, htype⟩ := swap_perm hswap
      have hinst : IsStrictWeakOrder α (better lt gt swapped.type) := by
        rw [htype]; infer_instance
      rw [← hlen, Nat.add_sub_cancel] at hswap hsift
      have hready : SinkReady (better lt gt swapped.type) (fun _ => True) (swapped.view a)
          h'.size 0 := by
        constructor
        · intro c hc hcn _ hne
          have hpc := parent_lt hc
          rw [swap_view hswap, htype]
          simp only [Function.comp_apply]
          rw [Equiv.swap_apply_of_ne_of_ne (by omega) (by omega),
            Equiv.swap_apply_of_ne_of_ne hne (by omega)]
          exact ho c hc (by omega) trivial
        · intro hpos; exact absurd hpos (Nat.lt_irrefl 0)
      have hle : h'.size ≤ swapped.size := by rw [swap_size hswap]; omega
      have hdone := heapify_ordered a (fun _ _ => ⟨trivial, trivial⟩) trivial hle hready hsift
      rwa [htype] at hdone
  rw [heapOrdered_iff a, hp.type]
  intro c hc hcn htriv
  rw [hview c hcn, hview _ (Nat.lt_trans (parent_lt hc) hcn)]
  exact hsifted c hc hcn htriv

/-- The root of an ordered heap is one of its best elements. -/
theorem top_best [IsStrictWeakOrder α (better lt gt h.type)] (ho : HeapOrdered lt gt h)
    (htop : h.top = some a) : ∀ b ∈ h.storage, ¬ better lt gt h.type b a := by
  intro b hb
  obtain ⟨i, hi, rfl⟩ := List.mem_iff_getElem.mp hb
  have hbest := root_best ((heapOrdered_iff a).mp ho) i hi
  rwa [view_eq (List.getElem?_eq_getElem hi), view_eq htop] at hbest

end NPFoundation.Heap
