import NPFoundation.CopyOnWrite.Store
import Mathlib.Algebra.Group.Nat.Defs
import Mathlib.Data.List.Nodup
import Mathlib.Tactic.Cases

/-!
# The counts, operation by operation

`Counted s n` says that the store holds exactly the blocks that `n` says are referred
to, each with that count. Nothing is said about who refers to them: in a sequential
program `n` is how often a block occurs among the handles, and during a member function
it also counts the pointers that only the function itself holds.

Each operation changes `n` at one block. What it does to the elements and to the world
is stated beside that, so that a caller needs one lemma for each function and never
looks at a block again.
-/

namespace NPFoundation.CopyOnWrite

variable {W T : Type} {E : Element W T} {s : Store W T} {n : ℕ → ℕ} {b : ℕ}

namespace Store

/-- The elements, without their counts. -/
def elements (s : Store W T) (b : ℕ) : Option T := (s.blocks b).map (·.element)

end Store

open Store

/-- Each block that `n` counts a reference to is live, with that count; all others are gone. -/
structure Counted (s : Store W T) (n : ℕ → ℕ) : Prop where
  live : ∀ {b : ℕ} {block : Block T}, s.blocks b = some block →
    block.retainCount.toNat = n b ∧ 0 < n b
  dead : ∀ {b : ℕ}, s.blocks b = none → n b = 0
  fresh : ∀ {b : ℕ}, s.next ≤ b → s.blocks b = none
  /-- The log of deletions has the blocks that were made and are gone. -/
  deleted : ∀ b, b ∈ s.deleted ↔ b < s.next ∧ s.blocks b = none
  nodup : s.deleted.Nodup

theorem counted_empty (w : W) : Counted (Store.empty w : Store W T) fun _ => 0 where
  live := fun h => absurd h (by simp [Store.empty])
  dead := fun _ => rfl
  fresh := fun _ => rfl
  deleted := fun b => by simp [Store.empty]
  nodup := List.nodup_nil

theorem Counted.exists_block (h : Counted s n) (hb : 0 < n b) :
    ∃ block, s.blocks b = some block ∧ block.retainCount.toNat = n b := by
  cases hs : s.blocks b with
  | none => exact absurd (h.dead hs) (Nat.ne_of_gt hb)
  | some block => exact ⟨block, rfl, (h.live hs).1⟩

theorem Counted.exists_element (h : Counted s n) (hb : 0 < n b) : ∃ x, s.elements b = some x := by
  obtain ⟨block, hs, -⟩ := h.exists_block hb
  exact ⟨block.element, by rw [elements, hs]; rfl⟩

theorem Counted.lt_next (h : Counted s n) (hb : 0 < n b) : b < s.next := by
  by_contra hle
  exact absurd (h.dead (h.fresh (Nat.not_lt.mp hle))) (Nat.ne_of_gt hb)

theorem Counted.congr {n' : ℕ → ℕ} (h : Counted s n) (hn : ∀ b, n b = n' b) : Counted s n' := by
  obtain rfl : n = n' := funext hn
  exact h

/-- Only the blocks, their number and the log matter for the counts. -/
theorem Counted.world (h : Counted s n) (w : W) : Counted { s with world := w } n :=
  ⟨h.live, h.dead, h.fresh, h.deleted, h.nodup⟩

/-! ## Making a block -/

theorem Counted.newBlock (h : Counted s n) (x : T) :
    Counted (s.newBlock x).1 (Function.update n s.next 1) where
  live := by
    intro b block hb
    rcases eq_or_ne b s.next with rfl | hne
    · simp only [Store.newBlock, Function.update_self, Option.some.injEq] at hb
      subst hb
      simp
    · simp only [Store.newBlock, Function.update_of_ne hne] at hb ⊢
      exact h.live hb
  dead := by
    intro b hb
    rcases eq_or_ne b s.next with rfl | hne
    · simp [Store.newBlock] at hb
    · simp only [Store.newBlock, Function.update_of_ne hne] at hb ⊢
      exact h.dead hb
  fresh := by
    intro b hb
    simp only [Store.newBlock] at hb ⊢
    rw [Function.update_of_ne (by omega)]
    exact h.fresh (by omega)
  deleted := by
    intro b
    simp only [Store.newBlock]
    rcases eq_or_ne b s.next with rfl | hne
    · simp [h.deleted]
    · rw [Function.update_of_ne hne, h.deleted]
      constructor
      · exact fun ⟨hlt, hnone⟩ => ⟨by omega, hnone⟩
      · exact fun ⟨hlt, hnone⟩ => ⟨by omega, hnone⟩
  nodup := h.nodup

theorem newBlock_elements (s : Store W T) (x : T) :
    (s.newBlock x).1.elements = Function.update s.elements s.next (some x) := by
  funext b
  rcases eq_or_ne b s.next with rfl | hne
  · simp [Store.newBlock, elements]
  · simp [Store.newBlock, elements, Function.update_of_ne hne]

/-! ## Changing the count of a block -/

/-- A live block gets another count, which is not 0. -/
theorem Counted.recount (h : Counted s n) {block : Block T} {c : UInt32} {k : ℕ}
    (hb : s.blocks b = some block) (hc : c.toNat = k) (hk : 0 < k) :
    Counted { s with
      blocks := Function.update s.blocks b (some { block with retainCount := c }) }
      (Function.update n b k) where
  live := by
    intro b' block' hb'
    rcases eq_or_ne b' b with rfl | hne
    · simp only [Function.update_self, Option.some.injEq] at hb' ⊢
      subst hb'
      exact ⟨hc, hk⟩
    · simp only [Function.update_of_ne hne] at hb' ⊢
      exact h.live hb'
  dead := by
    intro b' hb'
    rcases eq_or_ne b' b with rfl | hne
    · simp at hb'
    · simp only [Function.update_of_ne hne] at hb' ⊢
      exact h.dead hb'
  fresh := by
    intro b' hb'
    have hlt := h.lt_next (h.live hb).2
    dsimp only at hb' ⊢
    rw [Function.update_of_ne (by omega)]
    exact h.fresh hb'
  deleted := by
    intro b'
    rcases eq_or_ne b' b with rfl | hne
    · simp [h.deleted, hb]
    · simp [h.deleted, Function.update_of_ne hne]
  nodup := h.nodup

theorem recount_elements {block : Block T} {c : UInt32} (hb : s.blocks b = some block) :
    elements { s with
      blocks := Function.update s.blocks b (some { block with retainCount := c }) }
      = s.elements := by
  funext b'
  rcases eq_or_ne b' b with rfl | hne
  · simp [elements, hb]
  · simp [elements, Function.update_of_ne hne]

theorem retain_spec (h : Counted s n) (hb : 0 < n b) :
    ∃ s', s.retain b = some s' ∧ (n b + 1 < 2 ^ 32 → Counted s' (Function.update n b (n b + 1)))
      ∧ s'.elements = s.elements ∧ s'.world = s.world ∧ s'.next = s.next := by
  obtain ⟨block, hs, hcount⟩ := h.exists_block hb
  refine ⟨_, by rw [retain, hs], fun hmax => ?_, recount_elements hs, rfl, rfl⟩
  refine h.recount hs ?_ (Nat.succ_pos _)
  rw [UInt32.toNat_add, hcount]
  exact Nat.mod_eq_of_lt hmax

/-- A release of a live block always returns, whatever the count says. -/
theorem release_isSome (E : Element W T) {x : T} (hx : s.elements b = some x) :
    ∃ s', s.release E b = some s' := by
  obtain ⟨block, hs, -⟩ := Option.map_eq_some_iff.mp hx
  rw [release, hs]
  dsimp only
  split
  · exact ⟨_, rfl⟩
  · exact ⟨_, rfl⟩

/-- The last handle left the block: it goes, and is logged. -/
theorem Counted.delete (h : Counted s n) {block : Block T} (hb : s.blocks b = some block) (w : W) :
    Counted
      { world := w, blocks := Function.update s.blocks b none, next := s.next,
        deleted := s.deleted ++ [b] } (Function.update n b 0) where
  live := by
    intro b' block' hb'
    rcases eq_or_ne b' b with rfl | hne
    · simp at hb'
    · simp only [Function.update_of_ne hne] at hb' ⊢
      exact h.live hb'
  dead := by
    intro b' hb'
    rcases eq_or_ne b' b with rfl | hne
    · rw [Function.update_self]
    · simp only [Function.update_of_ne hne] at hb' ⊢
      exact h.dead hb'
  fresh := by
    intro b' hb'
    rcases eq_or_ne b' b with rfl | hne
    · simp
    · dsimp only at hb' ⊢
      rw [Function.update_of_ne hne]
      exact h.fresh hb'
  deleted := by
    intro b'
    have hlt := h.lt_next (h.live hb).2
    rcases eq_or_ne b' b with rfl | hne
    · simp [hlt]
    · simp [h.deleted, hne]
  nodup := by
    refine List.nodup_append.mpr ⟨h.nodup, List.nodup_singleton b, ?_⟩
    rintro b' hb' _ hmem rfl
    rw [List.mem_singleton] at hmem; subst hmem
    have hgone := ((h.deleted b').mp hb').2
    rw [hb] at hgone
    exact absurd hgone (by simp)

/-- What a `release` does besides the counting: nothing, or the deletion of the element. -/
inductive ReleaseEffect (E : Element W T) (s : Store W T) (b : ℕ) (s' : Store W T) : Prop where
  | kept (helements : s'.elements = s.elements) (hworld : s'.world = s.world) :
      ReleaseEffect E s b s'
  | deleted (x : T) (hx : s.elements b = some x)
      (helements : s'.elements = Function.update s.elements b none)
      (hworld : s'.world = E.destroy s.world x) : ReleaseEffect E s b s'

theorem release_spec (E : Element W T) (h : Counted s n) (hb : 0 < n b) :
    ∃ s', s.release E b = some s' ∧ Counted s' (Function.update n b (n b - 1))
      ∧ ReleaseEffect E s b s' ∧ s'.next = s.next ∧ (1 < n b → s'.elements = s.elements
        ∧ s'.world = s.world ∧ s'.deleted = s.deleted) := by
  obtain ⟨block, hs, hcount⟩ := h.exists_block hb
  by_cases hlast : block.retainCount = 1
  · have hone : n b = 1 := by rw [← hcount, hlast]; rfl
    have heq : s.release E b = some
        { world := E.destroy s.world block.element, blocks := Function.update s.blocks b none,
          next := s.next, deleted := s.deleted ++ [b] } := by
      simp only [release, hs, hlast, if_true]
    refine ⟨_, heq, by rw [hone]; exact h.delete hs _,
      .deleted block.element (by rw [elements, hs]; rfl) ?_ rfl, rfl, by omega⟩
    · funext b'
      rcases eq_or_ne b' b with rfl | hne
      · simp [elements]
      · simp [elements, Function.update_of_ne hne]
  · have hmany : 1 < n b := by
      have hne : block.retainCount.toNat ≠ 1 := fun heq =>
        hlast (UInt32.toNat_inj.mp (by rw [heq]; rfl))
      omega
    have hsub : (block.retainCount - 1).toNat = n b - 1 := by
      rw [UInt32.toNat_sub_of_le _ _ (UInt32.le_iff_toNat_le.mpr (by rw [hcount]; exact hb)), hcount]
      rfl
    have heq : s.release E b = some { s with
        blocks := Function.update s.blocks b
          (some { block with retainCount := block.retainCount - 1 }) } := by
      simp only [release, hs, hlast, if_false]
    exact ⟨_, heq, h.recount hs hsub (by omega), .kept (recount_elements hs) rfl, rfl,
      fun _ => ⟨recount_elements hs, rfl, rfl⟩⟩

theorem releaseIfAny_isSome (E : Element W T) (this : Pointer)
    (hthis : ∀ c, this = some c → ∃ x, s.elements c = some x) :
    ∃ s', s.releaseIfAny E this = some s' := by
  cases this with
  | none => exact ⟨s, rfl⟩
  | some c =>
      obtain ⟨x, hx⟩ := hthis c rfl
      exact release_isSome E hx

/-- The count after one reference to `this` is given up. -/
def releasedCount (n : ℕ → ℕ) (this : Pointer) (b : ℕ) : ℕ := n b - if this = some b then 1 else 0

/-- Giving up a pointer that may be null. A block that somebody still refers to keeps its
element. -/
theorem releaseIfAny_spec (E : Element W T) (this : Pointer) (h : Counted s n)
    (hthis : ∀ c, this = some c → 0 < n c) :
    ∃ s', s.releaseIfAny E this = some s' ∧ Counted s' (releasedCount n this)
      ∧ ∀ b, 0 < releasedCount n this b → s'.elements b = s.elements b := by
  cases this with
  | none => exact ⟨s, rfl, h.congr fun b => by simp [releasedCount], fun _ _ => rfl⟩
  | some c =>
      obtain ⟨s', hrel, hcounted, heffect, -, -⟩ := release_spec E h (hthis c rfl)
      have hcount : ∀ b, Function.update n c (n c - 1) b = releasedCount n (some c) b := by
        intro b
        rcases eq_or_ne b c with rfl | hne
        · simp [releasedCount]
        · simp [releasedCount, Function.update_of_ne hne, Ne.symm hne]
      refine ⟨s', hrel, hcounted.congr hcount, fun b hb => ?_⟩
      cases heffect with
      | kept helements _ => rw [helements]
      | deleted x hx helements _ =>
          -- a deleted block had no reference left
          rw [helements]
          refine Function.update_of_ne ?_ _ _
          intro heq
          subst heq
          obtain ⟨block, hs, -⟩ := hcounted.exists_block (by rw [hcount]; exact hb)
          have hgone : s'.elements b = none := by rw [helements, Function.update_self]
          rw [elements, hs] at hgone
          exact absurd hgone (by simp)

/-! ## The split -/

/-- `unique()` on a block with one handle changes nothing; on a shared one it moves the handle
to a fresh block with a copy of the element, and the shared block stays. -/
theorem unique_spec (E : Element W T) (h : Counted s n) (hb : 0 < n b) :
    ∃ s' b', s.unique E (some b) = some (s', b') ∧
      ((n b = 1 ∧ s' = s ∧ b' = b) ∨
        (1 < n b ∧ b' = s.next ∧ n b' = 0 ∧ s'.next = s.next + 1 ∧ s'.deleted = s.deleted
          ∧ Counted s' (Function.update (Function.update n b' 1) b (n b - 1))
          ∧ ∃ x, s.elements b = some x
            ∧ s'.elements = Function.update s.elements b' (some (E.copy s.world x).2)
            ∧ s'.world = (E.copy s.world x).1)) := by
  obtain ⟨block, hs, hcount⟩ := h.exists_block hb
  by_cases hshared : 1 < block.retainCount
  · have hmany : 1 < n b := by rw [← hcount]; exact UInt32.lt_iff_toNat_lt.mp hshared
    have hfresh : n s.next = 0 := h.dead (h.fresh (Nat.le_refl _))
    have hne : b ≠ s.next := Nat.ne_of_lt (h.lt_next hb)
    have hnew := (h.world (E.copy s.world block.element).1).newBlock (E.copy s.world block.element).2
    obtain ⟨s', hrel, hcounted, -, hnext, hkept⟩ := release_spec E (b := b) hnew
      (by simp only [Function.update_of_ne hne]; exact hb)
    simp only [Function.update_of_ne hne] at hcounted hkept
    obtain ⟨helements, hworld, hdeleted⟩ := hkept hmany
    refine ⟨s', s.next, ?_, Or.inr ⟨hmany, rfl, hfresh, hnext, hdeleted, hcounted, block.element,
      by rw [elements, hs]; rfl, ?_, hworld⟩⟩
    · rw [unique, hs]
      simp only [hshared, if_true, hrel, Option.map_some]
      rfl
    · rw [helements, newBlock_elements]; rfl
  · have hone : n b = 1 := by
      have := (UInt32.lt_iff_toNat_lt (a := 1) (b := block.retainCount)).not.mp hshared
      rw [hcount] at this
      simp only [UInt32.toNat_one] at this
      omega
    exact ⟨s, b, by rw [unique, hs]; exact if_neg hshared, Or.inl ⟨hone, rfl, rfl⟩⟩

/-! ## What is destroyed -/

/-- From a store whose world has become `w` to another, the blocks `gone` are deleted, each with
its element and in this order, and nothing else is destroyed. -/
structure Deletes (E : Element W T) (s : Store W T) (w : W) (s' : Store W T) (gone : List ℕ) :
    Prop where
  /-- Numbers of blocks are not given back. -/
  made : s.next ≤ s'.next
  /-- They are logged, after those that were gone before. -/
  deleted : s'.deleted = s.deleted ++ gone
  /-- Each of them had an element. -/
  had : ∀ b ∈ gone, ∃ x, s.elements b = some x
  /-- The destructor runs on these elements and on no other. -/
  world : s'.world = (gone.filterMap s.elements).foldl E.destroy w

theorem Deletes.nothing {s' : Store W T} {w : W} (hmade : s.next ≤ s'.next)
    (hdeleted : s'.deleted = s.deleted) (hworld : s'.world = w) : Deletes E s w s' [] where
  made := hmade
  deleted := by rw [hdeleted, List.append_nil]
  had := fun _ hb => absurd hb List.not_mem_nil
  world := hworld

/-- A release deletes the block or nothing. -/
theorem release_deletes {s' : Store W T} (h : s.release E b = some s') :
    ∃ gone, Deletes E s s.world s' gone := by
  simp only [release] at h
  split at h
  · exact absurd h (by simp)
  · rename_i block hb
    have helement : s.elements b = some block.element := by rw [elements, hb]; rfl
    split at h
    · obtain rfl := Option.some.inj h
      refine ⟨[b], Nat.le_refl _, rfl, fun c hc => ?_, ?_⟩
      · obtain rfl := List.mem_singleton.mp hc
        exact ⟨_, helement⟩
      · simp only [List.filterMap_cons, helement, List.filterMap_nil, List.foldl_cons,
          List.foldl_nil]
    · obtain rfl := Option.some.inj h
      exact ⟨[], .nothing (Nat.le_refl _) rfl rfl⟩

theorem releaseIfAny_deletes {s' : Store W T} {this : Pointer}
    (h : s.releaseIfAny E this = some s') : ∃ gone, Deletes E s s.world s' gone := by
  cases this with
  | none =>
      obtain rfl := Option.some.inj h
      exact ⟨[], .nothing (Nat.le_refl _) rfl rfl⟩
  | some b => exact release_deletes h

/-- The other block is retained before this one is released. -/
theorem copyAssign_deletes {s' : Store W T} {this other that : Pointer}
    (h : s.copyAssign E this other = some (s', that)) : ∃ gone, Deletes E s s.world s' gone := by
  simp only [copyAssign] at h
  split at h
  · split at h
    · exact absurd h (by simp)
    · rename_i b
      split at h
      · exact absurd h (by simp)
      · rename_i s₁ hretain
        obtain ⟨s₂, hrelease, heq⟩ := Option.map_eq_some_iff.mp h
        obtain rfl := (Prod.mk.inj heq).1
        obtain ⟨gone, hgone⟩ := releaseIfAny_deletes hrelease
        simp only [retain] at hretain
        split at hretain
        · exact absurd hretain (by simp)
        · rename_i block hb
          obtain rfl := Option.some.inj hretain
          have helements := recount_elements (c := block.retainCount + 1) hb
          exact ⟨gone, hgone.made, hgone.deleted, fun c hc => helements ▸ hgone.had c hc,
            helements ▸ hgone.world⟩
  · obtain rfl := (Prod.mk.inj (Option.some.inj h)).1
    exact ⟨[], .nothing (Nat.le_refl _) rfl rfl⟩

/-- What is deleted had a reference, and has none any more. -/
theorem Deletes.mem_iff {w : W} {s' : Store W T} {gone : List ℕ} {n' : ℕ → ℕ}
    (h : Deletes E s w s' gone) (hs : Counted s n) (hs' : Counted s' n') (b : ℕ) :
    b ∈ gone ↔ 0 < n b ∧ n' b = 0 := by
  constructor
  · intro hb
    obtain ⟨x, hx⟩ := h.had b hb
    obtain ⟨block, hblock, -⟩ := Option.map_eq_some_iff.mp hx
    have hmem : b ∈ s'.deleted := by
      rw [h.deleted]
      exact List.mem_append_right _ hb
    exact ⟨(hs.live hblock).2, hs'.dead ((hs'.deleted b).mp hmem).2⟩
  · rintro ⟨hpos, hzero⟩
    obtain ⟨block, hblock, -⟩ := hs.exists_block hpos
    have hnone : s'.blocks b = none := by
      by_contra hne
      obtain ⟨block', hblock'⟩ := Option.ne_none_iff_exists'.mp hne
      have hlive := (hs'.live hblock').2
      omega
    have hmem : b ∈ s'.deleted :=
      (hs'.deleted b).mpr ⟨Nat.lt_of_lt_of_le (hs.lt_next hpos) h.made, hnone⟩
    rw [h.deleted] at hmem
    rcases List.mem_append.mp hmem with hold | hnew
    · rw [((hs.deleted b).mp hold).2] at hblock
      exact absurd hblock (by simp)
    · exact hnew

/-! ## Writing to an element -/

theorem Counted.setElement (h : Counted s n) (w : W) (x : T) :
    Counted (s.setElement b w x) n where
  live := by
    intro b' block' hb'
    rcases eq_or_ne b' b with rfl | hne
    · simp only [Store.setElement, Function.update_self, Option.map_eq_some_iff] at hb'
      obtain ⟨block, hs, rfl⟩ := hb'
      have hlive := h.live hs
      exact hlive
    · simp only [Store.setElement, Function.update_of_ne hne] at hb'
      exact h.live hb'
  dead := by
    intro b' hb'
    rcases eq_or_ne b' b with rfl | hne
    · simp only [Store.setElement, Function.update_self, Option.map_eq_none_iff] at hb'
      exact h.dead hb'
    · simp only [Store.setElement, Function.update_of_ne hne] at hb'
      exact h.dead hb'
  fresh := by
    intro b' hb'
    rcases eq_or_ne b' b with rfl | hne
    · simp [Store.setElement, h.fresh hb']
    · simp [Store.setElement, Function.update_of_ne hne, h.fresh hb']
  deleted := by
    intro b'
    rcases eq_or_ne b' b with rfl | hne
    · simp [Store.setElement, h.deleted]
    · simp [Store.setElement, Function.update_of_ne hne, h.deleted]
  nodup := h.nodup

theorem setElement_elements {w : W} {x y : T} (hy : s.elements b = some y) :
    (s.setElement b w x).elements = Function.update s.elements b (some x) := by
  obtain ⟨block, hs, -⟩ := Option.map_eq_some_iff.mp hy
  funext b'
  rcases eq_or_ne b' b with rfl | hne
  · simp [elements, Store.setElement, hs]
  · simp [elements, Store.setElement, Function.update_of_ne hne]

end NPFoundation.CopyOnWrite
