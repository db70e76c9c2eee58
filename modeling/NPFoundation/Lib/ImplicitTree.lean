import Mathlib.Order.RelClasses
import Mathlib.Logic.Equiv.Basic
import Mathlib.Data.Nat.Basic

/-!
# Heap order in an implicit binary tree

A complete binary tree laid out by levels: position `i` has its children at
`2 * i + 1` and `2 * i + 2`. The contents are a function of the position and only
the positions below a bound count.

`OrderedOn S` says that every node whose parent satisfies `S` is in order with that
parent. Restricting to a set of parents is what lets one statement serve a whole
heap (`S` everywhere), a heap under construction (`S` the parents already visited)
and a single subtree.

A sift carries one misplaced element along a path. `SinkReady` and `RiseReady` say
what holds while it is in the middle of that: everything off the hole is in order,
and what sits around the hole is in order with each other across it.
-/

namespace ImplicitTree

/-- The parent of a position. Position 0 has none, although `parent 0 = 0`. -/
def parent (i : ℕ) : ℕ := (i - 1) / 2

def left (i : ℕ) : ℕ := 2 * i + 1

def right (i : ℕ) : ℕ := 2 * i + 2

@[simp] theorem parent_left (i : ℕ) : parent (left i) = i := by unfold parent left; omega

@[simp] theorem parent_right (i : ℕ) : parent (right i) = i := by unfold parent right; omega

theorem parent_lt {i : ℕ} (h : 0 < i) : parent i < i := by unfold parent; omega

/-- A node is one of the two children of its parent. -/
theorem eq_left_or_right {c i : ℕ} (hc : 0 < c) (h : parent c = i) : c = left i ∨ c = right i := by
  unfold parent at h; unfold left right; omega

/-- The positions of the subtree rooted at `i`, as far down as they go. -/
inductive Under (i : ℕ) : ℕ → Prop where
  | root : Under i i
  | left {k : ℕ} : Under i k → Under i (left k)
  | right {k : ℕ} : Under i k → Under i (right k)

theorem Under.le {i k : ℕ} (h : Under i k) : i ≤ k := by
  induction h with
  | root => exact Nat.le_refl i
  | left _ ih => unfold ImplicitTree.left; omega
  | right _ ih => unfold ImplicitTree.right; omega

variable {α : Type*} (better : α → α → Prop)

/-- Every node below `n` whose parent satisfies `S` is in order with that parent. -/
def OrderedOn (S : ℕ → Prop) (f : ℕ → α) (n : ℕ) : Prop :=
  ∀ c, 0 < c → c < n → S (parent c) → ¬ better (f c) (f (parent c))

/-- Everything is in order but for the element at `i`, which may belong further down. -/
structure SinkReady (S : ℕ → Prop) (f : ℕ → α) (n i : ℕ) : Prop where
  /-- The pairs whose parent is not the hole are in order. -/
  except : ∀ c, 0 < c → c < n → S (parent c) → parent c ≠ i → ¬ better (f c) (f (parent c))
  /-- The hole's children are in order with the hole's parent. -/
  grand : 0 < i → S (parent i) → ∀ c, 0 < c → c < n → parent c = i →
    ¬ better (f c) (f (parent i))

/-- Everything is in order but for the element at `i`, which may belong further up. -/
structure RiseReady (f : ℕ → α) (n i : ℕ) : Prop where
  /-- The pairs whose child is not the hole are in order. -/
  except : ∀ c, 0 < c → c < n → c ≠ i → ¬ better (f c) (f (parent c))
  /-- The hole's children are in order with the hole's parent. -/
  grand : 0 < i → ∀ c, 0 < c → c < n → parent c = i → ¬ better (f c) (f (parent i))

variable {better} {S : ℕ → Prop} {f : ℕ → α} {n i : ℕ}

theorem SinkReady.finish (h : SinkReady better S f n i)
    (hstop : ∀ c, 0 < c → c < n → parent c = i → ¬ better (f c) (f i)) :
    OrderedOn better S f n := by
  intro c hc hcn hS
  by_cases hp : parent c = i
  · rw [hp]; exact hstop c hc hcn hp
  · exact h.except c hc hcn hS hp

theorem RiseReady.finish (h : RiseReady better f n i)
    (hstop : 0 < i → ¬ better (f i) (f (parent i))) : OrderedOn better (fun _ => True) f n := by
  intro c hc hcn _
  by_cases hci : c = i
  · subst hci; exact hstop hc
  · exact h.except c hc hcn hci

/-! ## Moving the hole -/

section Order

variable [IsStrictWeakOrder α better]

/-- In a strict weak order, "not better than" is transitive. -/
theorem not_better_trans {a b c : α} (hab : ¬ better a b) (hbc : ¬ better b c) :
    ¬ better a c := by
  intro hac
  have hba : ¬ better b a := fun h => hbc (IsTrans.trans _ _ _ h hac)
  have hcb : ¬ better c b := fun h => hab (IsTrans.trans _ _ _ hac h)
  exact (IsStrictWeakOrder.incomp_trans a b c ⟨hab, hba⟩ ⟨hbc, hcb⟩).1 hac

theorem not_better_of_better {a b : α} (h : better a b) : ¬ better b a :=
  fun h' => irrefl_of better a (IsTrans.trans _ _ _ h h')

/-- One turn of a sift down: the hole's best child moves up and the hole takes its place. -/
theorem SinkReady.move (h : SinkReady better S f n i)
    (hS : ∀ p, S p → S (left p) ∧ S (right p)) (hi : S i) {c : ℕ} (hc : 0 < c) (hcn : c < n)
    (hp : parent c = i) (hmin : ∀ d, 0 < d → d < n → parent d = i → ¬ better (f d) (f c))
    (hb : better (f c) (f i)) : SinkReady better S (f ∘ Equiv.swap i c) n c := by
  have hic : i < c := hp ▸ parent_lt hc
  have hSc : S c := by
    rcases eq_left_or_right hc hp with rfl | rfl
    · exact (hS i hi).1
    · exact (hS i hi).2
  constructor
  · intro d hd hdn hSd hne
    simp only [Function.comp_apply]
    by_cases hdc : d = c
    · -- the moved child against its old parent, now below it
      subst hdc
      rw [hp, Equiv.swap_apply_right, Equiv.swap_apply_left]
      exact not_better_of_better hb
    by_cases hdi : d = i
    · subst hdi
      have hpd := parent_lt hd
      rw [Equiv.swap_apply_left, Equiv.swap_apply_of_ne_of_ne (by omega) (by omega)]
      exact h.grand hd hSd c hc hcn hp
    rw [Equiv.swap_apply_of_ne_of_ne hdi hdc]
    by_cases hpd : parent d = i
    · rw [hpd, Equiv.swap_apply_left]; exact hmin d hd hdn hpd
    · rw [Equiv.swap_apply_of_ne_of_ne hpd hne]; exact h.except d hd hdn hSd hpd
  · intro _ _ d hd hdn hpd
    have hcd : c < d := hpd ▸ parent_lt hd
    simp only [Function.comp_apply]
    rw [hp, Equiv.swap_apply_left, Equiv.swap_apply_of_ne_of_ne (by omega) (by omega), ← hpd]
    exact h.except d hd hdn (hpd ▸ hSc) (by omega)

/-- One turn of a sift up: the hole's parent moves down and the hole takes its place. -/
theorem RiseReady.move (h : RiseReady better f n i) (hi : 0 < i) (hin : i < n)
    (hb : better (f i) (f (parent i))) :
    RiseReady better (f ∘ Equiv.swap i (parent i)) n (parent i) := by
  have hpi := parent_lt hi
  constructor
  · intro d hd hdn hne
    simp only [Function.comp_apply]
    by_cases hdi : d = i
    · subst hdi
      rw [Equiv.swap_apply_left, Equiv.swap_apply_right]
      exact not_better_of_better hb
    rw [Equiv.swap_apply_of_ne_of_ne hdi hne]
    by_cases hpd : parent d = i
    · rw [hpd, Equiv.swap_apply_left]; exact h.grand hi d hd hdn hpd
    by_cases hpp : parent d = parent i
    · -- the hole's sibling: the risen element is better than the parent it was in order with
      rw [hpp, Equiv.swap_apply_right]
      intro hbd
      have hsib := h.except d hd hdn hdi
      rw [hpp] at hsib
      exact hsib (IsTrans.trans _ _ _ hbd hb)
    · rw [Equiv.swap_apply_of_ne_of_ne hpd hpp]; exact h.except d hd hdn hdi
  · intro hpos d hd hdn hpd
    have hgrand := parent_lt hpos
    have hup := h.except (parent i) hpos (by omega) (by omega)
    simp only [Function.comp_apply]
    rw [Equiv.swap_apply_of_ne_of_ne (x := parent (parent i)) (by omega) (by omega)]
    by_cases hdi : d = i
    · subst hdi; rw [Equiv.swap_apply_left]; exact hup
    · have hdp : d ≠ parent i := by have := parent_lt hd; omega
      rw [Equiv.swap_apply_of_ne_of_ne hdi hdp]
      have hsib := h.except d hd hdn hdi
      rw [hpd] at hsib
      exact not_better_trans hsib hup

/-- In an ordered tree nothing is better than the root. -/
theorem root_best (h : OrderedOn better (fun _ => True) f n) :
    ∀ i, i < n → ¬ better (f i) (f 0) := by
  intro i
  induction i using Nat.strongRecOn with
  | ind i ih =>
      intro hin
      rcases Nat.eq_zero_or_pos i with h0 | h0
      · subst h0; exact irrefl_of better (f 0)
      · have hlt := parent_lt h0
        exact not_better_trans (h i h0 hin trivial) (ih (parent i) hlt (by omega))

end Order

end ImplicitTree
