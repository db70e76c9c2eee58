import NPFoundation.Lib.Tally
import NPFoundation.CopyOnWrite.Threads
import Mathlib.Data.List.Nodup

/-!
# The split is safe under every interleaving

A count says how many references exist, and a reference is at any moment in exactly one
place: in a handle, or in the hands of a thread that retained a block (or made one) and
has not stored the pointer yet. `owner` is where the handles' references are. It is the
pointer in the handle, except while a thread is between the `fetch_sub` that gave the
reference up and the store that overwrites the pointer: then the pointer is stale and
`owner` has nothing.

`BlockOk` is the life of one block: live with as many tokens as its count says, doomed
when the count has reached 0 and one thread is to delete it, emptied, gone. No step of
any thread leaves that cycle, because

* a thread adds a token only through a handle that has one, and
* the thread that is to delete a block is the one that took the last token away.

A thread about to write in place read a count of 1. Its own handle has that token, so no
other handle has one, and nobody can make another: the only way to a new token is through
the handle the thread has to itself.
-/

namespace NPFoundation.CopyOnWrite.Threads

open Transition Tally

variable {τ ι T : Type}

/-! ## Where the references are -/

/-- The handle a member function is about, the one whose pointer it will set. -/
def After.target : After ι T → ι
  | .destructed i => i
  | .assign i _ _ => i
  | .moveAssign i _ => i
  | .switch i _ _ => i

/-- A reference that is in the hands of the member function. -/
def After.held : After ι T → Option ℕ
  | .assign _ _ b => some b
  | .switch _ b _ => some b
  | _ => none

namespace Frame

def held : Frame ι T → Option ℕ
  | .construct _ _ b => some b
  | .release _ k => k.held
  | .deleteElement _ k => k.held
  | .deleteBlock _ k => k.held
  | .finish k => k.held
  | _ => none

/-- The handle whose reference the thread has given up and whose pointer it has not set yet. -/
def gaveUp : Frame ι T → Option ι
  | .deleteElement _ k => some k.target
  | .deleteBlock _ k => some k.target
  | .finish k => some k.target
  | _ => none

/-- The block whose element the thread deletes next. -/
def deletesElement : Frame ι T → Option ℕ
  | .deleteElement b _ => some b
  | _ => none

def deletesBlock : Frame ι T → Option ℕ
  | .deleteBlock b _ => some b
  | _ => none

theorem gaveUp_mem_uses {F : Frame ι T} {i : ι} (h : F.gaveUp = some i) : i ∈ F.uses := by
  have htarget : ∀ k : After ι T, k.target ∈ k.uses := by
    intro k
    cases k <;> simp [After.target, After.uses]
  cases F <;> simp only [gaveUp, Option.some.injEq, reduceCtorEq] at h <;> subst h <;>
    exact htarget _

end Frame

/-- The life of one block: what is stored for it, how many references there are, and how many
threads are about to delete its element and the block itself. -/
inductive BlockOk : Option (SharedBlock T) → ℕ → ℕ → ℕ → Prop where
  | gone : BlockOk none 0 0 0
  | live {x : T} {c : UInt32} {n : ℕ} (hc : c.toNat = n) (hn : 0 < n) :
      BlockOk (some ⟨some x, c⟩) n 0 0
  | doomed {x : T} : BlockOk (some ⟨some x, 0⟩) 0 1 0
  | emptied : BlockOk (some ⟨none, 0⟩) 0 0 1

section Counting

variable [Fintype τ] [Fintype ι]

/-- The references to `b`, in handles and in the hands of threads. -/
def tokens (threads : τ → Frame ι T) (owner : ι → Option ℕ) (b : ℕ) : ℕ :=
  occurrences owner (some b) + occurrences (fun t => (threads t).held) (some b)

/-- The threads about to delete the element of `b`, and those about to delete `b`. -/
def deleters (threads : τ → Frame ι T) (b : ℕ) : ℕ × ℕ :=
  (occurrences (fun t => (threads t).deletesElement) (some b),
    occurrences (fun t => (threads t).deletesBlock) (some b))

end Counting

/-! ## The invariant -/

section Invariant

variable [Fintype τ] [Fintype ι]

/-- What a member function relies on once its release is done. -/
def AfterOk (s : System τ ι T) (owner : ι → Option ℕ) : After ι T → Prop
  | .destructed _ => True
  | .assign i _ b => owner i ≠ some b
  | .moveAssign i j => i ≠ j ∧ ∃ b, s.handles j = some (some b)
  | .switch _ b _ => tokens s.threads owner b = 1

/-- What a thread relies on at a frame. -/
def FrameOk (s : System τ ι T) (owner : ι → Option ℕ) : Frame ι T → Prop
  | .idle => True
  | .retain i j => s.handles i = none ∧ ∃ b, s.handles j = some (some b)
  | .construct i _ _ => s.handles i = none
  | .compare i j => (∃ this, s.handles i = some this) ∧ ∃ b, s.handles j = some (some b)
  | .release b k => s.handles k.target = some (some b) ∧ AfterOk s owner k
  | .deleteElement _ k => AfterOk s owner k
  | .deleteBlock _ k => AfterOk s owner k
  | .finish k => AfterOk s owner k
  | .load i _ => ∃ b, s.handles i = some (some b)
  | .copy i _ => ∃ b, s.handles i = some (some b)
  | .mutate i _ => ∃ b, s.handles i = some (some b) ∧ tokens s.threads owner b = 1
  | .read i => ∃ b, s.handles i = some (some b)

structure Inv (s : System τ ι T) (owner : ι → Option ℕ) : Prop where
  /-- A handle has a reference to what it points to, unless it gave that up. -/
  owned : ∀ i, (∀ t, (s.threads t).gaveUp ≠ some i) → owner i = (s.handles i).join
  gaveUp : ∀ t i, (s.threads t).gaveUp = some i → owner i = none
  /-- Each handle is used by one thread at a time. -/
  excl : ∀ t t' i, i ∈ (s.threads t).uses → i ∈ (s.threads t').uses → t = t'
  books : ∀ b, BlockOk (s.blocks b) (tokens s.threads owner b) (deleters s.threads b).1
    (deleters s.threads b).2
  fresh : ∀ b, s.next ≤ b → s.blocks b = none
  deleted : ∀ b, b ∈ s.deleted ↔ b < s.next ∧ s.blocks b = none
  nodup : s.deleted.Nodup
  frames : ∀ t, FrameOk s owner (s.threads t)

variable {s s' : System τ ι T} {owner owner' : ι → Option ℕ} {t : τ} {i j : ι} {b : ℕ}

theorem Inv.owner_eq (h : Inv s owner) (hi : i ∈ (s.threads t).uses)
    (hgave : (s.threads t).gaveUp ≠ some i) : owner i = (s.handles i).join := by
  refine h.owned i fun t' hgave' => ?_
  obtain rfl := h.excl t t' i hi (Frame.gaveUp_mem_uses hgave')
  exact hgave hgave'

theorem Inv.frame (h : Inv s owner) {F : Frame ι T} (hfr : s.threads t = F) :
    FrameOk s owner F := by
  rw [← hfr]
  exact h.frames t

theorem Inv.owner_eq_of_free (h : Inv s owner) (hi : s.Free i) :
    owner i = (s.handles i).join :=
  h.owned i fun t hgave => hi t (Frame.gaveUp_mem_uses hgave)

omit [Fintype ι] [Fintype τ] in
theorem BlockOk.of_pos {block : Option (SharedBlock T)} {n e d : ℕ} (h : BlockOk block n e d)
    (hn : 0 < n) : ∃ x c, block = some ⟨some x, c⟩ ∧ c.toNat = n ∧ e = 0 ∧ d = 0 := by
  cases h with
  | live hc _ => exact ⟨_, _, rfl, hc, rfl, rfl⟩
  | _ => exact absurd hn (Nat.lt_irrefl 0)

omit [Fintype ι] [Fintype τ] in
theorem BlockOk.of_none {n e d : ℕ} (h : BlockOk (none : Option (SharedBlock T)) n e d) :
    n = 0 ∧ e = 0 ∧ d = 0 := by
  cases h
  exact ⟨rfl, rfl, rfl⟩

theorem tokens_pos_of_owner (threads : τ → Frame ι T) (h : owner i = some b) :
    0 < tokens threads owner b :=
  Nat.lt_of_lt_of_le (occurrences_pos.mpr ⟨i, h⟩) (Nat.le_add_right _ _)

/-- A block with a reference is live, and its number has been given out. -/
theorem Inv.live (h : Inv s owner) (hb : 0 < tokens s.threads owner b) :
    ∃ x c, s.blocks b = some ⟨some x, c⟩ ∧ c.toNat = tokens s.threads owner b ∧ b < s.next := by
  obtain ⟨x, c, hblock, hc, -, -⟩ := (h.books b).of_pos hb
  refine ⟨x, c, hblock, hc, ?_⟩
  by_contra hle
  rw [h.fresh b (Nat.not_lt.mp hle)] at hblock
  exact absurd hblock (by simp)

/-- A fresh block number has no references and nobody is about to delete it. -/
theorem Inv.fresh_books (h : Inv s owner) :
    tokens s.threads owner s.next = 0 ∧ (deleters s.threads s.next).1 = 0
      ∧ (deleters s.threads s.next).2 = 0 := by
  have hbooks := h.books s.next
  rw [h.fresh s.next (Nat.le_refl _)] at hbooks
  exact hbooks.of_none

/-- With one reference in all, a handle that has it is the only place to find one. -/
theorem only_owner {threads : τ → Frame ι T} (hone : tokens threads owner b = 1)
    (hi : owner i = some b) :
    (∀ k, owner k = some b → k = i) ∧ ∀ t, (threads t).held ≠ some b := by
  have hpos : 0 < occurrences owner (some b) := occurrences_pos.mpr ⟨i, hi⟩
  unfold tokens at hone
  exact ⟨fun k hk => eq_of_occurrences_le_one (by omega) hk hi,
    occurrences_eq_zero.mp (by omega)⟩

/-- The same for a thread that has it in its hands. -/
theorem only_holder {threads : τ → Frame ι T} (hone : tokens threads owner b = 1)
    (ht : (threads t).held = some b) :
    (∀ k, owner k ≠ some b) ∧ ∀ t', (threads t').held = some b → t' = t := by
  have hpos : 0 < occurrences (fun t => (threads t).held) (some b) := occurrences_pos.mpr ⟨t, ht⟩
  unfold tokens at hone
  have hle : occurrences (fun t => (threads t).held) (some b) ≤ 1 := by omega
  exact ⟨occurrences_eq_zero.mp (by omega), fun t' ht' => eq_of_occurrences_le_one hle ht' ht⟩

/-- A reference in the hands of a thread is for a handle that does not have one to that block. -/
theorem Inv.held_stands (h : Inv s owner) (ht : (s.threads t).held = some b) :
    ∃ i, i ∈ (s.threads t).uses ∧ owner i ≠ some b := by
  have hafter : ∀ k : After ι T, AfterOk s owner k → k.held = some b →
      ∃ i, i ∈ k.uses ∧ owner i ≠ some b := by
    intro k hk hheld
    cases k with
    | destructed i => exact absurd hheld (by simp [After.held])
    | assign i j c =>
        obtain rfl : c = b := Option.some.inj hheld
        exact ⟨i, by simp [After.uses], hk⟩
    | moveAssign i j => exact absurd hheld (by simp [After.held])
    | switch i c f =>
        obtain rfl : c = b := Option.some.inj hheld
        exact ⟨i, by simp [After.uses], (only_holder hk ht).1 i⟩
  have hframe := h.frames t
  have howner := fun i => h.owner_eq (t := t) (i := i)
  cases hfr : s.threads t with
  | construct i j c =>
      rw [hfr] at hframe howner
      refine ⟨i, by simp [Frame.uses], ?_⟩
      rw [howner i (by simp [Frame.uses]) (by simp [Frame.gaveUp]), hframe]
      simp
  | release c k => rw [hfr] at hframe ht; exact hafter k hframe.2 ht
  | deleteElement c k => rw [hfr] at hframe ht; exact hafter k hframe ht
  | deleteBlock c k => rw [hfr] at hframe ht; exact hafter k hframe ht
  | finish k => rw [hfr] at hframe ht; exact hafter k hframe ht
  | _ => rw [hfr] at ht; exact absurd ht (by simp [Frame.held])

/-- There are fewer references to a block than there are handles, as long as some thread works
on a handle that has none and has none in its hands either. -/
theorem Inv.tokens_lt_card [DecidableEq τ] (h : Inv s owner) (hi : i ∈ (s.threads t).uses)
    (howner : owner i ≠ some b) (hheld : (s.threads t).held ≠ some b) :
    tokens s.threads owner b < Fintype.card ι := by
  have hmore := occurrences_update (fun t => (s.threads t).held) t (some b) (some b)
  rw [if_neg hheld, if_pos rfl] at hmore
  have hle : occurrences owner (some b)
      + occurrences (Function.update (fun t => (s.threads t).held) t (some b)) (some b)
      ≤ Fintype.card ι := by
    refine occurrences_add_le_card (fun t i => i ∈ (s.threads t).uses) (fun t' ht' => ?_) h.excl
    rcases eq_or_ne t' t with rfl | hne
    · exact ⟨i, hi, howner⟩
    · rw [Function.update_of_ne hne] at ht'
      exact h.held_stands ht'
  unfold tokens
  omega

/-! ## One step, as far as the other threads see it -/

variable [DecidableEq τ] [DecidableEq ι] {F : Frame ι T}

omit [Fintype ι] [DecidableEq ι] in
theorem occurrences_goto {β : Type} [DecidableEq β] (g : Frame ι T → β) (threads : τ → Frame ι T)
    (t : τ) (F : Frame ι T) (c : β) :
    occurrences (fun t' => g (Function.update threads t F t')) c
        + (if g (threads t) = c then 1 else 0)
      = occurrences (fun t' => g (threads t')) c + (if g F = c then 1 else 0) := by
  have hg : (fun t' => g (Function.update threads t F t'))
      = Function.update (fun t' => g (threads t')) t (g F) := by
    funext t'
    rcases eq_or_ne t' t with rfl | hne
    · simp
    · simp [Function.update_of_ne hne]
  rw [hg]
  exact occurrences_update _ t (g F) c

/-- The references after one thread moved on and one handle's reference changed. -/
theorem tokens_update (threads : τ → Frame ι T) (owner : ι → Option ℕ) (t : τ) (F : Frame ι T)
    (i : ι) (r : Option ℕ) (b : ℕ) :
    tokens (Function.update threads t F) (Function.update owner i r) b
        + (if owner i = some b then 1 else 0) + (if (threads t).held = some b then 1 else 0)
      = tokens threads owner b + (if r = some b then 1 else 0)
        + (if F.held = some b then 1 else 0) := by
  have howner := occurrences_update owner i r (some b)
  have hheld := occurrences_goto Frame.held threads t F (some b)
  unfold tokens
  omega

omit [Fintype ι] [DecidableEq ι] in
theorem deleters_update (threads : τ → Frame ι T) (t : τ) (F : Frame ι T) (b : ℕ) :
    (deleters (Function.update threads t F) b).1
        + (if (threads t).deletesElement = some b then 1 else 0)
      = (deleters threads b).1 + (if F.deletesElement = some b then 1 else 0) ∧
    (deleters (Function.update threads t F) b).2
        + (if (threads t).deletesBlock = some b then 1 else 0)
      = (deleters threads b).2 + (if F.deletesBlock = some b then 1 else 0) :=
  ⟨occurrences_goto Frame.deletesElement threads t F (some b),
    occurrences_goto Frame.deletesBlock threads t F (some b)⟩

omit [DecidableEq ι] in
theorem tokens_goto (threads : τ → Frame ι T) (owner : ι → Option ℕ) (t : τ) (F : Frame ι T)
    (b : ℕ) :
    tokens (Function.update threads t F) owner b
        + (if (threads t).held = some b then 1 else 0)
      = tokens threads owner b + (if F.held = some b then 1 else 0) := by
  have hheld := occurrences_goto Frame.held threads t F (some b)
  unfold tokens
  omega

/-- What a step of thread `t` may touch: the handles `K`, which no other thread is using. -/
structure Touches (s s' : System τ ι T) (owner owner' : ι → Option ℕ) (t : τ) (F : Frame ι T)
    (K : List ι) : Prop where
  threads_eq : s'.threads = Function.update s.threads t F
  mine : ∀ i ∈ K, ∀ t', t' ≠ t → i ∉ (s.threads t').uses
  before : ∀ i ∈ (s.threads t).uses, i ∈ K
  after : ∀ i ∈ F.uses, i ∈ K
  handles_eq : ∀ i, i ∉ K → s'.handles i = s.handles i
  owner_eq : ∀ i, i ∉ K → owner' i = owner i
  /-- The references of those handles are right afterwards. -/
  owned : ∀ i ∈ K, F.gaveUp ≠ some i → owner' i = (s'.handles i).join
  gaveUp : ∀ i, F.gaveUp = some i → owner' i = none
  /-- A block the thread has no reference to keeps its references. -/
  kept : ∀ b, tokens s.threads owner b = 1 → (∀ i ∈ K, owner i ≠ some b) →
    (s.threads t).held ≠ some b → tokens s'.threads owner' b = 1

omit [DecidableEq ι] in
/-- What another thread relies on survives the step. -/
theorem Touches.frameOk {K : List ι} (h : Inv s owner) (ht : Touches s s' owner owner' t F K)
    {t' : τ} (hne : t' ≠ t) : FrameOk s' owner' (s.threads t') := by
  have hok := h.frames t'
  have hout : ∀ i ∈ (s.threads t').uses, i ∉ K := fun i hi hK => ht.mine i hK t' hne hi
  have hhandles : ∀ i ∈ (s.threads t').uses, s'.handles i = s.handles i :=
    fun i hi => ht.handles_eq i (hout i hi)
  have howner : ∀ i ∈ (s.threads t').uses, owner' i = owner i :=
    fun i hi => ht.owner_eq i (hout i hi)
  have hafter : ∀ k : After ι T, (∀ i ∈ k.uses, i ∈ (s.threads t').uses) →
      (s.threads t').held = k.held → AfterOk s owner k → AfterOk s' owner' k := by
    intro k huses hheld hk
    cases k with
    | destructed i => trivial
    | assign i j b =>
        have hi := howner i (huses i (by simp [After.uses]))
        simpa only [AfterOk, hi] using hk
    | moveAssign i j =>
        have hj := hhandles j (huses j (by simp [After.uses]))
        simpa only [AfterOk, hj] using hk
    | switch i b f =>
        -- the fresh block is known to its thread alone
        obtain ⟨hnone, honly⟩ := only_holder hk hheld
        exact ht.kept b hk (fun i _ => hnone i) fun hmine => hne (honly t hmine).symm
  cases hfr : s.threads t' with
  | idle => trivial
  | retain i j =>
      simp only [hfr, Frame.uses] at hok hhandles
      simpa only [FrameOk, hhandles i (by simp), hhandles j (by simp)] using hok
  | construct i j b =>
      simp only [hfr, Frame.uses] at hok hhandles
      simpa only [FrameOk, hhandles i (by simp)] using hok
  | compare i j =>
      simp only [hfr, Frame.uses] at hok hhandles
      simpa only [FrameOk, hhandles i (by simp), hhandles j (by simp)] using hok
  | release b k =>
      have htarget : k.target ∈ (s.threads t').uses := by
        rw [hfr]; cases k <;> simp [Frame.uses, After.uses, After.target]
      rw [hfr] at hok
      exact ⟨(hhandles _ htarget).trans hok.1,
        hafter k (by rw [hfr]; exact fun _ hi => hi) (by rw [hfr]; rfl) hok.2⟩
  | deleteElement b k =>
      rw [hfr] at hok
      exact hafter k (by rw [hfr]; exact fun _ hi => hi) (by rw [hfr]; rfl) hok
  | deleteBlock b k =>
      rw [hfr] at hok
      exact hafter k (by rw [hfr]; exact fun _ hi => hi) (by rw [hfr]; rfl) hok
  | finish k =>
      rw [hfr] at hok
      exact hafter k (by rw [hfr]; exact fun _ hi => hi) (by rw [hfr]; rfl) hok
  | load i f =>
      simp only [hfr, Frame.uses] at hok hhandles
      simpa only [FrameOk, hhandles i (by simp)] using hok
  | copy i f =>
      simp only [hfr, Frame.uses] at hok hhandles
      simpa only [FrameOk, hhandles i (by simp)] using hok
  | mutate i f =>
      have hown := h.owner_eq (t := t') (i := i) (by rw [hfr]; simp [Frame.uses])
        (by rw [hfr]; simp [Frame.gaveUp])
      simp only [hfr, Frame.uses] at hok hhandles hout
      obtain ⟨b, hb, hone⟩ := hok
      rw [hb] at hown
      -- the one reference to the block is the handle's, which is not among those touched
      obtain ⟨honly, hnone⟩ := only_owner hone hown
      refine ⟨b, (hhandles i (by simp)).trans hb, ht.kept b hone (fun k hk hkb => ?_) (hnone t)⟩
      exact hout i (by simp) (honly k hkb ▸ hk)
  | read i =>
      simp only [hfr, Frame.uses] at hok hhandles
      simpa only [FrameOk, hhandles i (by simp)] using hok

/-- **The step rule.** A step that touches only its own handles keeps the invariant if it keeps
the books and leaves its own thread at a frame it can rely on. -/
theorem Inv.step {K : List ι} (h : Inv s owner) (ht : Touches s s' owner owner' t F K)
    (hbooks : ∀ b, BlockOk (s'.blocks b) (tokens s'.threads owner' b) (deleters s'.threads b).1
      (deleters s'.threads b).2)
    (hfresh : ∀ b, s'.next ≤ b → s'.blocks b = none)
    (hdeleted : ∀ b, b ∈ s'.deleted ↔ b < s'.next ∧ s'.blocks b = none)
    (hnodup : s'.deleted.Nodup) (hok : FrameOk s' owner' F) : Inv s' owner' where
  owned := by
    intro i hi
    rw [ht.threads_eq] at hi
    by_cases hK : i ∈ K
    · refine ht.owned i hK ?_
      have := hi t
      rwa [Function.update_self] at this
    · rw [ht.owner_eq i hK, ht.handles_eq i hK]
      refine h.owned i fun t' hgave => ?_
      rcases eq_or_ne t' t with rfl | hne
      · exact hK (ht.before i (Frame.gaveUp_mem_uses hgave))
      · exact hi t' (by rw [Function.update_of_ne hne]; exact hgave)
  gaveUp := by
    intro t' i hgave
    rw [ht.threads_eq] at hgave
    rcases eq_or_ne t' t with rfl | hne
    · rw [Function.update_self] at hgave
      exact ht.gaveUp i hgave
    · rw [Function.update_of_ne hne] at hgave
      rw [ht.owner_eq i fun hK => ht.mine i hK t' hne (Frame.gaveUp_mem_uses hgave)]
      exact h.gaveUp t' i hgave
  excl := by
    intro t₁ t₂ i h₁ h₂
    rw [ht.threads_eq] at h₁ h₂
    rcases eq_or_ne t₁ t with rfl | hne₁ <;> rcases eq_or_ne t₂ t₁ with rfl | hne₂
    · rfl
    · rw [Function.update_self] at h₁
      rw [Function.update_of_ne hne₂] at h₂
      exact absurd h₂ (ht.mine i (ht.after i h₁) t₂ hne₂)
    · rfl
    · rw [Function.update_of_ne hne₁] at h₁
      rcases eq_or_ne t₂ t with rfl | hne
      · rw [Function.update_self] at h₂
        exact absurd h₁ (ht.mine i (ht.after i h₂) t₁ hne₁)
      · rw [Function.update_of_ne hne] at h₂
        exact h.excl t₁ t₂ i h₁ h₂
  books := hbooks
  fresh := hfresh
  deleted := hdeleted
  nodup := hnodup
  frames := by
    intro t'
    rcases eq_or_ne t' t with rfl | hne
    · rw [ht.threads_eq, Function.update_self]; exact hok
    · rw [ht.threads_eq, Function.update_of_ne hne]; exact ht.frameOk h hne

/-! ## One step of one thread -/

/-- A step of a thread on the handles of its own frame. -/
theorem Inv.advance (h : Inv s owner) (hthreads : s'.threads = Function.update s.threads t F)
    (hafter : ∀ i ∈ F.uses, i ∈ (s.threads t).uses)
    (hhandles : ∀ i, i ∉ (s.threads t).uses → s'.handles i = s.handles i)
    (howner : ∀ i, i ∉ (s.threads t).uses → owner' i = owner i)
    (howned : ∀ i ∈ (s.threads t).uses, F.gaveUp ≠ some i → owner' i = (s'.handles i).join)
    (hgave : ∀ i, F.gaveUp = some i → owner' i = none)
    (hkept : ∀ b, tokens s.threads owner b = 1 → (∀ i ∈ (s.threads t).uses, owner i ≠ some b) →
      (s.threads t).held ≠ some b → tokens s'.threads owner' b = 1)
    (hbooks : ∀ b, BlockOk (s'.blocks b) (tokens s'.threads owner' b) (deleters s'.threads b).1
      (deleters s'.threads b).2)
    (hfresh : ∀ b, s'.next ≤ b → s'.blocks b = none)
    (hdeleted : ∀ b, b ∈ s'.deleted ↔ b < s'.next ∧ s'.blocks b = none)
    (hnodup : s'.deleted.Nodup) (hok : FrameOk s' owner' F) : Inv s' owner' :=
  h.step ⟨hthreads, fun i hi t' hne hi' => hne (h.excl t' t i hi' hi), fun _ hi => hi, hafter,
    hhandles, howner, howned, hgave, hkept⟩ hbooks hfresh hdeleted hnodup hok

omit [DecidableEq τ] [DecidableEq ι] in
/-- A block that is live stays allocated when something is stored in it. -/
theorem Inv.fresh_setBlock (h : Inv s owner) {block : SharedBlock T} (block' : SharedBlock T)
    (hb : s.blocks b = some block) :
    (∀ c, s.next ≤ c → Function.update s.blocks b (some block') c = none) ∧
    ∀ c, c ∈ s.deleted ↔ c < s.next ∧ Function.update s.blocks b (some block') c = none := by
  have hne : ∀ c, s.blocks c = none → c ≠ b := by
    intro c hc heq
    subst heq
    rw [hb] at hc
    exact absurd hc (by simp)
  refine ⟨fun c hc => ?_, fun c => ?_⟩
  · rw [Function.update_of_ne (hne c (h.fresh c hc))]
    exact h.fresh c hc
  · rw [h.deleted]
    rcases eq_or_ne c b with rfl | hcb
    · simp [hb]
    · rw [Function.update_of_ne hcb]

/-- A thread at this frame is not about to delete anything. -/
def Frame.Quiet (F : Frame ι T) : Prop := F.deletesElement = none ∧ F.deletesBlock = none

omit [Fintype ι] [DecidableEq ι] in
theorem deleters_quiet {threads : τ → Frame ι T} (hold : (threads t).Quiet) (hnew : F.Quiet)
    (b : ℕ) : deleters (Function.update threads t F) b = deleters threads b := by
  obtain ⟨he, hd⟩ := deleters_update threads t F b
  simp only [hold.1, hold.2, hnew.1, hnew.2, reduceCtorEq, if_false, Nat.add_zero] at he hd
  exact Prod.ext he hd

omit [DecidableEq τ] [DecidableEq ι] in
/-- The books when no reference comes or goes. -/
theorem Inv.books_same (h : Inv s owner) {threads' : τ → Frame ι T}
    (htok : ∀ c, tokens threads' owner' c = tokens s.threads owner c)
    (hdel : ∀ c, deleters threads' c = deleters s.threads c) (c : ℕ) :
    BlockOk (s.blocks c) (tokens threads' owner' c) (deleters threads' c).1
      (deleters threads' c).2 := by
  rw [htok, hdel]
  exact h.books c

omit [DecidableEq τ] [DecidableEq ι] in
/-- The books when one block changes. -/
theorem Inv.books_change (h : Inv s owner) {threads' : τ → Frame ι T}
    {block : Option (SharedBlock T)}
    (htok : ∀ c, c ≠ b → tokens threads' owner' c = tokens s.threads owner c)
    (hdel : ∀ c, c ≠ b → deleters threads' c = deleters s.threads c)
    (hb : BlockOk block (tokens threads' owner' b) (deleters threads' b).1
      (deleters threads' b).2) (c : ℕ) :
    BlockOk (Function.update s.blocks b block c) (tokens threads' owner' c)
      (deleters threads' c).1 (deleters threads' c).2 := by
  rcases eq_or_ne c b with rfl | hne
  · rw [Function.update_self]
    exact hb
  · rw [Function.update_of_ne hne, htok c hne, hdel c hne]
    exact h.books c

omit [DecidableEq ι] in
/-- A `fetch_add` through a handle that has a reference, by a thread that takes the new one. -/
theorem Inv.fetchAdd (h : Inv s owner) (howner : owner j = some b)
    (hroom : tokens s.threads owner b + 1 < 2 ^ 32) (hheld : (s.threads t).held = none)
    (hold : (s.threads t).Quiet) (hnew : F.Quiet) (hfr : F.held = some b) :
    ∃ block, s.fetchAdd b = some (s.setBlock b (some block))
      ∧ (∀ c, BlockOk (Function.update s.blocks b (some block) c)
        (tokens (Function.update s.threads t F) owner c)
        (deleters (Function.update s.threads t F) c).1
        (deleters (Function.update s.threads t F) c).2)
      ∧ (∀ c, s.next ≤ c → Function.update s.blocks b (some block) c = none)
      ∧ (∀ c, c ∈ s.deleted ↔ c < s.next ∧ Function.update s.blocks b (some block) c = none)
      ∧ ∀ c, c ≠ b → tokens (Function.update s.threads t F) owner c
        = tokens s.threads owner c := by
  have hpos := tokens_pos_of_owner s.threads howner
  obtain ⟨x, c, hblock, hc, -⟩ := h.live hpos
  have hadd : (c + 1).toNat = tokens s.threads owner b + 1 := by
    rw [UInt32.toNat_add, hc]
    exact Nat.mod_eq_of_lt hroom
  have htok := tokens_goto s.threads owner t F
  simp only [hheld, hfr, reduceCtorEq, if_false, Nat.add_zero, Option.some.injEq] at htok
  have hother : ∀ c, c ≠ b → tokens (Function.update s.threads t F) owner c
      = tokens s.threads owner c := by
    intro c hne
    rw [htok, if_neg (Ne.symm hne), Nat.add_zero]
  obtain ⟨hfresh, hdeleted⟩ := h.fresh_setBlock ⟨some x, c + 1⟩ hblock
  refine ⟨⟨some x, c + 1⟩, by rw [System.fetchAdd, hblock]; rfl, ?_, hfresh, hdeleted, hother⟩
  refine h.books_change hother (fun c _ => deleters_quiet hold hnew c) ?_
  obtain ⟨-, -, -, -, he, hd⟩ := (h.books b).of_pos hpos
  rw [deleters_quiet hold hnew, he, hd, htok, if_pos rfl]
  exact .live hadd (Nat.succ_pos _)

theorem advance_retain (h : Inv s owner) (hcard : Fintype.card ι < 2 ^ 32)
    (hfr : s.threads t = .retain i j) :
    ∃ s' owner', s.advance t = some s' ∧ Inv s' owner' := by
  obtain ⟨hi, b, hj⟩ := h.frame hfr
  have howns : ∀ k ∈ (s.threads t).uses, owner k = (s.handles k).join :=
    fun k hk => h.owner_eq hk (by rw [hfr]; simp [Frame.gaveUp])
  have huses : (s.threads t).uses = [i, j] := by rw [hfr]; rfl
  have howner : owner j = some b := by rw [howns j (by simp [huses]), hj]; rfl
  have hroom := h.tokens_lt_card (t := t) (i := i) (b := b) (by simp [huses])
    (by rw [howns i (by simp [huses]), hi]; simp) (by rw [hfr]; simp [Frame.held])
  obtain ⟨block, hadd, hbooks, hfresh, hdeleted, hother⟩ := h.fetchAdd (t := t)
    (F := .construct i j b) howner (by omega) (by rw [hfr]; rfl) (by rw [hfr]; exact ⟨rfl, rfl⟩)
    ⟨rfl, rfl⟩ rfl
  refine ⟨(s.setBlock b (some block)).goto t (.construct i j b), owner,
    by simp [System.advance, hfr, hj, hadd], ?_⟩
  refine h.advance (t := t) (F := .construct i j b) rfl (by simp [hfr, Frame.uses])
    (fun _ _ => rfl) (fun _ _ => rfl) (fun k hk _ => howns k hk) (by simp [Frame.gaveUp])
    ?_ hbooks hfresh hdeleted h.nodup hi
  intro c hone hno _
  have hne : c ≠ b := fun heq => hno j (by simp [huses]) (heq ▸ howner)
  exact (hother c hne).trans hone

/-- The thread puts the reference it has in its hands into handle `i`, which has none. -/
theorem Inv.putReference (h : Inv s owner) (hi : i ∈ (s.threads t).uses) (hown : owner i = none)
    (hheld : (s.threads t).held = some b) (hold : (s.threads t).Quiet) (hnew : F.Quiet)
    (hfr : F.held = none) (hafter : ∀ k ∈ F.uses, k ∈ (s.threads t).uses)
    (hgave : F.gaveUp = none)
    (howns : ∀ k ∈ (s.threads t).uses, k ≠ i → owner k = (s.handles k).join)
    (hok : tokens (Function.update s.threads t F) (Function.update owner i (some b)) b
        = tokens s.threads owner b →
      FrameOk ((s.setHandle i (some (some b))).goto t F) (Function.update owner i (some b)) F) :
    Inv ((s.setHandle i (some (some b))).goto t F) (Function.update owner i (some b)) := by
  have htok : ∀ c, tokens (Function.update s.threads t F) (Function.update owner i (some b)) c
      = tokens s.threads owner c := by
    intro c
    have hc := tokens_update s.threads owner t F i (some b) c
    simp only [hheld, hown, hfr, reduceCtorEq, if_false] at hc
    omega
  refine h.advance (t := t) (F := F) rfl hafter ?_ ?_ ?_ (by simp [hgave])
    (fun c hone _ _ => (htok c).trans hone) (h.books_same htok (deleters_quiet hold hnew))
    h.fresh h.deleted h.nodup (hok (htok b))
  · intro k hk
    exact Function.update_of_ne (ne_of_mem_of_not_mem hi hk).symm _ _
  · intro k hk
    exact Function.update_of_ne (ne_of_mem_of_not_mem hi hk).symm _ _
  · intro k hk _
    rcases eq_or_ne k i with rfl | hne
    · simp [System.goto, System.setHandle]
    · simp [System.goto, System.setHandle, Function.update_of_ne hne, howns k hk hne]

theorem advance_construct (h : Inv s owner) (hfr : s.threads t = .construct i j b) :
    ∃ s' owner', s.advance t = some s' ∧ Inv s' owner' := by
  have hi : s.handles i = none := h.frame hfr
  have huses : (s.threads t).uses = [i, j] := by rw [hfr]; rfl
  have howns : ∀ k ∈ (s.threads t).uses, owner k = (s.handles k).join :=
    fun k hk => h.owner_eq hk (by rw [hfr]; simp [Frame.gaveUp])
  refine ⟨(s.setHandle i (some (some b))).goto t .idle, Function.update owner i (some b),
    by simp [System.advance, hfr], ?_⟩
  exact h.putReference (by simp [huses]) (by rw [howns i (by simp [huses]), hi]; rfl)
    (by rw [hfr]; rfl) (by rw [hfr]; exact ⟨rfl, rfl⟩) ⟨rfl, rfl⟩ rfl (by simp [Frame.uses]) rfl
    (fun k hk _ => howns k hk) fun _ => trivial

/-- A thread that only moves on, between frames that hold the same. -/
theorem Inv.goto (h : Inv s owner) (hheld : (s.threads t).held = F.held)
    (hold : (s.threads t).Quiet) (hnew : F.Quiet)
    (hafter : ∀ k ∈ F.uses, k ∈ (s.threads t).uses) (hgave : (s.threads t).gaveUp = none)
    (hgave' : ∀ k, F.gaveUp = some k → owner k = none)
    (hok : (∀ c, tokens (Function.update s.threads t F) owner c = tokens s.threads owner c) →
      FrameOk (s.goto t F) owner F) : Inv (s.goto t F) owner := by
  have htok : ∀ c, tokens (Function.update s.threads t F) owner c = tokens s.threads owner c := by
    intro c
    have hc := tokens_goto s.threads owner t F c
    rw [hheld] at hc
    omega
  exact h.advance (t := t) (F := F) rfl hafter (fun _ _ => rfl) (fun _ _ => rfl)
    (fun k hk _ => h.owner_eq hk (by simp [hgave])) hgave'
    (fun c hone _ _ => (htok c).trans hone) (h.books_same htok (deleters_quiet hold hnew))
    h.fresh h.deleted h.nodup (hok htok)

theorem advance_compare (h : Inv s owner) (hcard : Fintype.card ι < 2 ^ 32)
    (hfr : s.threads t = .compare i j) :
    ∃ s' owner', s.advance t = some s' ∧ Inv s' owner' := by
  obtain ⟨⟨this, hi⟩, b, hj⟩ := h.frame hfr
  have huses : (s.threads t).uses = [i, j] := by rw [hfr]; rfl
  have hquiet : (s.threads t).Quiet := by rw [hfr]; exact ⟨rfl, rfl⟩
  have howns : ∀ k ∈ (s.threads t).uses, owner k = (s.handles k).join :=
    fun k hk => h.owner_eq hk (by rw [hfr]; simp [Frame.gaveUp])
  have howner : owner j = some b := by rw [howns j (by simp [huses]), hj]; rfl
  have howni : owner i = this := by rw [howns i (by simp [huses]), hi]; rfl
  by_cases hsame : this = some b
  · -- both handles are on the block already
    refine ⟨s.goto t .idle, owner, by simp [System.advance, hfr, hi, hj, hsame], ?_⟩
    exact h.goto (by rw [hfr]; rfl) hquiet ⟨rfl, rfl⟩ (by simp [Frame.uses]) (by rw [hfr]; rfl)
      (by simp [Frame.gaveUp]) fun _ => trivial
  have hroom := h.tokens_lt_card (t := t) (i := i) (b := b) (by simp [huses])
    (by rw [howni]; exact hsame) (by rw [hfr]; simp [Frame.held])
  -- where the thread goes after the `fetch_add`
  obtain ⟨F', hgo, hquiet', hheld', huses', hgave', hok⟩ : ∃ F' : Frame ι T,
      (∀ s' : System τ ι T, s'.releaseIfAny t this (.assign i j b) = s'.goto t F')
      ∧ F'.Quiet ∧ F'.held = some b ∧ F'.uses = [i, j]
      ∧ (∀ k, F'.gaveUp = some k → owner k = none)
      ∧ ∀ s' : System τ ι T, s'.handles = s.handles → FrameOk s' owner F' := by
    cases this with
    | none =>
        refine ⟨.finish (.assign i j b), fun _ => rfl, ⟨rfl, rfl⟩, rfl, rfl, ?_, ?_⟩
        · intro k hk
          obtain rfl : i = k := Option.some.inj hk
          exact howni
        · intro s' _
          exact fun heq => hsame (howni.symm.trans heq)
    | some c =>
        refine ⟨.release c (.assign i j b), fun _ => rfl, ⟨rfl, rfl⟩, rfl, rfl,
          by simp [Frame.gaveUp], ?_⟩
        intro s' hs'
        exact ⟨by rw [hs']; exact hi, fun heq => hsame (howni.symm.trans heq)⟩
  obtain ⟨block, hadd, hbooks, hfresh, hdeleted, hother⟩ := h.fetchAdd (t := t) (F := F')
    howner (by omega) (by rw [hfr]; rfl) hquiet hquiet' hheld'
  refine ⟨(s.setBlock b (some block)).goto t F', owner, ?_, ?_⟩
  · simp [System.advance, hfr, hi, hj, hsame, hadd, hgo]
  refine h.advance (t := t) (F := F') rfl (by simp [huses, huses'])
    (fun _ _ => rfl) (fun _ _ => rfl) (fun k hk _ => howns k hk) hgave'
    ?_ hbooks hfresh hdeleted h.nodup (hok _ rfl)
  intro c hone hno _
  have hne : c ≠ b := fun heq => hno j (by simp [huses]) (heq ▸ howner)
  exact (hother c hne).trans hone

/-! ### Release and deletion -/

omit [DecidableEq τ] [DecidableEq ι] in
theorem AfterOk.congr {k : After ι T} (hk : AfterOk s owner k) (hhandles : s'.handles = s.handles)
    (howner : owner' k.target = owner k.target)
    (htok : ∀ b, k.held = some b → tokens s'.threads owner' b = tokens s.threads owner b) :
    AfterOk s' owner' k := by
  cases k with
  | destructed i => trivial
  | assign i j b => rw [AfterOk, show owner' i = owner i from howner]; exact hk
  | moveAssign i j => rw [AfterOk, hhandles]; exact hk
  | switch i b f => rw [AfterOk, htok b rfl]; exact hk

omit [Fintype ι] [DecidableEq ι] in
theorem After.target_mem_uses (k : After ι T) : k.target ∈ k.uses := by
  cases k <;> simp [After.target, After.uses]

omit [DecidableEq τ] [DecidableEq ι] in
/-- Before a release the handle has the reference it is going to give up. -/
theorem Inv.release_owner {k : After ι T} (h : Inv s owner) (hfr : s.threads t = .release b k) :
    owner k.target = some b := by
  have hi := (h.frame hfr).1
  rw [h.owner_eq (t := t) (by rw [hfr]; exact k.target_mem_uses)
    (by rw [hfr]; simp [Frame.gaveUp]), hi]
  rfl

/-- The `fetch_sub` of a release: the handle gives its reference up, and the thread goes on to
delete the block or to what comes after. -/
theorem Inv.giveUp {k : After ι T} {block block' : SharedBlock T} (h : Inv s owner)
    (hfr : s.threads t = .release b k) (hblock : s.blocks b = some block)
    (hheld : F.held = k.held) (huses : F.uses = k.uses) (hgave : F.gaveUp = some k.target)
    (hok : ∀ s' : System τ ι T, AfterOk s' (Function.update owner k.target none) k →
      FrameOk s' (Function.update owner k.target none) F)
    (hdel : ∀ c, c ≠ b → deleters (Function.update s.threads t F) c = deleters s.threads c)
    (hbook : BlockOk (some block') (tokens s.threads owner b - 1)
      (deleters (Function.update s.threads t F) b).1
      (deleters (Function.update s.threads t F) b).2) :
    Inv ((s.setBlock b (some block')).goto t F) (Function.update owner k.target none) := by
  have hafter := (h.frame hfr).2
  have hown := h.release_owner hfr
  have huses' : (s.threads t).uses = k.uses := by rw [hfr]; rfl
  have hheld' : (s.threads t).held = k.held := by rw [hfr]; rfl
  have hmem : k.target ∈ (s.threads t).uses := huses' ▸ k.target_mem_uses
  have htok : ∀ c, tokens (Function.update s.threads t F)
      (Function.update owner k.target none) c
      = tokens s.threads owner c - if b = c then 1 else 0 := by
    intro c
    have hc := tokens_update s.threads owner t F k.target none c
    simp only [hown, hheld', hheld, Option.some.injEq, reduceCtorEq, if_false] at hc
    omega
  have hother : ∀ c, c ≠ b → tokens (Function.update s.threads t F)
      (Function.update owner k.target none) c = tokens s.threads owner c := by
    intro c hne
    rw [htok, if_neg (Ne.symm hne), Nat.sub_zero]
  have hbook' : BlockOk (some block')
      (tokens (Function.update s.threads t F) (Function.update owner k.target none) b)
      (deleters (Function.update s.threads t F) b).1
      (deleters (Function.update s.threads t F) b).2 := by
    rw [htok, if_pos rfl]
    exact hbook
  obtain ⟨hfresh, hdeleted⟩ := h.fresh_setBlock block' hblock
  refine h.advance (t := t) (F := F) rfl (by rw [huses, huses']; exact fun _ hl => hl)
    (fun _ _ => rfl) ?_ ?_ ?_ ?_ (h.books_change hother hdel hbook') hfresh hdeleted h.nodup
    (hok _ ?_)
  · intro l hl
    exact Function.update_of_ne (ne_of_mem_of_not_mem hmem hl).symm _ _
  · intro l hl hne
    rw [Function.update_of_ne (fun heq => hne (hgave.trans (congrArg some heq.symm)))]
    exact h.owner_eq hl (by rw [hfr]; simp [Frame.gaveUp])
  · intro l hl
    obtain rfl : k.target = l := Option.some.inj (hgave.symm.trans hl)
    exact Function.update_self _ _ _
  · intro c hone hno _
    exact (hother c fun heq => hno _ hmem (heq ▸ hown)).trans hone
  · cases k with
    | destructed i => trivial
    | assign i j b' => simp [AfterOk, After.target]
    | moveAssign i j => exact hafter
    | switch i b' f =>
        -- the fresh block is not the one that was left
        have hne : b' ≠ b := fun heq =>
          (only_holder hafter hheld').1 i (heq ▸ hown)
        exact (hother b' hne).trans hafter

theorem advance_release {k : After ι T} (h : Inv s owner) (hfr : s.threads t = .release b k) :
    ∃ s' owner', s.advance t = some s' ∧ Inv s' owner' := by
  have hpos := tokens_pos_of_owner s.threads (h.release_owner hfr)
  obtain ⟨x, c, hblock, hc, -⟩ := h.live hpos
  obtain ⟨-, -, -, -, he, hd⟩ := (h.books b).of_pos hpos
  by_cases hlast : c = 1
  · -- the last reference: the count is 0 and this thread is the one that deletes
    refine ⟨(s.setBlock b (some ⟨some x, 0⟩)).goto t (.deleteElement b k),
      Function.update owner k.target none, by simp [System.advance, hfr, hblock, hlast], ?_⟩
    have hone : tokens s.threads owner b = 1 := by rw [← hc, hlast]; rfl
    have hdel := fun c => deleters_update s.threads t (.deleteElement b k) c
    simp only [hfr, Frame.deletesElement, Frame.deletesBlock, Option.some.injEq, reduceCtorEq,
      if_false, Nat.add_zero] at hdel
    refine h.giveUp (F := .deleteElement b k) hfr hblock rfl rfl rfl (fun _ hk => hk)
      (fun c hne => ?_) ?_
    · obtain ⟨he', hd'⟩ := hdel c
      rw [if_neg (Ne.symm hne)] at he'
      exact Prod.ext he' hd'
    · rw [(hdel b).1, (hdel b).2, he, hd, hone, if_pos rfl]
      exact .doomed
  · refine ⟨(s.setBlock b (some ⟨some x, c - 1⟩)).goto t (.finish k),
      Function.update owner k.target none, by simp [System.advance, hfr, hblock, hlast], ?_⟩
    have hne : c.toNat ≠ 1 := fun heq => hlast (UInt32.toNat_inj.mp (by rw [heq]; rfl))
    have hquiet : (s.threads t).Quiet := by rw [hfr]; exact ⟨rfl, rfl⟩
    have hdel := deleters_quiet (F := .finish k) hquiet ⟨rfl, rfl⟩
    refine h.giveUp (F := .finish k) hfr hblock rfl rfl rfl (fun _ hk => hk)
      (fun c _ => hdel c) ?_
    rw [hdel, he, hd]
    refine .live ?_ (by omega)
    rw [UInt32.toNat_sub_of_le _ _ (UInt32.le_iff_toNat_le.mpr (by rw [hc]; exact hpos)), hc]
    rfl

/-- The thread that is to delete the element of a block finds it there. -/
theorem advance_deleteElement {k : After ι T} (h : Inv s owner)
    (hfr : s.threads t = .deleteElement b k) :
    ∃ s' owner', s.advance t = some s' ∧ Inv s' owner' := by
  have hafter : AfterOk s owner k := h.frame hfr
  have hpos : 0 < (deleters s.threads b).1 := occurrences_pos.mpr ⟨t, by rw [hfr]; rfl⟩
  obtain ⟨x, hblock, htok0, he, hd⟩ : ∃ x, s.blocks b = some ⟨some x, 0⟩
      ∧ tokens s.threads owner b = 0 ∧ (deleters s.threads b).1 = 1
      ∧ (deleters s.threads b).2 = 0 := by
    have hbook := h.books b
    generalize s.blocks b = block at hbook
    generalize tokens s.threads owner b = n at hbook
    generalize (deleters s.threads b).1 = e at hbook hpos
    generalize (deleters s.threads b).2 = d at hbook
    cases hbook with
    | doomed => exact ⟨_, rfl, rfl, rfl, rfl⟩
    | _ => exact absurd hpos (Nat.lt_irrefl 0)
  have htok : ∀ c, tokens (Function.update s.threads t (.deleteBlock b k)) owner c
      = tokens s.threads owner c := by
    intro c
    have hc := tokens_goto s.threads owner t (.deleteBlock b k) c
    rw [show (s.threads t).held = (Frame.deleteBlock b k).held by rw [hfr]; rfl] at hc
    omega
  have hdel := fun c => deleters_update s.threads t (.deleteBlock b k) c
  simp only [hfr, Frame.deletesElement, Frame.deletesBlock, Option.some.injEq, reduceCtorEq,
    if_false, Nat.add_zero] at hdel
  have hbook : BlockOk (some (⟨none, 0⟩ : SharedBlock T))
      (tokens (Function.update s.threads t (.deleteBlock b k)) owner b)
      (deleters (Function.update s.threads t (.deleteBlock b k)) b).1
      (deleters (Function.update s.threads t (.deleteBlock b k)) b).2 := by
    obtain ⟨he', hd'⟩ := hdel b
    rw [if_pos rfl] at he' hd'
    have he0 : (deleters (Function.update s.threads t (.deleteBlock b k)) b).1 = 0 := by omega
    rw [htok, htok0, hd', hd, he0]
    exact .emptied
  obtain ⟨hfresh, hdeleted⟩ := h.fresh_setBlock ⟨none, 0⟩ hblock
  refine ⟨(s.setBlock b (some ⟨none, 0⟩)).goto t (.deleteBlock b k), owner,
    by simp [System.advance, hfr, hblock], ?_⟩
  have hgave : (s.threads t).gaveUp = (Frame.deleteBlock b k).gaveUp := by rw [hfr]; rfl
  refine h.advance (t := t) (F := .deleteBlock b k) rfl (by rw [hfr]; exact fun _ hl => hl)
    (fun _ _ => rfl) (fun _ _ => rfl) (fun l hl hne => h.owner_eq hl (by rw [hgave]; exact hne))
    (fun l hl => h.gaveUp t l (hgave.trans hl)) (fun c hone _ _ => (htok c).trans hone)
    (h.books_change (fun c _ => htok c) (fun c hne => ?_) hbook) hfresh hdeleted h.nodup
    (hafter.congr rfl rfl fun c _ => htok c)
  obtain ⟨he', hd'⟩ := hdel c
  rw [if_neg (Ne.symm hne)] at he' hd'
  exact Prod.ext he' hd'

/-- And then the block, which nobody else deletes. -/
theorem advance_deleteBlock {k : After ι T} (h : Inv s owner)
    (hfr : s.threads t = .deleteBlock b k) :
    ∃ s' owner', s.advance t = some s' ∧ Inv s' owner' := by
  have hafter : AfterOk s owner k := h.frame hfr
  have hpos : 0 < (deleters s.threads b).2 := occurrences_pos.mpr ⟨t, by rw [hfr]; rfl⟩
  obtain ⟨hblock, htok0, he, hd⟩ : s.blocks b = some ⟨none, 0⟩
      ∧ tokens s.threads owner b = 0 ∧ (deleters s.threads b).1 = 0
      ∧ (deleters s.threads b).2 = 1 := by
    have hbook := h.books b
    generalize s.blocks b = block at hbook
    generalize tokens s.threads owner b = n at hbook
    generalize (deleters s.threads b).1 = e at hbook
    generalize (deleters s.threads b).2 = d at hbook hpos
    cases hbook with
    | emptied => exact ⟨rfl, rfl, rfl, rfl⟩
    | _ => exact absurd hpos (Nat.lt_irrefl 0)
  have hlt : b < s.next := by
    by_contra hle
    rw [h.fresh b (Nat.not_lt.mp hle)] at hblock
    exact absurd hblock (by simp)
  have htok : ∀ c, tokens (Function.update s.threads t (.finish k)) owner c
      = tokens s.threads owner c := by
    intro c
    have hc := tokens_goto s.threads owner t (.finish k) c
    rw [show (s.threads t).held = (Frame.finish k).held by rw [hfr]; rfl] at hc
    omega
  have hdel := fun c => deleters_update s.threads t (.finish k) c
  simp only [hfr, Frame.deletesElement, Frame.deletesBlock, Option.some.injEq, reduceCtorEq,
    if_false, Nat.add_zero] at hdel
  have hbook : BlockOk (none : Option (SharedBlock T))
      (tokens (Function.update s.threads t (.finish k)) owner b)
      (deleters (Function.update s.threads t (.finish k)) b).1
      (deleters (Function.update s.threads t (.finish k)) b).2 := by
    obtain ⟨he', hd'⟩ := hdel b
    rw [if_pos rfl] at hd'
    have hd0 : (deleters (Function.update s.threads t (.finish k)) b).2 = 0 := by omega
    rw [htok, htok0, he', he, hd0]
    exact .gone
  refine ⟨System.goto { s.setBlock b none with deleted := s.deleted ++ [b] } t (.finish k), owner,
    by simp [System.advance, hfr, hblock], ?_⟩
  have hgave : (s.threads t).gaveUp = (Frame.finish k).gaveUp := by rw [hfr]; rfl
  refine h.advance (t := t) (F := .finish k) rfl (by rw [hfr]; exact fun _ hl => hl)
    (fun _ _ => rfl) (fun _ _ => rfl) (fun l hl hne => h.owner_eq hl (by rw [hgave]; exact hne))
    (fun l hl => h.gaveUp t l (hgave.trans hl)) (fun c hone _ _ => (htok c).trans hone)
    (h.books_change (fun c _ => htok c) (fun c hne => ?_) hbook) ?_ ?_ ?_
    (hafter.congr rfl rfl fun c _ => htok c)
  · obtain ⟨he', hd'⟩ := hdel c
    rw [if_neg (Ne.symm hne)] at hd'
    exact Prod.ext he' hd'
  · intro c hc
    have hne : c ≠ b := fun heq => Nat.not_lt.mpr hc (heq ▸ hlt)
    exact (Function.update_of_ne hne _ _).trans (h.fresh c hc)
  · intro c
    rcases eq_or_ne c b with rfl | hne
    · simp [System.goto, System.setBlock, hlt]
    · simp [System.goto, System.setBlock, hne, h.deleted]
  · refine List.nodup_append.mpr ⟨h.nodup, List.nodup_singleton b, ?_⟩
    intro c hc c' hc' heq
    rw [List.mem_singleton] at hc'
    subst hc'
    subst heq
    have hgone := ((h.deleted c).mp hc).2
    rw [hblock] at hgone
    exact absurd hgone (by simp)

/-! ### Setting pointers -/

/-- A reference moves from handle `j` to handle `i`, which has none. -/
theorem Inv.moveReference (h : Inv s owner) (hne : i ≠ j)
    (hmine : ∀ k ∈ [i, j], ∀ t', t' ≠ t → k ∉ (s.threads t').uses)
    (hbefore : ∀ k ∈ (s.threads t).uses, k ∈ [i, j]) (hi : owner i = none)
    (hj : owner j = some b) (hheld : (s.threads t).held = none) (hquiet : (s.threads t).Quiet) :
    Inv (((s.setHandle j (some none)).setHandle i (some (some b))).goto t .idle)
      (Function.update (Function.update owner j none) i (some b)) := by
  have htok : ∀ c, tokens (Function.update s.threads t .idle)
      (Function.update (Function.update owner j none) i (some b)) c
      = tokens s.threads owner c := by
    intro c
    have hput := tokens_update s.threads (Function.update owner j none) t .idle i (some b) c
    have htake := occurrences_update owner j none (some c)
    rw [hheld] at hput
    simp only [Function.update_of_ne hne, hi, hj, Frame.held, reduceCtorEq, if_false]
      at hput htake
    unfold tokens at *
    omega
  refine h.step (t := t) (F := .idle) (K := [i, j]) ⟨rfl, hmine, hbefore, by simp [Frame.uses],
    fun k hk => ?_, fun k hk => ?_, fun k hk _ => ?_, by simp [Frame.gaveUp],
    fun c hone _ _ => (htok c).trans hone⟩
    (h.books_same htok (deleters_quiet hquiet ⟨rfl, rfl⟩)) h.fresh h.deleted h.nodup trivial
  · simp only [List.mem_cons, List.not_mem_nil, or_false, not_or] at hk
    simp [System.goto, System.setHandle, Function.update_of_ne hk.1, Function.update_of_ne hk.2]
  · simp only [List.mem_cons, List.not_mem_nil, or_false, not_or] at hk
    simp [Function.update_of_ne hk.1, Function.update_of_ne hk.2]
  · simp only [List.mem_cons, List.not_mem_nil, or_false] at hk
    rcases hk with rfl | rfl
    · simp [System.goto, System.setHandle]
    · simp [System.goto, System.setHandle, Function.update_of_ne (Ne.symm hne)]

theorem advance_finish {k : After ι T} (h : Inv s owner) (hfr : s.threads t = .finish k) :
    ∃ s' owner', s.advance t = some s' ∧ Inv s' owner' := by
  have hafter : AfterOk s owner k := h.frame hfr
  have hown : owner k.target = none := h.gaveUp t _ (by rw [hfr]; rfl)
  have hquiet : (s.threads t).Quiet := by rw [hfr]; exact ⟨rfl, rfl⟩
  have huses : (s.threads t).uses = k.uses := by rw [hfr]; rfl
  have howns : ∀ l ∈ (s.threads t).uses, l ≠ k.target → owner l = (s.handles l).join :=
    fun l hl hne => h.owner_eq hl (by rw [hfr]; exact fun heq => hne (Option.some.inj heq).symm)
  cases k with
  | destructed i =>
      have htok : ∀ c, tokens (Function.update s.threads t .idle) owner c
          = tokens s.threads owner c := by
        intro c
        have hc := tokens_goto s.threads owner t .idle c
        simp only [hfr, Frame.held, After.held, reduceCtorEq, if_false] at hc
        exact hc
      refine ⟨(s.setHandle i none).goto t .idle, owner,
        by simp [System.advance, hfr, System.resume], ?_⟩
      refine h.advance (t := t) (F := .idle) rfl (by simp [Frame.uses]) (fun l hl => ?_)
        (fun _ _ => rfl) (fun l hl _ => ?_) (by simp [Frame.gaveUp])
        (fun c hone _ _ => (htok c).trans hone) (h.books_same htok (deleters_quiet hquiet ⟨rfl, rfl⟩))
        h.fresh h.deleted h.nodup trivial
      · exact Function.update_of_ne (fun heq => hl (by simp [huses, After.uses, heq])) _ _
      · obtain rfl : l = i := by simpa [huses, After.uses] using hl
        simpa [System.goto, System.setHandle, After.target] using hown
  | assign i j b =>
      refine ⟨(s.setHandle i (some (some b))).goto t .idle, Function.update owner i (some b),
        by simp [System.advance, hfr, System.resume], ?_⟩
      exact h.putReference (by simp [huses, After.uses]) hown (by rw [hfr]; rfl) hquiet ⟨rfl, rfl⟩
        rfl (by simp [Frame.uses]) rfl howns fun _ => trivial
  | moveAssign i j =>
      obtain ⟨hne, b, hj⟩ := hafter
      have hownj : owner j = some b := by
        rw [howns j (by simp [huses, After.uses]) (Ne.symm hne), hj]; rfl
      refine ⟨((s.setHandle j (some none)).setHandle i (some (some b))).goto t .idle,
        Function.update (Function.update owner j none) i (some b),
        by simp [System.advance, hfr, System.resume, hj], ?_⟩
      refine h.moveReference hne (fun l hl t' hne' hl' => ?_) (by rw [huses]; exact fun _ hl => hl)
        hown hownj (by rw [hfr]; rfl) hquiet
      exact hne' (h.excl t' t l hl' (by rw [huses]; exact hl))
  | switch i b f =>
      refine ⟨(s.setHandle i (some (some b))).goto t (.mutate i f),
        Function.update owner i (some b), by simp [System.advance, hfr, System.resume], ?_⟩
      refine h.putReference (by simp [huses, After.uses]) hown (by rw [hfr]; rfl) hquiet ⟨rfl, rfl⟩
        rfl (by rw [huses]; exact fun _ hl => hl) rfl howns fun hsame => ?_
      exact ⟨b, by simp [System.goto, System.setHandle], hsame.trans hafter⟩

/-! ### `unique()` and `read()` -/

omit [DecidableEq τ] [DecidableEq ι] in
/-- A handle a thread works on and has not given up points to a live block. -/
theorem Inv.pointee (h : Inv s owner) (hi : i ∈ (s.threads t).uses)
    (hgave : (s.threads t).gaveUp = none) (hb : s.handles i = some (some b)) :
    owner i = some b ∧ ∃ x c, s.pointee i = some (b, ⟨some x, c⟩)
      ∧ s.blocks b = some ⟨some x, c⟩ ∧ c.toNat = tokens s.threads owner b ∧ b < s.next := by
  have hown : owner i = some b := by
    rw [h.owner_eq hi (by simp [hgave]), hb]; rfl
  obtain ⟨x, c, hblock, hc, hlt⟩ := h.live (tokens_pos_of_owner s.threads hown)
  exact ⟨hown, x, c, by simp [System.pointee, hb, hblock], hblock, hc, hlt⟩

theorem advance_load {f : T → T} (h : Inv s owner) (hfr : s.threads t = .load i f) :
    ∃ s' owner', s.advance t = some s' ∧ Inv s' owner' := by
  obtain ⟨b, hb⟩ := h.frame hfr
  have hquiet : (s.threads t).Quiet := by rw [hfr]; exact ⟨rfl, rfl⟩
  have hgave : (s.threads t).gaveUp = none := by rw [hfr]; rfl
  obtain ⟨hown, x, c, hpointee, -, hc, -⟩ := h.pointee (t := t) (i := i)
    (by rw [hfr]; simp [Frame.uses]) hgave hb
  by_cases hshared : 1 < c
  · refine ⟨s.goto t (.copy i f), owner, by simp [System.advance, hfr, hpointee, hshared], ?_⟩
    exact h.goto (by rw [hfr]; rfl) hquiet ⟨rfl, rfl⟩ (by rw [hfr]; exact fun _ hl => hl) hgave
      (by simp [Frame.gaveUp]) fun _ => ⟨b, hb⟩
  · -- the one reference is this handle's own
    have hone : tokens s.threads owner b = 1 := by
      have hpos := tokens_pos_of_owner s.threads hown
      have hle := UInt32.lt_iff_toNat_lt.not.mp hshared
      rw [UInt32.toNat_one, hc] at hle
      omega
    refine ⟨s.goto t (.mutate i f), owner, by simp [System.advance, hfr, hpointee, hshared], ?_⟩
    exact h.goto (by rw [hfr]; rfl) hquiet ⟨rfl, rfl⟩ (by rw [hfr]; exact fun _ hl => hl) hgave
      (by simp [Frame.gaveUp]) fun htok => ⟨b, hb, (htok b).trans hone⟩

omit [DecidableEq τ] [DecidableEq ι] in
/-- The number of a new block is given out. -/
theorem Inv.fresh_newBlock (h : Inv s owner) (block : SharedBlock T) :
    (∀ c, s.next + 1 ≤ c → Function.update s.blocks s.next (some block) c = none) ∧
    ∀ c, c ∈ s.deleted ↔
      c < s.next + 1 ∧ Function.update s.blocks s.next (some block) c = none := by
  refine ⟨fun c hc => ?_, fun c => ?_⟩
  · rw [Function.update_of_ne (by omega)]
    exact h.fresh c (by omega)
  · rw [h.deleted]
    rcases eq_or_ne c s.next with rfl | hne
    · simp
    · rw [Function.update_of_ne hne]
      exact ⟨fun hc => ⟨by omega, hc.2⟩, fun hc => ⟨by omega, hc.2⟩⟩

theorem advance_copy {f : T → T} (h : Inv s owner) (hfr : s.threads t = .copy i f) :
    ∃ s' owner', s.advance t = some s' ∧ Inv s' owner' := by
  obtain ⟨b, hb⟩ := h.frame hfr
  have hquiet : (s.threads t).Quiet := by rw [hfr]; exact ⟨rfl, rfl⟩
  have hgave : (s.threads t).gaveUp = none := by rw [hfr]; rfl
  have huses : (s.threads t).uses = [i] := by rw [hfr]; rfl
  obtain ⟨-, x, c, hpointee, -, -, -⟩ := h.pointee (t := t) (i := i) (by simp [huses]) hgave hb
  obtain ⟨htok0, he, hd⟩ := h.fresh_books
  have htok := tokens_goto s.threads owner t (.release b (.switch i s.next f))
  simp only [hfr, Frame.held, After.held, reduceCtorEq, if_false, Nat.add_zero,
    Option.some.injEq] at htok
  have hother : ∀ c, c ≠ s.next → tokens (Function.update s.threads t
      (.release b (.switch i s.next f))) owner c = tokens s.threads owner c := by
    intro c hne
    rw [htok, if_neg (Ne.symm hne), Nat.add_zero]
  have hnew : tokens (Function.update s.threads t (.release b (.switch i s.next f))) owner
      s.next = 1 := by
    rw [htok, if_pos rfl, htok0]
  have hdel := deleters_quiet (F := .release b (.switch i s.next f)) hquiet ⟨rfl, rfl⟩
  have hbook : BlockOk (some ⟨some x, 1⟩)
      (tokens (Function.update s.threads t (.release b (.switch i s.next f))) owner s.next)
      (deleters (Function.update s.threads t (.release b (.switch i s.next f))) s.next).1
      (deleters (Function.update s.threads t (.release b (.switch i s.next f))) s.next).2 := by
    rw [hdel, he, hd, hnew]
    exact .live rfl Nat.zero_lt_one
  obtain ⟨hfresh, hdeleted⟩ := h.fresh_newBlock ⟨some x, 1⟩
  refine ⟨(s.newBlock x).goto t (.release b (.switch i s.next f)), owner,
    by simp [System.advance, hfr, hpointee], ?_⟩
  refine h.advance (t := t) (F := .release b (.switch i s.next f)) rfl
    (by rw [huses]; exact fun _ hl => hl) (fun _ _ => rfl) (fun _ _ => rfl)
    (fun l hl _ => h.owner_eq hl (by simp [hgave])) (by simp [Frame.gaveUp])
    (fun c hone _ _ => (hother c fun heq => ?_).trans hone)
    (h.books_change hother (fun c _ => hdel c) hbook) hfresh hdeleted h.nodup ⟨hb, hnew⟩
  rw [heq, htok0] at hone
  exact absurd hone (by simp)

theorem advance_mutate {f : T → T} (h : Inv s owner) (hfr : s.threads t = .mutate i f) :
    ∃ s' owner', s.advance t = some s' ∧ Inv s' owner' := by
  obtain ⟨b, hb, -⟩ := h.frame hfr
  have hquiet : (s.threads t).Quiet := by rw [hfr]; exact ⟨rfl, rfl⟩
  have hgave : (s.threads t).gaveUp = none := by rw [hfr]; rfl
  obtain ⟨hown, x, c, hpointee, hblock, hc, -⟩ := h.pointee (t := t) (i := i)
    (by rw [hfr]; simp [Frame.uses]) hgave hb
  have hpos := tokens_pos_of_owner s.threads hown
  obtain ⟨-, -, -, -, he, hd⟩ := (h.books b).of_pos hpos
  have htok : ∀ c, tokens (Function.update s.threads t .idle) owner c
      = tokens s.threads owner c := by
    intro c
    have hc := tokens_goto s.threads owner t .idle c
    simp only [hfr, Frame.held, reduceCtorEq, if_false] at hc
    exact hc
  have hdel := deleters_quiet (F := .idle) hquiet ⟨rfl, rfl⟩
  have hbook : BlockOk (some ⟨some (f x), c⟩)
      (tokens (Function.update s.threads t .idle) owner b)
      (deleters (Function.update s.threads t .idle) b).1
      (deleters (Function.update s.threads t .idle) b).2 := by
    rw [hdel, he, hd, htok]
    exact .live hc hpos
  obtain ⟨hfresh, hdeleted⟩ := h.fresh_setBlock ⟨some (f x), c⟩ hblock
  refine ⟨(s.setBlock b (some ⟨some (f x), c⟩)).goto t .idle, owner,
    by simp [System.advance, hfr, hpointee], ?_⟩
  exact h.advance (t := t) (F := .idle) rfl (by simp [Frame.uses]) (fun _ _ => rfl)
    (fun _ _ => rfl) (fun l hl _ => h.owner_eq hl (by simp [hgave])) (by simp [Frame.gaveUp])
    (fun c hone _ _ => (htok c).trans hone)
    (h.books_change (fun c _ => htok c) (fun c _ => hdel c) hbook) hfresh hdeleted h.nodup trivial

theorem advance_read (h : Inv s owner) (hfr : s.threads t = .read i) :
    ∃ s' owner', s.advance t = some s' ∧ Inv s' owner' := by
  obtain ⟨b, hb⟩ := h.frame hfr
  have hgave : (s.threads t).gaveUp = none := by rw [hfr]; rfl
  obtain ⟨-, x, c, hpointee, -⟩ := h.pointee (t := t) (i := i)
    (by rw [hfr]; simp [Frame.uses]) hgave hb
  refine ⟨s.goto t .idle, owner, by simp [System.advance, hfr, hpointee], ?_⟩
  exact h.goto (by rw [hfr]; rfl) (by rw [hfr]; exact ⟨rfl, rfl⟩) ⟨rfl, rfl⟩ (by simp [Frame.uses])
    hgave (by simp [Frame.gaveUp]) fun _ => trivial

/-- **No thread is ever stuck.** A thread in a call can always take its next step, so it never
goes through a null pointer or to a block or element that was deleted; and the step keeps the
invariant. -/
theorem advance_inv (h : Inv s owner) (hcard : Fintype.card ι < 2 ^ 32)
    (hbusy : s.threads t ≠ .idle) :
    ∃ s' owner', s.advance t = some s' ∧ Inv s' owner' := by
  cases hfr : s.threads t with
  | idle => exact absurd hfr hbusy
  | retain i j => exact advance_retain h hcard hfr
  | construct i j b => exact advance_construct h hfr
  | compare i j => exact advance_compare h hcard hfr
  | release b k => exact advance_release h hfr
  | deleteElement b k => exact advance_deleteElement h hfr
  | deleteBlock b k => exact advance_deleteBlock h hfr
  | finish k => exact advance_finish h hfr
  | load i f => exact advance_load h hfr
  | copy i f => exact advance_copy h hfr
  | mutate i f => exact advance_mutate h hfr
  | read i => exact advance_read h hfr

/-! ## The first step of a call -/

/-- An idle thread enters a call on handles nobody is using. -/
theorem Inv.enter (h : Inv s owner) (hidle : s.threads t = .idle)
    (hfree : ∀ i ∈ F.uses, s.Free i) (hheld : F.held = none) (hquiet : F.Quiet)
    (hgave : ∀ k, F.gaveUp = some k → owner k = none) (hok : FrameOk (s.goto t F) owner F) :
    Inv (s.goto t F) owner := by
  have htok : ∀ c, tokens (Function.update s.threads t F) owner c = tokens s.threads owner c := by
    intro c
    have hc := tokens_goto s.threads owner t F c
    rw [hidle, hheld] at hc
    exact hc
  have hidleQuiet : (s.threads t).Quiet := by rw [hidle]; exact ⟨rfl, rfl⟩
  exact h.step (t := t) (F := F) (K := F.uses)
    ⟨rfl, fun i hi t' _ => hfree i hi t', by simp [hidle, Frame.uses], fun _ hi => hi,
      fun _ _ => rfl, fun _ _ => rfl, fun i hi _ => h.owner_eq_of_free (hfree i hi), hgave,
      fun c hone _ _ => (htok c).trans hone⟩
    (h.books_same htok (deleters_quiet hidleQuiet hquiet)) h.fresh h.deleted h.nodup hok

/-- The same for a call that begins with a release, if there is something to release. -/
theorem Inv.enter_releaseIfAny {k : After ι T} {this : Pointer} (h : Inv s owner)
    (hidle : s.threads t = .idle) (hfree : ∀ i ∈ k.uses, s.Free i) (hheld : k.held = none)
    (hthis : s.handles k.target = some this) (hafter : ∀ F, AfterOk (s.goto t F) owner k) :
    Inv (s.releaseIfAny t this k) owner := by
  cases this with
  | none =>
      refine h.enter (F := .finish k) hidle hfree hheld ⟨rfl, rfl⟩ (fun l hl => ?_) (hafter _)
      obtain rfl : k.target = l := Option.some.inj hl
      rw [h.owner_eq_of_free (hfree _ k.target_mem_uses), hthis]
      rfl
  | some b =>
      exact h.enter (F := .release b k) hidle hfree hheld ⟨rfl, rfl⟩ (by simp [Frame.gaveUp])
        ⟨hthis, hafter _⟩

/-- A handle is constructed on a block of its own. -/
theorem begin_construct {x : T} (h : Inv s owner) (hidle : s.threads t = .idle)
    (hfree : s.Free i) (hi : s.handles i = none) :
    Inv ((s.newBlock x).setHandle i (some (some s.next)))
      (Function.update owner i (some s.next)) := by
  have hown : owner i = none := by rw [h.owner_eq_of_free hfree, hi]; rfl
  obtain ⟨htok0, he, hd⟩ := h.fresh_books
  have hself : Function.update s.threads t .idle = s.threads := by
    rw [← hidle, Function.update_eq_self]
  have htok : ∀ c, tokens s.threads (Function.update owner i (some s.next)) c
      = tokens s.threads owner c + if s.next = c then 1 else 0 := by
    intro c
    have hc := tokens_update s.threads owner t .idle i (some s.next) c
    simp only [hself, hidle, hown, Frame.held, Option.some.injEq, reduceCtorEq, if_false] at hc
    omega
  have hother : ∀ c, c ≠ s.next → tokens s.threads (Function.update owner i (some s.next)) c
      = tokens s.threads owner c := by
    intro c hne
    rw [htok, if_neg (Ne.symm hne), Nat.add_zero]
  have hbook : BlockOk (some ⟨some x, 1⟩)
      (tokens s.threads (Function.update owner i (some s.next)) s.next)
      (deleters s.threads s.next).1 (deleters s.threads s.next).2 := by
    rw [htok, if_pos rfl, htok0, he, hd]
    exact .live rfl Nat.zero_lt_one
  obtain ⟨hfresh, hdeleted⟩ := h.fresh_newBlock ⟨some x, 1⟩
  refine h.step (t := t) (F := .idle) (K := [i])
    ⟨hself.symm, ?_, by simp [hidle, Frame.uses], by simp [Frame.uses], fun k hk => ?_,
      fun k hk => ?_, fun k hk _ => ?_, by simp [Frame.gaveUp], fun c hone _ _ => ?_⟩
    (h.books_change hother (fun _ _ => rfl) hbook) hfresh hdeleted h.nodup trivial
  · intro k hk t' _
    obtain rfl : k = i := by simpa using hk
    exact hfree t'
  · exact Function.update_of_ne (by simpa using hk) _ _
  · exact Function.update_of_ne (by simpa using hk) _ _
  · obtain rfl : k = i := by simpa using hk
    simp [System.setHandle]
  · refine (hother c fun heq => ?_).trans hone
    rw [heq, htok0] at hone
    exact absurd hone (by simp)

theorem begin_inv {c : Call ι T} (h : Inv s owner) (hidle : s.threads t = .idle)
    (hfree : ∀ i ∈ c.uses, s.Free i) (hs : s.begin t c = some s') : ∃ owner', Inv s' owner' := by
  cases c with
  | construct i x =>
      simp only [System.begin] at hs
      split at hs
      · rename_i hi
        rw [Option.some.injEq] at hs; subst hs
        exact ⟨_, begin_construct h hidle (hfree i (by simp [Call.uses])) hi⟩
      · exact absurd hs (by simp)
  | copyConstruct i j =>
      simp only [System.begin] at hs
      split at hs
      · rename_i b hi hj
        rw [Option.some.injEq] at hs; subst hs
        exact ⟨owner, h.enter hidle hfree rfl ⟨rfl, rfl⟩ (by simp [Frame.gaveUp]) ⟨hi, b, hj⟩⟩
      · exact absurd hs (by simp)
  | moveConstruct i j =>
      simp only [System.begin] at hs
      split at hs
      · rename_i b hi hj
        rw [Option.some.injEq] at hs; subst hs
        have hne : i ≠ j := by
          intro heq
          subst heq
          rw [hi] at hj
          exact absurd hj (by simp)
        have hmoved := h.moveReference (t := t) hne (fun k hk t' _ => hfree k hk t')
          (by simp [hidle, Frame.uses])
          (by rw [h.owner_eq_of_free (hfree i (by simp [Call.uses])), hi]; rfl)
          (by rw [h.owner_eq_of_free (hfree j (by simp [Call.uses])), hj]; rfl)
          (by rw [hidle]; rfl) (by rw [hidle]; exact ⟨rfl, rfl⟩)
        have hself : Function.update s.threads t .idle = s.threads := by
          rw [← hidle, Function.update_eq_self]
        simp only [System.goto, System.setHandle, hself] at hmoved
        exact ⟨_, hmoved⟩
      · exact absurd hs (by simp)
  | copyAssign i j =>
      simp only [System.begin] at hs
      split at hs
      · rename_i this b hi hj
        rw [Option.some.injEq] at hs; subst hs
        exact ⟨owner, h.enter hidle hfree rfl ⟨rfl, rfl⟩ (by simp [Frame.gaveUp])
          ⟨⟨this, hi⟩, b, hj⟩⟩
      · exact absurd hs (by simp)
  | moveAssign i j =>
      simp only [System.begin] at hs
      split at hs
      · rename_i this b hi hj
        split at hs
        · rename_i hne
          rw [Option.some.injEq] at hs; subst hs
          exact ⟨owner, h.enter_releaseIfAny hidle hfree rfl hi fun _ => ⟨hne, b, hj⟩⟩
        · rw [Option.some.injEq] at hs; subst hs
          exact ⟨owner, h⟩
      · exact absurd hs (by simp)
  | mutate i f =>
      simp only [System.begin] at hs
      split at hs
      · rename_i b hi
        rw [Option.some.injEq] at hs; subst hs
        exact ⟨owner, h.enter hidle hfree rfl ⟨rfl, rfl⟩ (by simp [Frame.gaveUp]) ⟨b, hi⟩⟩
      · exact absurd hs (by simp)
  | read i =>
      simp only [System.begin] at hs
      split at hs
      · rename_i b hi
        rw [Option.some.injEq] at hs; subst hs
        exact ⟨owner, h.enter hidle hfree rfl ⟨rfl, rfl⟩ (by simp [Frame.gaveUp]) ⟨b, hi⟩⟩
      · exact absurd hs (by simp)
  | destruct i =>
      simp only [System.begin] at hs
      split at hs
      · rename_i this hi
        rw [Option.some.injEq] at hs; subst hs
        exact ⟨owner, h.enter_releaseIfAny hidle hfree rfl hi fun _ => trivial⟩
      · exact absurd hs (by simp)

theorem step_inv (hcard : Fintype.card ι < 2 ^ 32) {a : Action τ ι T} (h : Inv s owner)
    (hs : s.step a = some s') : ∃ owner', Inv s' owner' := by
  cases a with
  | call t c =>
      simp only [System.step] at hs
      split at hs
      · rename_i hidle
        split at hs
        · rename_i hfree
          exact begin_inv h hidle hfree hs
        · exact absurd hs (by simp)
      · exact absurd hs (by simp)
  | advance t =>
      have hbusy : s.threads t ≠ .idle := by
        intro hidle
        rw [System.step, System.advance, hidle] at hs
        exact absurd hs (by simp)
      obtain ⟨s₁, owner', hs₁, hinv⟩ := advance_inv h hcard hbusy
      obtain rfl : s' = s₁ := Option.some.inj (hs.symm.trans hs₁)
      exact ⟨owner', hinv⟩

omit [DecidableEq τ] [DecidableEq ι] in
theorem start_inv : Inv (System.start : System τ ι T) fun _ => none where
  owned := fun _ _ => rfl
  gaveUp := fun _ _ h => absurd h (by simp [System.start, Frame.gaveUp])
  excl := fun _ _ _ h => absurd h (by simp [System.start, Frame.uses])
  books := by
    intro b
    have htok : tokens (System.start : System τ ι T).threads (fun _ => none) b = 0 := by
      rw [tokens, occurrences_eq_zero.mpr (by simp),
        occurrences_eq_zero.mpr (by simp [System.start, Frame.held])]
    have hdel : deleters (System.start : System τ ι T).threads b = (0, 0) := by
      rw [deleters, occurrences_eq_zero.mpr (by simp [System.start, Frame.deletesElement]),
        occurrences_eq_zero.mpr (by simp [System.start, Frame.deletesBlock])]
    rw [htok, hdel]
    exact .gone
  fresh := fun _ _ => rfl
  deleted := fun b => by simp [System.start]
  nodup := List.nodup_nil
  frames := fun _ => trivial

theorem run_inv (hcard : Fintype.card ι < 2 ^ 32) {as : List (Action τ ι T)}
    (hrun : run System.step System.start as = some s) : ∃ owner, Inv s owner :=
  run_invariant (I := fun s => ∃ owner, Inv s owner)
    (fun ⟨_, h⟩ hs => step_inv hcard h hs) ⟨_, start_inv⟩ hrun

end Invariant

/-! ## The result -/

/-- The blocks an unfinished call refers to, besides the ones its handles point to. -/
def Frame.mentions : Frame ι T → List ℕ
  | .construct _ _ b => [b]
  | .release b k => b :: k.held.toList
  | .deleteElement b k => b :: k.held.toList
  | .deleteBlock b k => b :: k.held.toList
  | .finish k => k.held.toList
  | _ => []

/-- The handle through which a thread is about to copy, read or mutate an element. -/
def Frame.accesses : Frame ι T → Option ι
  | .copy i _ => some i
  | .mutate i _ => some i
  | .read i => some i
  | _ => none

theorem Frame.held_mem_mentions {F : Frame ι T} {b : ℕ} (h : F.held = some b) :
    b ∈ F.mentions := by
  cases F <;> simp_all [held, mentions]

theorem Frame.quiet_of_not_mem_mentions {F : Frame ι T} {b : ℕ} (h : b ∉ F.mentions) :
    F.deletesElement ≠ some b ∧ F.deletesBlock ≠ some b := by
  cases F <;> simp_all [deletesElement, deletesBlock, mentions, eq_comm]

variable [Fintype τ] [Fintype ι] [DecidableEq τ] [DecidableEq ι]

/-- **The split is safe.** In every state that threads on distinct handles can reach: while a
thread writes in place, every other handle on that block has given its reference up in a
`fetch_sub` of its own call; a thread in a call never meets a deleted block; no block is deleted
twice; and a block that no handle and no unfinished call refers to has been deleted. -/
theorem split_is_safe (hcard : Fintype.card ι < 2 ^ 32) (as : List (Action τ ι T))
    (s : System τ ι T) (hrun : run System.step System.start as = some s) :
    (∀ t i f, s.threads t = .mutate i f → ∃ b, s.handles i = some (some b)
      ∧ ∀ k, k ≠ i → s.handles k = some (some b) →
        ∃ t', t' ≠ t ∧ (s.threads t').gaveUp = some k)
    ∧ (∀ t i, (s.threads t).accesses = some i → ∃ b x c, s.handles i = some (some b)
      ∧ s.blocks b = some ⟨some x, c⟩ ∧ b ∉ s.deleted)
    ∧ (∀ t, s.threads t ≠ .idle → ∃ s', s.step (.advance t) = some s')
    ∧ s.deleted.Nodup
    ∧ ∀ b, b < s.next → (∀ i, s.handles i ≠ some (some b)) →
        (∀ t, b ∉ (s.threads t).mentions) → b ∈ s.deleted := by
  obtain ⟨owner, h⟩ := run_inv hcard hrun
  refine ⟨fun t i f hfr => ?_, fun t i hacc => ?_, fun t hbusy => ?_, h.nodup,
    fun b hlt hhandles hthreads => ?_⟩
  · obtain ⟨b, hb, hone⟩ := h.frame hfr
    refine ⟨b, hb, fun k hk hkb => ?_⟩
    obtain ⟨hown, -⟩ := h.pointee (t := t) (i := i) (by rw [hfr]; simp [Frame.uses])
      (by rw [hfr]; rfl) hb
    -- a handle that had not given its reference up would have a second token
    by_contra hnone
    have hkown : owner k = some b := by
      rw [h.owned k fun t' hgave => hnone ⟨t', fun heq => ?_, hgave⟩, hkb]
      · rfl
      · rw [heq, hfr] at hgave
        exact absurd hgave (by simp [Frame.gaveUp])
    exact hk ((only_owner hone hown).1 k hkown)
  · obtain ⟨hmem, hgave, b, hb⟩ : i ∈ (s.threads t).uses ∧ (s.threads t).gaveUp = none
        ∧ ∃ b, s.handles i = some (some b) := by
      have hok := h.frames t
      cases hfr : s.threads t with
      | copy j f =>
          rw [hfr] at hacc hok
          obtain rfl : j = i := Option.some.inj hacc
          exact ⟨by simp [Frame.uses], rfl, hok⟩
      | mutate j f =>
          rw [hfr] at hacc hok
          obtain rfl : j = i := Option.some.inj hacc
          obtain ⟨b, hb, -⟩ := hok
          exact ⟨by simp [Frame.uses], rfl, b, hb⟩
      | read j =>
          rw [hfr] at hacc hok
          obtain rfl : j = i := Option.some.inj hacc
          exact ⟨by simp [Frame.uses], rfl, hok⟩
      | _ => rw [hfr] at hacc; exact absurd hacc (by simp [Frame.accesses])
    obtain ⟨-, x, c, -, hblock, -⟩ := h.pointee hmem hgave hb
    refine ⟨b, x, c, hb, hblock, fun hdel => ?_⟩
    have hgone := ((h.deleted b).mp hdel).2
    rw [hblock] at hgone
    exact absurd hgone (by simp)
  · obtain ⟨s', -, hs', -⟩ := advance_inv h hcard hbusy
    exact ⟨s', hs'⟩
  · refine (h.deleted b).mpr ⟨hlt, ?_⟩
    have hnoowner : ∀ i, owner i ≠ some b := by
      intro i hi
      have hjoin : owner i = (s.handles i).join := by
        refine h.owned i fun t hgave => ?_
        rw [h.gaveUp t i hgave] at hi
        exact absurd hi (by simp)
      rw [hjoin] at hi
      exact hhandles i (Option.join_eq_some_iff.mp hi)
    have htok : tokens s.threads owner b = 0 := by
      rw [tokens, occurrences_eq_zero.mpr hnoowner, occurrences_eq_zero.mpr fun t ht =>
        hthreads t (Frame.held_mem_mentions ht)]
    have hdel : deleters s.threads b = (0, 0) := by
      have hquiet := fun t => Frame.quiet_of_not_mem_mentions (hthreads t)
      rw [deleters, occurrences_eq_zero.mpr fun t => (hquiet t).1,
        occurrences_eq_zero.mpr fun t => (hquiet t).2]
    have hbook := h.books b
    rw [htok, hdel] at hbook
    generalize s.blocks b = block at hbook
    cases hbook with
    | gone => rfl
    | live _ hn => exact absurd hn (Nat.lt_irrefl 0)

/-- Thread 1 splits handle 1 off and has executed its `fetch_sub` but not yet the store of the new
pointer; thread 0 sees a count of 1 and is about to write in place. -/
def staleSchedule : List (Action (Fin 2) (Fin 2) Nat) :=
  [.call 0 (.construct 0 5), .call 0 (.copyConstruct 1 0), .advance 0, .advance 0,
    .call 1 (.mutate 1 (· + 1)), .advance 1, .advance 1, .advance 1,
    .call 0 (.mutate 0 (· + 1)), .advance 0]

/-- The hypotheses met: in the middle of that schedule the other handle has given its reference
up. -/
theorem split_is_safe_stale : ∃ s : System (Fin 2) (Fin 2) Nat,
    run System.step System.start staleSchedule = some s
    ∧ ∃ b, s.handles 0 = some (some b) ∧ ∀ k, k ≠ 0 → s.handles k = some (some b) →
      ∃ t', t' ≠ 0 ∧ (s.threads t').gaveUp = some k := by
  obtain ⟨s, hrun⟩ : ∃ s, run System.step System.start staleSchedule = some s := ⟨_, rfl⟩
  have hfr : s.threads 0 = .mutate 0 (· + 1) := by
    cases hrun
    rfl
  exact ⟨s, hrun, (split_is_safe (by decide) staleSchedule s hrun).1 0 0 (· + 1) hfr⟩

/-- The pointers alone do not tell: a thread may write in place while the pointer of another
handle is still on that block. -/
theorem mutation_under_stale_pointer :
    ¬ ∀ (as : List (Action (Fin 2) (Fin 2) Nat)) (s : System (Fin 2) (Fin 2) Nat),
      run System.step System.start as = some s →
      ∀ t i f, s.threads t = .mutate i f → ∀ b, s.handles i = some (some b) →
        ∀ k, k ≠ i → s.handles k ≠ some (some b) := by
  intro hclaim
  exact hclaim staleSchedule _ rfl 0 0 (· + 1) rfl 0 rfl 1 (by decide) rfl

end NPFoundation.CopyOnWrite.Threads
