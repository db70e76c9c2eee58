import NPFoundation.CopyOnWrite.CopyCost
import NPFoundation.CopyOnWrite.ThreadsValues
import Mathlib.Data.List.Perm.Subperm

/-!
# What a race costs

When one thread mutates at a time, each copy of an element was saved before, when a handle
was copied. Two threads that find the same block shared both copy it, though, and leave
it to be deleted: a copy that nobody needed. How much worse can that get?

A block of which something was copied had been shared before, so it was retained; and a
thread that copies it gives up the reference that found it shared. So no block is
copied more often than it had references, which is once more than it was retained, and
that is at most twice as often.

`Accounts` keeps the two lists: the blocks that were retained and the blocks that were
copied, each as often as that happened.
-/

namespace NPFoundation.CopyOnWrite.Threads

open Transition Tally

variable {τ ι T : Type}

def Action.constructs (a : Action τ ι T) : Bool := a.op.any Op.constructs

def Action.shares (a : Action τ ι T) : Bool := a.op.any Op.shares

namespace Frame

/-- Whether the call of a thread is to retain a block and has not done so. -/
def asking : Frame ι T → ℕ
  | .retain _ _ => 1
  | .compare _ _ => 1
  | _ => 0

/-- The block that a thread copied and has not left yet. -/
def splitting : Frame ι T → Option ℕ
  | .release b (.switch _ _ _) => some b
  | _ => none

end Frame

namespace System

/-- What `retainCount` of block `b` says; 0 when there is none. -/
def count (s : System τ ι T) (b : ℕ) : ℕ :=
  (s.blocks b).elim 0 fun block => block.retainCount.toNat

theorem count_setBlock (s : System τ ι T) (b c : ℕ)
    (block : Option (SharedBlock T)) :
    (s.setBlock b block).count c
      = if c = b then block.elim 0 fun block => block.retainCount.toNat else s.count c := by
  unfold count setBlock
  by_cases hc : c = b
  · subst hc
    simp
  · simp [hc]

end System

section Books

variable [Fintype τ]

/-- The threads that copied `b` and have not left it yet. -/
def splitters (threads : τ → Frame ι T) (b : ℕ) : ℕ :=
  occurrences (fun t => (threads t).splitting) (some b)

/-- The blocks that were retained and the blocks that were copied, after so many calls that
construct and so many that share. -/
structure Accounts (s : System τ ι T) (retained copied : List ℕ) (constructs shares : ℕ) :
    Prop where
  /-- Blocks are made by what constructs and by what copies. -/
  made : s.next = constructs + copied.length
  /-- A call that shares retains once, or is about to. -/
  asked : retained.length + total Frame.asking s.threads ≤ shares
  /-- A thread that copied a block gives up a reference to it, or has already. -/
  counts : ∀ b, copied.count b + s.count b ≤ 1 + retained.count b + splitters s.threads b
  /-- A thread within a split has made its copy. -/
  started : ∀ b, splitters s.threads b ≤ copied.count b
  /-- Only what was shared is copied. -/
  shared : ∀ b ∈ copied, b ∈ retained
  /-- And what is about to be. -/
  copying : ∀ t i f b, s.threads t = .copy i f → s.handles i = some (some b) → b ∈ retained
  /-- Only what was made is retained. -/
  known : ∀ b ∈ retained, b < s.next

variable [DecidableEq τ] {s s' : System τ ι T} {t : τ} {F : Frame ι T}
  {retained copied : List ℕ} {constructs shares : ℕ}

/-- Thread `t` goes on to `F`, and no other thread finds its handles changed. -/
structure Goes (s s' : System τ ι T) (t : τ) (F : Frame ι T) : Prop where
  /-- The other threads stay where they are. -/
  threads_eq : s'.threads = Function.update s.threads t F
  /-- So do the handles they are using. -/
  others : ∀ t' i, t' ≠ t → i ∈ (s.threads t').uses → s'.handles i = s.handles i

theorem Goes.splitters (h : Goes s s' t F) (b : ℕ) : Threads.splitters s'.threads b
        + (if (s.threads t).splitting = some b then 1 else 0)
      = Threads.splitters s.threads b + if F.splitting = some b then 1 else 0 := by
  rw [h.threads_eq]
  exact occurrences_goto Frame.splitting s.threads t F (some b)

/-- Neither frame is within a split. -/
theorem Goes.splitters_same (h : Goes s s' t F) (hold : (s.threads t).splitting = none)
    (hnew : F.splitting = none) (b : ℕ) : Threads.splitters s'.threads b
      = Threads.splitters s.threads b := by
  have hsplit := h.splitters b
  simpa only [hold, hnew, reduceCtorEq, if_false, Nat.add_zero] using hsplit

theorem Goes.asking (h : Goes s s' t F) :
    total Frame.asking s'.threads + (s.threads t).asking
      = total Frame.asking s.threads + F.asking := by
  rw [h.threads_eq]
  exact total_update Frame.asking s.threads t F

/-- What other threads are about to copy was shared, whatever this one does. -/
theorem Accounts.copying_of_goes (h : Accounts s retained copied constructs shares)
    (hgoes : Goes s s' t F) (hmine : ∀ i f b, F = .copy i f → s'.handles i = some (some b) →
      b ∈ retained) :
    ∀ t' i f b, s'.threads t' = .copy i f → s'.handles i = some (some b) → b ∈ retained := by
  intro t' i f b hfr hi
  rw [hgoes.threads_eq] at hfr
  by_cases ht : t' = t
  · subst ht
    rw [Function.update_self] at hfr
    exact hmine i f b hfr hi
  · rw [Function.update_of_ne ht] at hfr
    rw [hgoes.others t' i ht (by rw [hfr]; simp [Frame.uses])] at hi
    exact h.copying t' i f b hfr hi

/-! ## The entries -/

/-- A step that is in neither list. -/
theorem Accounts.quiet {n : ℕ} (h : Accounts s retained copied constructs shares)
    (hgoes : Goes s s' t F) (hnext : s'.next = s.next) (hcount : ∀ b, s'.count b ≤ s.count b)
    (hold : (s.threads t).splitting = none) (hnew : F.splitting = none)
    (hasked : F.asking ≤ (s.threads t).asking + n) (hcopy : ∀ i f, F ≠ .copy i f) :
    Accounts s' retained copied constructs (shares + n) where
  made := hnext.trans h.made
  asked := by
    have hbefore := h.asked
    have hasking := hgoes.asking
    omega
  counts := by
    intro b
    have hbefore := h.counts b
    have hle := hcount b
    rw [hgoes.splitters_same hold hnew]
    omega
  started := by
    intro b
    rw [hgoes.splitters_same hold hnew]
    exact h.started b
  shared := h.shared
  copying := h.copying_of_goes hgoes fun i f _ hF => absurd hF (hcopy i f)
  known := by
    intro b hb
    rw [hnext]
    exact h.known b hb

/-- A retain. -/
theorem Accounts.retain {b : ℕ} (h : Accounts s retained copied constructs shares)
    (hgoes : Goes s s' t F) (hnext : s'.next = s.next) (hb : b < s.next)
    (hcount : ∀ c, s'.count c ≤ s.count c + if c = b then 1 else 0)
    (hold : (s.threads t).splitting = none) (hnew : F.splitting = none)
    (hasked : F.asking + 1 ≤ (s.threads t).asking) (hcopy : ∀ i f, F ≠ .copy i f) :
    Accounts s' (b :: retained) copied constructs shares where
  made := hnext.trans h.made
  asked := by
    have hbefore := h.asked
    have hasking := hgoes.asking
    rw [List.length_cons]
    omega
  counts := by
    intro c
    have hbefore := h.counts c
    have hle := hcount c
    rw [hgoes.splitters_same hold hnew, List.count_cons]
    simp only [beq_iff_eq, eq_comm (a := b)]
    omega
  started := by
    intro c
    rw [hgoes.splitters_same hold hnew]
    exact h.started c
  shared := fun c hc => List.mem_cons_of_mem b (h.shared c hc)
  copying := fun t' i f c hfr hi => List.mem_cons_of_mem b
    (h.copying_of_goes hgoes (fun i f _ hF => absurd hF (hcopy i f)) t' i f c hfr hi)
  known := by
    intro c hc
    rw [hnext]
    rcases List.mem_cons.mp hc with rfl | hc
    · exact hb
    · exact h.known c hc

omit [DecidableEq τ] in
/-- A count above 1 is the work of a retain. -/
theorem Accounts.retained_of_count {b : ℕ} (h : Accounts s retained copied constructs shares)
    (hb : 1 < s.count b) : b ∈ retained := by
  by_cases hcopied : b ∈ copied
  · exact h.shared b hcopied
  · have hcounts := h.counts b
    have hstarted := h.started b
    rw [List.count_eq_zero.mpr hcopied] at hcounts hstarted
    refine List.count_pos_iff.mp ?_
    omega

omit [DecidableEq τ] in
/-- Nothing was copied of a block that is not there yet. -/
theorem Accounts.fresh (h : Accounts s retained copied constructs shares) :
    copied.count s.next = 0 :=
  List.count_eq_zero.mpr fun hmem => Nat.lt_irrefl _ (h.known _ (h.shared _ hmem))

/-- The count was above 1 when it was loaded. -/
theorem Accounts.load {i : ι} {f : T → T} {b : ℕ}
    (h : Accounts s retained copied constructs shares) (hgoes : Goes s (s.goto t (.copy i f)) t
      (.copy i f)) (hold : (s.threads t).splitting = none) (hi : s.handles i = some (some b))
    (hb : 1 < s.count b) : Accounts (s.goto t (.copy i f)) retained copied constructs shares where
  made := h.made
  asked := by
    have hbefore := h.asked
    have hasking := hgoes.asking
    simp only [Frame.asking] at hasking
    omega
  counts := by
    intro c
    rw [hgoes.splitters_same hold rfl]
    exact h.counts c
  started := by
    intro c
    rw [hgoes.splitters_same hold rfl]
    exact h.started c
  shared := h.shared
  copying := by
    refine h.copying_of_goes hgoes fun i' f' c hF hi' => ?_
    obtain ⟨rfl, -⟩ := Frame.copy.inj hF
    obtain rfl : b = c := by
      rw [← Option.some_inj, ← Option.some_inj, ← hi]
      exact hi'
    exact h.retained_of_count hb
  known := h.known

/-- A copy. -/
theorem Accounts.copy {i : ι} {f : T → T} {b : ℕ} {x : T}
    (h : Accounts s retained copied constructs shares) (hfr : s.threads t = .copy i f)
    (hi : s.handles i = some (some b))
    (hgoes : Goes s ((s.newBlock x).goto t (.release b (.switch i s.next f))) t
      (.release b (.switch i s.next f))) :
    Accounts ((s.newBlock x).goto t (.release b (.switch i s.next f))) retained (b :: copied)
      constructs shares where
  made := by
    have hmade := h.made
    rw [List.length_cons]
    simp only [System.goto, System.newBlock]
    omega
  asked := by
    have hbefore := h.asked
    have hasking := hgoes.asking
    simp only [hfr, Frame.asking] at hasking
    omega
  counts := by
    intro c
    have hbefore := h.counts c
    have hsplit := hgoes.splitters c
    have hcount : ((s.newBlock x).goto t (.release b (.switch i s.next f))).count c
        = if c = s.next then 1 else s.count c := System.count_setBlock s s.next c _
    simp only [hfr, Frame.splitting, reduceCtorEq, if_false, Option.some.injEq] at hsplit
    rw [hcount, List.count_cons]
    simp only [beq_iff_eq]
    by_cases hc : c = s.next
    · subst hc
      rw [h.fresh, if_pos rfl]
      omega
    · rw [if_neg hc]
      omega
  started := by
    intro c
    have hbefore := h.started c
    have hsplit := hgoes.splitters c
    simp only [hfr, Frame.splitting, reduceCtorEq, if_false, Option.some.injEq] at hsplit
    rw [List.count_cons]
    simp only [beq_iff_eq]
    omega
  shared := by
    intro c hc
    rcases List.mem_cons.mp hc with rfl | hc
    · exact h.copying t i f c hfr hi
    · exact h.shared c hc
  copying := h.copying_of_goes hgoes fun _ _ _ hF => absurd hF (by simp)
  known := fun c hc => Nat.lt_succ_of_lt (h.known c hc)

/-- The release of a split. -/
theorem Accounts.leave {i : ι} {f : T → T} {b c : ℕ}
    (h : Accounts s retained copied constructs shares)
    (hfr : s.threads t = .release b (.switch i c f)) (hgoes : Goes s s' t F)
    (hnext : s'.next = s.next)
    (hcount : ∀ c, s'.count c + (if c = b then 1 else 0) ≤ s.count c)
    (hnew : F.splitting = none) (hasked : F.asking = 0) (hcopy : ∀ i f, F ≠ .copy i f) :
    Accounts s' retained copied constructs shares where
  made := hnext.trans h.made
  asked := by
    have hbefore := h.asked
    have hasking := hgoes.asking
    omega
  counts := by
    intro c
    have hbefore := h.counts c
    have hle := hcount c
    have hsplit := hgoes.splitters c
    rw [hfr, hnew] at hsplit
    simp only [Frame.splitting, reduceCtorEq, if_false, Option.some.injEq, eq_comm (a := b)]
      at hsplit
    omega
  started := by
    intro c
    have hbefore := h.started c
    have hsplit := hgoes.splitters c
    simp only [hnew, reduceCtorEq, if_false] at hsplit
    omega
  shared := h.shared
  copying := h.copying_of_goes hgoes fun i f _ hF => absurd hF (hcopy i f)
  known := by
    intro b hb
    rw [hnext]
    exact h.known b hb

/-- A new element. -/
theorem Accounts.construct [DecidableEq ι] {i : ι} {x : T}
    (h : Accounts s retained copied constructs shares)
    (hgoes : Goes s ((s.newBlock x).setHandle i (some (some s.next))) t .idle)
    (hidle : s.threads t = .idle) :
    Accounts ((s.newBlock x).setHandle i (some (some s.next))) retained copied (constructs + 1)
      shares where
  made := by
    have hmade := h.made
    simp only [System.setHandle, System.newBlock]
    omega
  asked := h.asked
  counts := by
    intro c
    have hbefore := h.counts c
    have hcount : ((s.newBlock x).setHandle i (some (some s.next))).count c
        = if c = s.next then 1 else s.count c := System.count_setBlock s s.next c _
    rw [hcount, hgoes.splitters_same (by rw [hidle]; rfl) rfl]
    by_cases hc : c = s.next
    · subst hc
      rw [h.fresh, if_pos rfl]
      omega
    · rw [if_neg hc]
      exact hbefore
  started := h.started
  shared := h.shared
  copying := h.copying_of_goes hgoes fun _ _ _ hF => absurd hF (by simp)
  known := fun c hc => Nat.lt_succ_of_lt (h.known c hc)

end Books

/-! ## One step -/

section Invariant

variable [Fintype τ] [Fintype ι] [DecidableEq τ] {s s' : System τ ι T} {owner : ι → Option ℕ}
  {t : τ} {F : Frame ι T} {retained copied : List ℕ} {constructs shares : ℕ}

theorem Inv.goes (h : Inv s owner) (hthreads : s'.threads = Function.update s.threads t F)
    (hhandles : ∀ i, i ∉ (s.threads t).uses → s'.handles i = s.handles i) : Goes s s' t F :=
  ⟨hthreads, fun t' i hne hi => hhandles i fun hmine => hne (h.excl t' t i hi hmine)⟩

omit [DecidableEq τ] in
/-- What a handle in use points to is there. -/
theorem Inv.lt_next_of_block (h : Inv s owner) {b : ℕ} {block : SharedBlock T}
    (hb : s.blocks b = some block) : b < s.next := by
  by_contra hle
  rw [h.fresh b (Nat.not_lt.mp hle)] at hb
  exact absurd hb (by simp)

omit [DecidableEq τ] [Fintype τ] [Fintype ι] in
theorem fetchAdd_count {b : ℕ} (h : s.fetchAdd b = some s') :
    s'.next = s.next ∧ s'.handles = s.handles ∧ s'.threads = s.threads
      ∧ (∃ block, s.blocks b = some block)
      ∧ ∀ c, s'.count c ≤ s.count c + if c = b then 1 else 0 := by
  obtain ⟨block, hb, rfl⟩ := Option.map_eq_some_iff.mp h
  refine ⟨rfl, rfl, rfl, ⟨block, hb⟩, fun c => ?_⟩
  rw [System.count_setBlock]
  by_cases hc : c = b
  · subst hc
    simp only [if_true, Option.elim_some, System.count, hb, UInt32.toNat_add]
    exact Nat.mod_le _ _
  · simp only [hc, if_false]
    omega

omit [DecidableEq τ] [Fintype τ] [Fintype ι] in
theorem fetchSub_count {b : ℕ} {block : SharedBlock T} (hb : s.blocks b = some block)
    (hpos : 0 < block.retainCount.toNat) (c : ℕ) :
    (s.setBlock b (some { block with retainCount := block.retainCount - 1 })).count c
      + (if c = b then 1 else 0) ≤ s.count c := by
  rw [System.count_setBlock]
  by_cases hc : c = b
  · subst hc
    have hone : (1 : UInt32) ≤ block.retainCount := UInt32.le_iff_toNat_le.mpr hpos
    simp only [if_true, Option.elim_some, System.count, hb, UInt32.toNat_sub_of_le _ _ hone,
      UInt32.toNat_one]
    omega
  · simp only [hc, if_false]
    omega

omit [DecidableEq τ] [Fintype τ] [Fintype ι] in
/-- A block that keeps its count, or goes. -/
theorem count_le {b : ℕ} {block : SharedBlock T} {B : Option (SharedBlock T)}
    (hb : s.blocks b = some block)
    (hle : ∀ block₁, B = some block₁ → block₁.retainCount = block.retainCount) (c : ℕ) :
    (s.setBlock b B).count c ≤ s.count c := by
  rw [System.count_setBlock]
  by_cases hc : c = b
  · subst hc
    cases B with
    | none =>
        rw [if_pos rfl]
        exact Nat.zero_le _
    | some block₁ =>
        rw [if_pos rfl, Option.elim_some, hle block₁ rfl, System.count, hb]
        exact Nat.le_refl _
  · rw [if_neg hc]

omit [DecidableEq τ] [Fintype τ] [Fintype ι] in
theorem pointee_some {i : ι} {b : ℕ} {block : SharedBlock T} (h : s.pointee i = some (b, block)) :
    s.handles i = some (some b) ∧ s.blocks b = some block := by
  obtain ⟨c, hi, hblock⟩ := Option.bind_eq_some_iff.mp h
  obtain ⟨block₁, hb, heq⟩ := Option.map_eq_some_iff.mp hblock
  obtain ⟨rfl, rfl⟩ := Prod.mk.inj heq
  exact ⟨Option.join_eq_some_iff.mp hi, hb⟩

/-- The `fetch_sub` of a release, and on to a frame outside of every split. -/
theorem release_accounts {b : ℕ} {k : After ι T} {block : SharedBlock T} (hinv : Inv s owner)
    (h : Accounts s retained copied constructs shares) (hfr : s.threads t = .release b k)
    (hblock : s.blocks b = some block) (hsplit : F.splitting = none) (hasked : F.asking = 0)
    (hcopy : ∀ i f, F ≠ .copy i f) :
    Accounts ((s.setBlock b (some { block with retainCount := block.retainCount - 1 })).goto t F)
      retained copied constructs shares := by
  have hpos : 0 < block.retainCount.toNat := by
    have htokens := tokens_pos_of_owner s.threads (hinv.release_owner hfr)
    obtain ⟨x, c, hlive, hc, -⟩ := hinv.live htokens
    obtain rfl := Option.some.inj (hblock.symm.trans hlive)
    rw [hc]
    exact htokens
  have hcount := fetchSub_count hblock hpos
  have hgoes : Goes s ((s.setBlock b
      (some { block with retainCount := block.retainCount - 1 })).goto t F) t F :=
    hinv.goes rfl fun _ _ => rfl
  cases k with
  | switch i c f => exact h.leave hfr hgoes rfl hcount hsplit hasked hcopy
  | _ =>
      exact h.quiet (n := 0) hgoes rfl (fun c => Nat.le_trans (Nat.le_add_right _ _) (hcount c))
        (by rw [hfr]; rfl) hsplit (by omega) hcopy

/-- The pointers are set, and the call is over or goes on to write. -/
theorem finish_accounts [DecidableEq ι] {k : After ι T} (hinv : Inv s owner)
    (h : Accounts s retained copied constructs shares) (hfr : s.threads t = .finish k)
    (hs : s.resume t k = some s') : Accounts s' retained copied constructs shares := by
  have hset : ∀ (F : Frame ι T) (s₁ : System τ ι T), s₁.threads = s.threads →
      s₁.blocks = s.blocks → s₁.next = s.next →
      (∀ i, i ∉ k.uses → s₁.handles i = s.handles i) → F.splitting = none → F.asking = 0 →
      (∀ i f, F ≠ .copy i f) → Accounts (s₁.goto t F) retained copied constructs shares := by
    intro F s₁ hthreads hblocks hnext hhandles hsplit hasked hcopy
    have hgoes : Goes s (s₁.goto t F) t F :=
      hinv.goes (by rw [← hthreads]; rfl) fun i hi => hhandles i (by rwa [hfr] at hi)
    refine h.quiet (n := 0) hgoes hnext (fun c => ?_) (by rw [hfr]; rfl) hsplit (by omega) hcopy
    simp only [System.count, System.goto, hblocks]
    exact Nat.le_refl _
  cases k with
  | destructed i =>
      obtain rfl := Option.some.inj hs
      refine hset .idle _ rfl rfl rfl (fun j hj => ?_) rfl rfl (by simp)
      exact Function.update_of_ne (by simpa [After.uses] using hj) _ _
  | assign i j b =>
      obtain rfl := Option.some.inj hs
      refine hset .idle _ rfl rfl rfl (fun l hl => ?_) rfl rfl (by simp)
      simp only [After.uses, List.mem_cons, List.not_mem_nil, or_false, not_or] at hl
      exact Function.update_of_ne hl.1 _ _
  | moveAssign i j =>
      simp only [System.resume] at hs
      split at hs
      · obtain rfl := Option.some.inj hs
        refine hset .idle _ rfl rfl rfl (fun l hl => ?_) rfl rfl (by simp)
        simp only [After.uses, List.mem_cons, List.not_mem_nil, or_false, not_or] at hl
        exact (Function.update_of_ne hl.1 _ _).trans (Function.update_of_ne hl.2 _ _)
      · exact absurd hs (by simp)
  | switch i b f =>
      obtain rfl := Option.some.inj hs
      refine hset (.mutate i f) _ rfl rfl rfl (fun j hj => ?_) rfl rfl (by simp)
      exact Function.update_of_ne (by simpa [After.uses] using hj) _ _

/-- **One step of one thread.** -/
theorem advance_accounts [DecidableEq ι] (hinv : Inv s owner)
    (h : Accounts s retained copied constructs shares) (hs : s.advance t = some s') :
    ∃ retained' copied', Accounts s' retained' copied' constructs shares := by
  unfold System.advance at hs
  cases hfr : s.threads t with
  | idle =>
      rw [hfr] at hs
      exact absurd hs (by simp)
  | retain i j =>
      simp only [hfr] at hs
      split at hs
      · exact absurd hs (by simp)
      · rename_i b hj
        obtain ⟨s₁, hadd, rfl⟩ := Option.map_eq_some_iff.mp hs
        obtain ⟨hnext, hhandles, hthreads, ⟨block, hblock⟩, hcount⟩ := fetchAdd_count hadd
        exact ⟨_, _, h.retain (F := .construct i j b)
          (hinv.goes (congrArg (Function.update · t _) hthreads) fun k _ => congrFun hhandles k)
          hnext (hinv.lt_next_of_block hblock) hcount (by rw [hfr]; rfl) rfl
          (by rw [hfr]; rfl) (by simp)⟩
  | construct i j b =>
      simp only [hfr, Option.some.injEq] at hs
      subst hs
      refine ⟨_, _, h.quiet (n := 0) (F := .idle) (hinv.goes rfl fun k hk => ?_) rfl
        (fun c => Nat.le_refl _) (by rw [hfr]; rfl) rfl (Nat.zero_le _) (by simp)⟩
      refine Function.update_of_ne ?_ _ _
      rintro rfl
      exact hk (by rw [hfr]; simp [Frame.uses])
  | compare i j =>
      simp only [hfr] at hs
      split at hs
      · rename_i this other _ _
        split at hs
        · cases other with
          | none => exact absurd hs (by simp)
          | some b =>
              obtain ⟨s₁, hadd, rfl⟩ := Option.map_eq_some_iff.mp hs
              obtain ⟨hnext, hhandles, hthreads, ⟨block, hblock⟩, hcount⟩ := fetchAdd_count hadd
              cases this with
              | none =>
                  exact ⟨_, _, h.retain (F := .finish (.assign i j b))
                    (hinv.goes (congrArg (Function.update · t _) hthreads)
                      fun k _ => congrFun hhandles k)
                    hnext (hinv.lt_next_of_block hblock) hcount (by rw [hfr]; rfl) rfl
                    (by rw [hfr]; rfl) (by simp)⟩
              | some c =>
                  exact ⟨_, _, h.retain (F := .release c (.assign i j b))
                    (hinv.goes (congrArg (Function.update · t _) hthreads)
                      fun k _ => congrFun hhandles k)
                    hnext (hinv.lt_next_of_block hblock) hcount (by rw [hfr]; rfl) rfl
                    (by rw [hfr]; rfl) (by simp)⟩
        · obtain rfl := Option.some.inj hs
          exact ⟨_, _, h.quiet (n := 0) (F := .idle) (hinv.goes rfl fun _ _ => rfl) rfl
            (fun c => Nat.le_refl _) (by rw [hfr]; rfl) rfl (Nat.zero_le _) (by simp)⟩
      · exact absurd hs (by simp)
  | release b k =>
      simp only [hfr] at hs
      split at hs
      · exact absurd hs (by simp)
      · rename_i block hblock
        split at hs
        · obtain rfl := Option.some.inj hs
          exact ⟨_, _, release_accounts hinv h hfr hblock rfl rfl (by simp)⟩
        · obtain rfl := Option.some.inj hs
          exact ⟨_, _, release_accounts hinv h hfr hblock rfl rfl (by simp)⟩
  | deleteElement b k =>
      simp only [hfr] at hs
      split at hs
      · rename_i x c hblock
        obtain rfl := Option.some.inj hs
        refine ⟨_, _, h.quiet (n := 0) (F := .deleteBlock b k)
          (hinv.goes rfl fun _ _ => rfl) rfl (count_le hblock ?_) (by rw [hfr]; rfl) rfl
          (Nat.zero_le _) (by simp)⟩
        intro block₁ heq
        rw [← Option.some.inj heq]
      · exact absurd hs (by simp)
  | deleteBlock b k =>
      simp only [hfr] at hs
      split at hs
      · rename_i block hblock
        obtain rfl := Option.some.inj hs
        exact ⟨_, _, h.quiet (n := 0) (F := .finish k) (hinv.goes rfl fun _ _ => rfl) rfl
          (count_le (B := none) hblock (by simp)) (by rw [hfr]; rfl) rfl
          (Nat.zero_le _) (by simp)⟩
      · exact absurd hs (by simp)
  | finish k =>
      simp only [hfr] at hs
      exact ⟨_, _, finish_accounts hinv h hfr hs⟩
  | load i f =>
      simp only [hfr] at hs
      split at hs
      · exact absurd hs (by simp)
      · rename_i b block hpointee
        obtain ⟨hi, hblock⟩ := pointee_some hpointee
        split at hs
        · rename_i hshared
          obtain rfl := Option.some.inj hs
          refine ⟨_, _, h.load (hinv.goes rfl fun _ _ => rfl) (by rw [hfr]; rfl) hi ?_⟩
          rw [System.count, hblock]
          exact UInt32.lt_iff_toNat_lt.mp hshared
        · obtain rfl := Option.some.inj hs
          exact ⟨_, _, h.quiet (n := 0) (F := .mutate i f) (hinv.goes rfl fun _ _ => rfl) rfl
            (fun c => Nat.le_refl _) (by rw [hfr]; rfl) rfl (Nat.zero_le _) (by simp)⟩
  | copy i f =>
      simp only [hfr] at hs
      split at hs
      · rename_i b x c hpointee
        obtain ⟨hi, hblock⟩ := pointee_some hpointee
        obtain rfl := Option.some.inj hs
        exact ⟨_, _, h.copy hfr hi (hinv.goes rfl fun _ _ => rfl)⟩
      · exact absurd hs (by simp)
  | mutate i f =>
      simp only [hfr] at hs
      split at hs
      · rename_i b x c hpointee
        obtain ⟨hi, hblock⟩ := pointee_some hpointee
        obtain rfl := Option.some.inj hs
        refine ⟨_, _, h.quiet (n := 0) (F := .idle) (hinv.goes rfl fun _ _ => rfl) rfl
          (count_le hblock ?_) (by rw [hfr]; rfl) rfl (Nat.zero_le _) (by simp)⟩
        intro block₁ heq
        rw [← Option.some.inj heq]
      · exact absurd hs (by simp)
  | read i =>
      simp only [hfr] at hs
      split at hs
      · obtain rfl := Option.some.inj hs
        exact ⟨_, _, h.quiet (n := 0) (F := .idle) (hinv.goes rfl fun _ _ => rfl) rfl
          (fun c => Nat.le_refl _) (by rw [hfr]; rfl) rfl (Nat.zero_le _) (by simp)⟩
      · exact absurd hs (by simp)

/-! ## The first step of a call -/

omit [Fintype ι] in
theorem Accounts.enter {n : ℕ} (h : Accounts s retained copied constructs shares)
    (hidle : s.threads t = .idle) (hsplit : F.splitting = none) (hasked : F.asking ≤ n)
    (hcopy : ∀ i f, F ≠ .copy i f) :
    Accounts (s.goto t F) retained copied constructs (shares + n) :=
  h.quiet ⟨rfl, fun _ _ _ _ => rfl⟩ rfl (fun _ => Nat.le_refl _) (by rw [hidle]; rfl) hsplit
    (by rw [hidle]; exact Nat.le_trans hasked (Nat.le_add_left _ _)) hcopy

omit [Fintype ι] in
theorem Accounts.enter_releaseIfAny {k : After ι T} {this : Pointer}
    (h : Accounts s retained copied constructs shares) (hidle : s.threads t = .idle)
    (hk : (Frame.release 0 k).splitting = none) :
    Accounts (s.releaseIfAny t this k) retained copied constructs shares := by
  cases this with
  | none => exact h.enter (n := 0) hidle rfl (Nat.le_refl _) (by simp)
  | some b =>
      refine h.enter (n := 0) hidle ?_ (Nat.le_refl _) (by simp)
      cases k with
      | switch i c f => exact absurd hk (by simp [Frame.splitting])
      | _ => rfl

omit [Fintype ι] in
theorem begin_accounts [DecidableEq ι] {c : Call ι T}
    (h : Accounts s retained copied constructs shares) (hidle : s.threads t = .idle)
    (hfree : ∀ i ∈ c.uses, s.Free i) (hs : s.begin t c = some s') :
    Accounts s' retained copied (constructs + if c.op.constructs then 1 else 0)
      (shares + if c.op.shares then 1 else 0) := by
  have hself : Function.update s.threads t .idle = s.threads := by
    rw [← hidle, Function.update_eq_self]
  have hothers : ∀ {t' i j}, i ∈ (s.threads t').uses → j ∈ c.uses → i ≠ j := by
    rintro t' i j hi hj rfl
    exact hfree i hj t' hi
  cases c with
  | construct i x =>
      simp only [System.begin] at hs
      split at hs
      · obtain rfl := Option.some.inj hs
        refine h.construct (t := t) ⟨hself.symm, fun t' j _ hj => ?_⟩ hidle
        exact Function.update_of_ne (hothers hj (by simp [Call.uses])) _ _
      · exact absurd hs (by simp)
  | copyConstruct i j =>
      simp only [System.begin] at hs
      split at hs
      · obtain rfl := Option.some.inj hs
        exact h.enter hidle rfl (Nat.le_refl _) (by simp)
      · exact absurd hs (by simp)
  | moveConstruct i j =>
      simp only [System.begin] at hs
      split at hs
      · obtain rfl := Option.some.inj hs
        refine h.quiet (n := 0) (t := t) (F := .idle) ⟨hself.symm, fun t' k _ hk => ?_⟩ rfl
          (fun _ => Nat.le_refl _) (by rw [hidle]; rfl) rfl (Nat.zero_le _) (by simp)
        exact (Function.update_of_ne (hothers hk (by simp [Call.uses])) _ _).trans
          (Function.update_of_ne (hothers hk (by simp [Call.uses])) _ _)
      · exact absurd hs (by simp)
  | copyAssign i j =>
      simp only [System.begin] at hs
      split at hs
      · obtain rfl := Option.some.inj hs
        exact h.enter hidle rfl (Nat.le_refl _) (by simp)
      · exact absurd hs (by simp)
  | moveAssign i j =>
      simp only [System.begin] at hs
      split at hs
      · split at hs
        · obtain rfl := Option.some.inj hs
          exact h.enter_releaseIfAny hidle rfl
        · obtain rfl := Option.some.inj hs
          exact h
      · exact absurd hs (by simp)
  | mutate i f =>
      simp only [System.begin] at hs
      split at hs
      · obtain rfl := Option.some.inj hs
        exact h.enter hidle rfl (Nat.le_refl _) (by simp)
      · exact absurd hs (by simp)
  | read i =>
      simp only [System.begin] at hs
      split at hs
      · obtain rfl := Option.some.inj hs
        exact h.enter hidle rfl (Nat.le_refl _) (by simp)
      · exact absurd hs (by simp)
  | destruct i =>
      simp only [System.begin] at hs
      split at hs
      · obtain rfl := Option.some.inj hs
        exact h.enter_releaseIfAny hidle rfl
      · exact absurd hs (by simp)

/-! ## Whole schedules -/

omit [Fintype ι] [DecidableEq τ] in
theorem start_accounts : Accounts (System.start : System τ ι T) [] [] 0 0 where
  made := rfl
  asked := by
    have hzero : total Frame.asking (System.start : System τ ι T).threads = 0 :=
      total_eq_zero.mpr fun _ => rfl
    rw [hzero]
    exact Nat.le_refl _
  counts := fun _ => Nat.le_trans (Nat.zero_le 1) (Nat.le_add_right _ _)
  started := by
    intro b
    rw [splitters, occurrences_eq_zero.mpr fun _ => by simp [System.start, Frame.splitting]]
    exact Nat.zero_le _
  shared := fun _ hb => hb
  copying := fun _ _ _ _ hfr => absurd hfr (by simp [System.start])
  known := fun _ hb => absurd hb (by simp)

/-- The state that a schedule leads to, with its accounts. -/
theorem run_accounts [DecidableEq ι] (hcard : Fintype.card ι < 2 ^ 32)
    {as : List (Action τ ι T)} (hrun : run System.step System.start as = some s) :
    ∃ owner retained copied, Inv s owner
      ∧ Accounts s retained copied (as.countP Action.constructs) (as.countP Action.shares) := by
  refine run_history (I := fun as s => ∃ owner retained copied, Inv s owner
    ∧ Accounts s retained copied (as.countP Action.constructs) (as.countP Action.shares))
    ⟨_, _, _, start_inv, start_accounts⟩ ?_ hrun
  rintro as s a s' ⟨owner, retained, copied, hinv, h⟩ hstep
  obtain ⟨owner', hinv'⟩ := step_inv hcard hinv hstep
  cases a with
  | advance t =>
      obtain ⟨retained', copied', h'⟩ := advance_accounts hinv h hstep
      exact ⟨owner', retained', copied', hinv', by simpa [Action.constructs, Action.shares,
        Action.op] using h'⟩
  | call t c =>
      simp only [System.step] at hstep
      split at hstep
      · rename_i hidle
        rw [Option.ite_none_right_eq_some] at hstep
        refine ⟨owner', retained, copied, hinv', ?_⟩
        rw [List.countP_append, List.countP_append, List.countP_singleton, List.countP_singleton]
        exact begin_accounts h hidle hstep.1 hstep.2
      · exact absurd hstep (by simp)

omit [DecidableEq τ] in
/-- A thread within a split still has the reference it is about to give up. -/
theorem Inv.splitters_le_count (h : Inv s owner) (b : ℕ) :
    splitters s.threads b ≤ s.count b := by
  have htokens : splitters s.threads b ≤ tokens s.threads owner b := by
    refine Nat.le_trans ?_ (Nat.le_add_right _ _)
    refine occurrences_le (fun t i => i ∈ (s.threads t).uses) (fun t ht => ?_) h.excl
    cases hfr : s.threads t with
    | release c k =>
        cases k with
        | switch i d f =>
            rw [hfr] at ht
            obtain rfl : c = b := Option.some.inj ht
            exact ⟨i, by simp [Frame.uses, After.uses], h.release_owner hfr⟩
        | _ => rw [hfr] at ht; exact absurd ht (by simp [Frame.splitting])
    | _ => rw [hfr] at ht; exact absurd ht (by simp [Frame.splitting])
  rcases Nat.eq_zero_or_pos (tokens s.threads owner b) with hnone | hsome
  · omega
  · obtain ⟨x, c, hblock, hc, -⟩ := h.live hsome
    rw [System.count, hblock]
    exact htokens.trans (Nat.le_of_eq hc.symm)

/-- **A race at most doubles the copies.** Whatever threads on fewer than `2 ^ 32` distinct handles
do, in every interleaving of their steps: beside the blocks that are constructed, at most two are
made for each copy construction and each copy assignment that was called. -/
theorem races_at_most_double [DecidableEq ι] (hcard : Fintype.card ι < 2 ^ 32)
    (as : List (Action τ ι T)) (s : System τ ι T)
    (hrun : run System.step System.start as = some s) :
    s.next ≤ as.countP Action.constructs + 2 * as.countP Action.shares := by
  obtain ⟨owner, retained, copied, hinv, h⟩ := run_accounts hcard hrun
  have htwice : ∀ b, copied.count b ≤ (retained ++ retained).count b := by
    intro b
    rw [List.count_append]
    by_cases hb : b ∈ copied
    · have hcounts := h.counts b
      have hleft := hinv.splitters_le_count b
      have hshared := List.count_pos_iff.mpr (h.shared b hb)
      omega
    · rw [List.count_eq_zero.mpr hb]
      exact Nat.zero_le _
  have hlength := (List.subperm_ext_iff.mpr fun b _ => htwice b).length_le
  have hmade := h.made
  have hasked := h.asked
  rw [List.length_append] at hlength
  omega

/-- Two threads find the block of their handles shared, and both copy it. -/
def racingSplits (t u : τ) (i j : ι) : List (Action τ ι ℕ) :=
  [.call t (.construct i 5), .call t (.copyConstruct j i), .advance t, .advance t,
    .call t (.mutate i (· + 1)), .call u (.mutate j (· + 2)), .advance t, .advance u, .advance t,
    .advance u, .advance t, .advance t, .advance u]

/-- Such a race costs all that the bound allows. -/
theorem races_at_most_double_reached :
    ∃ s : System (Fin 2) (Fin 2) ℕ,
      run System.step System.start (racingSplits 0 1 0 1) = some s
      ∧ s.next ≤ 1 + 2 * 1 ∧ s.next = 3 := by
  obtain ⟨s, hrun⟩ : ∃ s : System (Fin 2) (Fin 2) ℕ,
      run System.step System.start (racingSplits 0 1 0 1) = some s := ⟨_, rfl⟩
  refine ⟨s, hrun, races_at_most_double (by decide) _ s hrun, ?_⟩
  cases hrun
  rfl

end Invariant

end NPFoundation.CopyOnWrite.Threads
