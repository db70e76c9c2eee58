import NPFoundation.CopyOnWrite.ThreadsProof
import NPFoundation.CopyOnWrite.Values

/-!
# Threads see private values

Used from many threads, copy-on-write still looks as if every handle had an element of its
own. A call takes effect on those when it begins: nobody else uses its handles until it
returns, so nobody can tell. `FrameShows` says of a thread in the middle of a call how what
it has in its hands makes up for what the handles do not show yet.

What another thread does between the steps changes no element that somebody still refers
to: it only writes to a block with one reference, which is its own, and only deletes one
with none.
-/

namespace NPFoundation.CopyOnWrite.Threads

open Transition Tally

variable {τ ι T : Type}

/-- The operation of the model that a call is. -/
def Call.op : Call ι T → Op ι T
  | .construct i x => .construct i x
  | .copyConstruct i j => .copyConstruct i j
  | .moveConstruct i j => .moveConstruct i j
  | .copyAssign i j => .copyAssign i j
  | .moveAssign i j => .moveAssign i j
  | .mutate i f => .mutate i f
  | .read i => .read i
  | .destruct i => .destruct i

/-- The calls of a schedule, in the order in which they begin. -/
def Action.op : Action τ ι T → Option (Op ι T)
  | .call _ c => some c.op
  | .advance _ => none

namespace System

/-- The element of block `b`. -/
def content (s : System τ ι T) (b : ℕ) : Option T := (s.blocks b).bind (·.element)

/-- What `read()` on handle `i` finds. -/
def value (s : System τ ι T) (i : ι) : Option T := (s.handles i).join.bind s.content

end System

/-! ## What a thread shows -/

/-- A handle that nobody is using shows its variable. -/
inductive HandleShows (s : System τ ι T) : Option Pointer → Variable T → Prop where
  | absent : HandleShows s none .absent
  | movedFrom : HandleShows s (some none) .movedFrom
  | holds (b : ℕ) (x : T) (hx : s.content b = some x) : HandleShows s (some (some b)) (.holds x)

/-- What a member function will have shown once its release is done. -/
def AfterShows (s : System τ ι T) (v : ι → Variable T) : After ι T → Prop
  | .destructed i => v i = .absent
  | .assign i j c => i ≠ j ∧ (∃ x, s.content c = some x ∧ v i = .holds x)
      ∧ HandleShows s (s.handles j) (v j)
  | .moveAssign i j => i ≠ j ∧ v j = .movedFrom
      ∧ ∃ b x, s.handles j = some (some b) ∧ s.content b = some x ∧ v i = .holds x
  | .switch i c f => ∃ x, s.content c = some x ∧ v i = .holds (f x)

/-- Where a call is on its way to the values of its handles. -/
def FrameShows (s : System τ ι T) (v : ι → Variable T) : Frame ι T → Prop
  | .idle => True
  | .retain i j => ∃ b x, s.handles j = some (some b) ∧ s.content b = some x
      ∧ v i = .holds x ∧ v j = .holds x
  | .construct i j c => (∃ x, s.content c = some x ∧ v i = .holds x)
      ∧ HandleShows s (s.handles j) (v j)
  | .compare i j => ∃ b x, s.handles j = some (some b) ∧ s.content b = some x
      ∧ v i = .holds x ∧ v j = .holds x
  | .release _ k => AfterShows s v k
  | .deleteElement _ k => AfterShows s v k
  | .deleteBlock _ k => AfterShows s v k
  | .finish k => AfterShows s v k
  | .load i f => ∃ b x, s.handles i = some (some b) ∧ s.content b = some x ∧ v i = .holds (f x)
  | .copy i f => ∃ b x, s.handles i = some (some b) ∧ s.content b = some x ∧ v i = .holds (f x)
  | .mutate i f => ∃ b x, s.handles i = some (some b) ∧ s.content b = some x ∧ v i = .holds (f x)
  | .read i => ∃ b x, s.handles i = some (some b) ∧ s.content b = some x ∧ v i = .holds x

structure Shown (s : System τ ι T) (v : ι → Variable T) : Prop where
  handles : ∀ i, s.Free i → HandleShows s (s.handles i) (v i)
  frames : ∀ t, FrameShows s v (s.threads t)

variable {s s' : System τ ι T} {v v' : ι → Variable T} {owner : ι → Option ℕ} {t : τ}
  {i j : ι} {b : ℕ} {F : Frame ι T} {h : Option Pointer}

theorem HandleShows.congr {x : Variable T} (hs : HandleShows s h x)
    (hcontent : ∀ b, h = some (some b) → s'.content b = s.content b) : HandleShows s' h x := by
  cases hs with
  | absent => exact .absent
  | movedFrom => exact .movedFrom
  | holds b x hx => exact .holds b x ((hcontent b rfl).trans hx)

/-- The blocks whose elements matter to a frame: those its handles refer to, and one that is in
its hands. -/
def Frame.Refers (owner : ι → Option ℕ) (F : Frame ι T) (b : ℕ) : Prop :=
  (∃ i ∈ F.uses, owner i = some b) ∨ F.held = some b

theorem AfterShows.congr {k : After ι T} (hs : AfterShows s v k)
    (hhandles : ∀ i ∈ k.uses, s'.handles i = s.handles i) (hv : ∀ i ∈ k.uses, v' i = v i)
    (hother : ∀ i ∈ k.uses, i ≠ k.target → ∀ b, s.handles i = some (some b) →
      s'.content b = s.content b)
    (hheld : ∀ b, k.held = some b → s'.content b = s.content b) : AfterShows s' v' k := by
  cases k with
  | destructed i =>
      simp only [After.uses] at hv
      exact (hv i (by simp)).trans hs
  | assign i j c =>
      simp only [After.uses] at hhandles hv hother
      obtain ⟨hne, ⟨x, hx, hvi⟩, hj⟩ := hs
      refine ⟨hne, ⟨x, (hheld c rfl).trans hx, (hv i (by simp)).trans hvi⟩, ?_⟩
      rw [hhandles j (by simp), hv j (by simp)]
      exact hj.congr fun b hb => hother j (by simp) (Ne.symm hne) b hb
  | moveAssign i j =>
      simp only [After.uses] at hhandles hv hother
      obtain ⟨hne, hvj, b, x, hb, hx, hvi⟩ := hs
      exact ⟨hne, (hv j (by simp)).trans hvj, b, x, (hhandles j (by simp)).trans hb,
        (hother j (by simp) (Ne.symm hne) b hb).trans hx, (hv i (by simp)).trans hvi⟩
  | switch i c f =>
      simp only [After.uses] at hv
      obtain ⟨x, hx, hvi⟩ := hs
      exact ⟨x, (hheld c rfl).trans hx, (hv i (by simp)).trans hvi⟩

section Interference

variable [Fintype τ] [Fintype ι] [DecidableEq ι]

omit [DecidableEq ι] in
/-- What other threads rely on stays as it is. -/
theorem FrameShows.congr (hinv : Inv s owner) (hfr : s.threads t = F) (hs : FrameShows s v F)
    (hhandles : ∀ i ∈ F.uses, s'.handles i = s.handles i) (hv : ∀ i ∈ F.uses, v' i = v i)
    (hcontent : ∀ b, F.Refers owner b → s'.content b = s.content b) : FrameShows s' v' F := by
  have hrefers : ∀ i ∈ F.uses, F.gaveUp ≠ some i → ∀ b, s.handles i = some (some b) →
      s'.content b = s.content b := by
    intro i hi hgave b hb
    refine hcontent b (.inl ⟨i, hi, ?_⟩)
    rw [hinv.owner_eq (hfr ▸ hi) (hfr ▸ hgave), hb]
    rfl
  have hafter : ∀ k : After ι T, F.uses = k.uses → F.held = k.held →
      (F.gaveUp = none ∨ F.gaveUp = some k.target) → AfterShows s v k → AfterShows s' v' k := by
    intro k huses hheld hgave hk
    refine hk.congr (fun i hi => hhandles i (huses ▸ hi)) (fun i hi => hv i (huses ▸ hi))
      (fun i hi hne b hb => hrefers i (huses ▸ hi) ?_ b hb) fun b hb => hcontent b (.inr (hheld ▸ hb))
    rcases hgave with hgave | hgave <;> rw [hgave]
    · simp
    · simpa using Ne.symm hne
  cases F with
  | idle => trivial
  | retain i j =>
      simp only [Frame.uses] at hhandles hv hrefers
      obtain ⟨b, x, hb, hx, hvi, hvj⟩ := hs
      exact ⟨b, x, (hhandles j (by simp)).trans hb,
        (hrefers j (by simp) (by simp [Frame.gaveUp]) b hb).trans hx, (hv i (by simp)).trans hvi,
        (hv j (by simp)).trans hvj⟩
  | construct i j c =>
      simp only [Frame.uses] at hhandles hv hrefers
      obtain ⟨⟨x, hx, hvi⟩, hj⟩ := hs
      refine ⟨⟨x, (hcontent c (.inr rfl)).trans hx, (hv i (by simp)).trans hvi⟩, ?_⟩
      rw [hhandles j (by simp), hv j (by simp)]
      exact hj.congr (hrefers j (by simp) (by simp [Frame.gaveUp]))
  | compare i j =>
      simp only [Frame.uses] at hhandles hv hrefers
      obtain ⟨b, x, hb, hx, hvi, hvj⟩ := hs
      exact ⟨b, x, (hhandles j (by simp)).trans hb,
        (hrefers j (by simp) (by simp [Frame.gaveUp]) b hb).trans hx, (hv i (by simp)).trans hvi,
        (hv j (by simp)).trans hvj⟩
  | release c k => exact hafter k rfl rfl (.inl rfl) hs
  | deleteElement c k => exact hafter k rfl rfl (.inr rfl) hs
  | deleteBlock c k => exact hafter k rfl rfl (.inr rfl) hs
  | finish k => exact hafter k rfl rfl (.inr rfl) hs
  | load i f =>
      simp only [Frame.uses] at hhandles hv hrefers
      obtain ⟨b, x, hb, hx, hvi⟩ := hs
      exact ⟨b, x, (hhandles i (by simp)).trans hb,
        (hrefers i (by simp) (by simp [Frame.gaveUp]) b hb).trans hx, (hv i (by simp)).trans hvi⟩
  | copy i f =>
      simp only [Frame.uses] at hhandles hv hrefers
      obtain ⟨b, x, hb, hx, hvi⟩ := hs
      exact ⟨b, x, (hhandles i (by simp)).trans hb,
        (hrefers i (by simp) (by simp [Frame.gaveUp]) b hb).trans hx, (hv i (by simp)).trans hvi⟩
  | mutate i f =>
      simp only [Frame.uses] at hhandles hv hrefers
      obtain ⟨b, x, hb, hx, hvi⟩ := hs
      exact ⟨b, x, (hhandles i (by simp)).trans hb,
        (hrefers i (by simp) (by simp [Frame.gaveUp]) b hb).trans hx, (hv i (by simp)).trans hvi⟩
  | read i =>
      simp only [Frame.uses] at hhandles hv hrefers
      obtain ⟨b, x, hb, hx, hvi⟩ := hs
      exact ⟨b, x, (hhandles i (by simp)).trans hb,
        (hrefers i (by simp) (by simp [Frame.gaveUp]) b hb).trans hx, (hv i (by simp)).trans hvi⟩

variable [DecidableEq τ]

/-- **The step rule for values.** A step of thread `t` that touches the handles `K`, which no other
thread is using, and no element that anybody else refers to. -/
theorem Shown.step {K : List ι} (hinv : Inv s owner) (hs : Shown s v)
    (hthreads : s'.threads = Function.update s.threads t F)
    (hmine : ∀ i ∈ K, ∀ t', t' ≠ t → i ∉ (s.threads t').uses)
    (hbefore : ∀ i ∈ (s.threads t).uses, i ∈ K)
    (hhandles : ∀ i, i ∉ K → s'.handles i = s.handles i) (hv : ∀ i, i ∉ K → v' i = v i)
    (hcontent : ∀ b, (∃ i, i ∉ K ∧ owner i = some b)
      ∨ (∃ t', t' ≠ t ∧ (s.threads t').held = some b) → s'.content b = s.content b)
    (hF : FrameShows s' v' F)
    (hfree : ∀ i ∈ K, i ∉ F.uses → HandleShows s' (s'.handles i) (v' i)) : Shown s' v' where
  handles := by
    intro i hi
    have hout : i ∉ F.uses := by
      have := hi t
      rwa [hthreads, Function.update_self] at this
    by_cases hK : i ∈ K
    · exact hfree i hK hout
    · have hfree' : s.Free i := by
        intro t'
        rcases eq_or_ne t' t with rfl | hne
        · exact fun hmem => hK (hbefore i hmem)
        · have := hi t'
          rwa [hthreads, Function.update_of_ne hne] at this
      rw [hhandles i hK, hv i hK]
      refine (hs.handles i hfree').congr fun b hb => hcontent b (.inl ⟨i, hK, ?_⟩)
      rw [hinv.owner_eq_of_free hfree', hb]
      rfl
  frames := by
    intro t'
    rw [hthreads]
    rcases eq_or_ne t' t with rfl | hne
    · rwa [Function.update_self]
    · rw [Function.update_of_ne hne]
      have hout : ∀ i ∈ (s.threads t').uses, i ∉ K := fun i hi hK => hmine i hK t' hne hi
      refine (hs.frames t').congr hinv rfl (fun i hi => hhandles i (hout i hi))
        (fun i hi => hv i (hout i hi)) fun b hb => hcontent b ?_
      rcases hb with ⟨i, hi, hib⟩ | hheld
      · exact .inl ⟨i, hout i hi, hib⟩
      · exact .inr ⟨t', hne, hheld⟩

/-- The same for a thread that goes on with a call: the variables stay. -/
theorem Shown.advance (hinv : Inv s owner) (hs : Shown s v)
    (hthreads : s'.threads = Function.update s.threads t F)
    (hhandles : ∀ i, i ∉ (s.threads t).uses → s'.handles i = s.handles i)
    (hcontent : ∀ b, (∃ i, i ∉ (s.threads t).uses ∧ owner i = some b)
      ∨ (∃ t', t' ≠ t ∧ (s.threads t').held = some b) → s'.content b = s.content b)
    (hF : FrameShows s' v F)
    (hfree : ∀ i ∈ (s.threads t).uses, i ∉ F.uses → HandleShows s' (s'.handles i) (v i)) :
    Shown s' v :=
  hs.step hinv hthreads (fun i hi t' hne hi' => hne (hinv.excl t' t i hi' hi)) (fun _ hi => hi)
    hhandles (fun _ _ => rfl) hcontent hF hfree

/-! ## Elements -/

omit [Fintype τ] [Fintype ι] [DecidableEq ι] in
@[simp] theorem content_goto (t : τ) (F : Frame ι T) (b : ℕ) :
    (s.goto t F).content b = s.content b := rfl

omit [Fintype τ] [Fintype ι] [DecidableEq τ] in
@[simp] theorem content_setHandle (i : ι) (h : Option Pointer) (b : ℕ) :
    (s.setHandle i h).content b = s.content b := rfl

omit [Fintype τ] [Fintype ι] [DecidableEq ι] [DecidableEq τ] in
theorem content_setBlock (b c : ℕ) (block : Option (SharedBlock T)) :
    (s.setBlock b block).content c = if c = b then block.bind (·.element) else s.content c := by
  by_cases hcb : c = b
  · subst hcb
    simp [System.content, System.setBlock]
  · simp [System.content, System.setBlock, hcb]

omit [Fintype τ] [Fintype ι] [DecidableEq ι] [DecidableEq τ] in
/-- A count changes, the element stays. -/
theorem content_recount {block : SharedBlock T} (hb : s.blocks b = some block) (count : UInt32)
    (c : ℕ) :
    (s.setBlock b (some { block with retainCount := count })).content c = s.content c := by
  rw [content_setBlock]
  split
  · rename_i hcb
    subst hcb
    simp [System.content, hb]
  · rfl

omit [Fintype τ] [Fintype ι] [DecidableEq ι] [DecidableEq τ] in
theorem content_newBlock (x : T) (c : ℕ) :
    (s.newBlock x).content c = if c = s.next then some x else s.content c :=
  content_setBlock s.next c (some ⟨some x, 1⟩)

omit [Fintype τ] [Fintype ι] [DecidableEq ι] [DecidableEq τ] in
theorem block_of_content {x : T} (hx : s.content b = some x) :
    ∃ c, s.blocks b = some ⟨some x, c⟩ := by
  obtain ⟨⟨element, c⟩, hblock, rfl⟩ := Option.bind_eq_some_iff.mp hx
  exact ⟨c, hblock⟩

omit [DecidableEq τ] [DecidableEq ι] in
theorem tokens_pos (hb : (∃ i, owner i = some b) ∨ ∃ t, (s.threads t).held = some b) :
    0 < tokens s.threads owner b := by
  rcases hb with ⟨i, hi⟩ | ⟨t, ht⟩
  · exact tokens_pos_of_owner s.threads hi
  · exact Nat.lt_of_lt_of_le (occurrences_pos.mpr ⟨t, ht⟩) (Nat.le_add_left _ _)

omit [DecidableEq τ] [DecidableEq ι] in
/-- The same when the reference is somebody else's. -/
theorem tokens_pos_of_rest {K : List ι} (hb : (∃ i, i ∉ K ∧ owner i = some b)
    ∨ ∃ t', t' ≠ t ∧ (s.threads t').held = some b) : 0 < tokens s.threads owner b := by
  rcases hb with ⟨i, -, hi⟩ | ⟨t', -, ht'⟩
  · exact tokens_pos (.inl ⟨i, hi⟩)
  · exact tokens_pos (.inr ⟨t', ht'⟩)

omit [DecidableEq τ] [DecidableEq ι] in
/-- What a member function will have shown is not affected by blocks nobody refers to. -/
theorem AfterShows.unaffected {k : After ι T} (hinv : Inv s owner) (hk : AfterShows s v k)
    (huses : k.uses ⊆ (s.threads t).uses) (hheld : k.held = (s.threads t).held)
    (hgave : ∀ i, (s.threads t).gaveUp = some i → i = k.target)
    (hhandles : s'.handles = s.handles)
    (hcontent : ∀ b, 0 < tokens s.threads owner b → s'.content b = s.content b) :
    AfterShows s' v k := by
  refine hk.congr (fun i _ => by rw [hhandles]) (fun _ _ => rfl) (fun i hi hne b hb => ?_)
    fun b hb => ?_
  · refine hcontent b (tokens_pos (.inl ⟨i, ?_⟩))
    rw [hinv.owner_eq (huses hi) fun hg => hne (hgave i hg), hb]
    rfl
  · exact hcontent b (tokens_pos (.inr ⟨t, hheld ▸ hb⟩))

/-! ## A call goes on -/

omit [DecidableEq τ] [DecidableEq ι] in
/-- Nobody refers to a block whose element is about to be deleted. -/
theorem Inv.no_tokens_of_deletesElement {k : After ι T} (hinv : Inv s owner)
    (hfr : s.threads t = .deleteElement b k) : tokens s.threads owner b = 0 := by
  have hpos : 0 < (deleters s.threads b).1 := occurrences_pos.mpr ⟨t, by rw [hfr]; rfl⟩
  by_contra htokens
  obtain ⟨-, -, -, -, hnone, -⟩ := (hinv.books b).of_pos (Nat.pos_of_ne_zero htokens)
  omega

omit [DecidableEq τ] [DecidableEq ι] in
theorem Inv.no_tokens_of_deletesBlock {k : After ι T} (hinv : Inv s owner)
    (hfr : s.threads t = .deleteBlock b k) : tokens s.threads owner b = 0 := by
  have hpos : 0 < (deleters s.threads b).2 := occurrences_pos.mpr ⟨t, by rw [hfr]; rfl⟩
  by_contra htokens
  obtain ⟨-, -, -, -, -, hnone⟩ := (hinv.books b).of_pos (Nat.pos_of_ne_zero htokens)
  omega

theorem shown_retain (hinv : Inv s owner) (hs : Shown s v)
    (hfr : s.threads t = .retain i j) (hadvance : s.advance t = some s') : Shown s' v := by
  have hframe := hs.frames t
  unfold System.advance at hadvance
  rw [hfr] at hadvance hframe
  obtain ⟨b, x, hb, hx, hvi, hvj⟩ := hframe
  obtain ⟨c, hblock⟩ := block_of_content hx
  simp only [hb, Option.join_some, System.fetchAdd, hblock, Option.map_some,
    Option.some.injEq] at hadvance
  subst hadvance
  have hsame : ∀ b', (s.setBlock b (some ⟨some x, c + 1⟩)).content b' = s.content b' :=
    content_recount hblock (c + 1)
  refine hs.advance (F := .construct i j b) hinv rfl (fun _ _ => rfl) (fun b' _ => hsame b')
    ⟨⟨x, (hsame b).trans hx, hvi⟩, ?_⟩ (by simp [hfr, Frame.uses])
  change HandleShows _ (s.handles j) (v j)
  rw [hb, hvj]
  exact .holds b x ((hsame b).trans hx)

theorem shown_construct {c : ℕ} (hinv : Inv s owner) (hs : Shown s v)
    (hfr : s.threads t = .construct i j c) (hadvance : s.advance t = some s') : Shown s' v := by
  have hframe := hs.frames t
  unfold System.advance at hadvance
  rw [hfr] at hadvance hframe
  obtain ⟨⟨x, hx, hvi⟩, hj⟩ := hframe
  obtain rfl := Option.some.inj hadvance
  refine hs.advance (F := .idle) hinv rfl (fun k hk => ?_) (fun b' _ => rfl) trivial
    fun k hk _ => ?_
  · have hki : k ≠ i := fun hki => hk (by simp [hfr, Frame.uses, hki])
    simp [System.goto, System.setHandle, hki]
  · by_cases hki : k = i
    · subst hki
      simp only [System.goto, System.setHandle, Function.update_self, hvi]
      exact .holds c x hx
    · have hkj : k = j := by
        simpa [hfr, Frame.uses, hki] using hk
      subst hkj
      simp only [System.goto, System.setHandle, ne_eq, hki, not_false_eq_true,
        Function.update_of_ne]
      exact hj.congr fun _ _ => rfl

theorem shown_compare (hinv : Inv s owner) (hs : Shown s v)
    (hfr : s.threads t = .compare i j) (hadvance : s.advance t = some s') : Shown s' v := by
  have hframe := hs.frames t
  unfold System.advance at hadvance
  rw [hfr] at hadvance hframe
  obtain ⟨b, x, hb, hx, hvi, hvj⟩ := hframe
  obtain ⟨c, hblock⟩ := block_of_content hx
  obtain ⟨⟨this, hthis⟩, -⟩ := hinv.frame hfr
  simp only [hb, hthis] at hadvance
  split at hadvance
  · -- the two handles are on different blocks, so they are different handles
    rename_i hne
    have hij : i ≠ j := by
      rintro rfl
      exact hne (Option.some.inj (hthis.symm.trans hb))
    simp only [System.fetchAdd, hblock, Option.map_some, Option.some.injEq] at hadvance
    have hsame : ∀ b', (s.setBlock b (some ⟨some x, c + 1⟩)).content b' = s.content b' :=
      content_recount hblock (c + 1)
    have hafter : ∀ F, AfterShows ((s.setBlock b (some ⟨some x, c + 1⟩)).goto t F) v
        (.assign i j b) := by
      intro F
      refine ⟨hij, ⟨x, (hsame b).trans hx, hvi⟩, ?_⟩
      change HandleShows _ (s.handles j) (v j)
      rw [hb, hvj]
      exact .holds b x ((hsame b).trans hx)
    cases this with
    | none =>
        subst hadvance
        exact hs.advance (F := .finish (.assign i j b)) hinv rfl (fun _ _ => rfl)
          (fun b' _ => hsame b') (hafter _) (by simp [hfr, Frame.uses, After.uses])
    | some c' =>
        subst hadvance
        exact hs.advance (F := .release c' (.assign i j b)) hinv rfl (fun _ _ => rfl)
          (fun b' _ => hsame b') (hafter _) (by simp [hfr, Frame.uses, After.uses])
  · rename_i heq
    obtain rfl := Option.some.inj hadvance
    rw [ne_eq, not_not] at heq
    subst heq
    refine hs.advance (F := .idle) hinv rfl (fun _ _ => rfl) (fun _ _ => rfl) trivial
      fun k hk _ => ?_
    change HandleShows _ (s.handles k) (v k)
    have hki : k = i ∨ k = j := by simpa [hfr, Frame.uses] using hk
    rcases hki with rfl | rfl
    · rw [hthis, hvi]
      exact .holds b x hx
    · rw [hb, hvj]
      exact .holds b x hx

theorem shown_release {k : After ι T} (hinv : Inv s owner) (hs : Shown s v)
    (hfr : s.threads t = .release b k) (hadvance : s.advance t = some s') : Shown s' v := by
  have hframe := hs.frames t
  unfold System.advance at hadvance
  simp only [hfr] at hadvance hframe
  split at hadvance
  · exact absurd hadvance (by simp)
  · rename_i block hblock
    have hsame := content_recount hblock (block.retainCount - 1)
    have hafter : ∀ F, AfterShows ((s.setBlock b (some { block with
        retainCount := block.retainCount - 1 })).goto t F) v k := fun F =>
      AfterShows.unaffected (t := t) hinv hframe (by simp [hfr, Frame.uses])
        (by rw [hfr]; rfl) (by simp [hfr, Frame.gaveUp]) rfl fun b' _ => hsame b'
    split at hadvance
    · obtain rfl := Option.some.inj hadvance
      exact hs.advance (F := .deleteElement b k) hinv rfl (fun _ _ => rfl)
        (fun b' _ => hsame b') (hafter _)
        (fun i hi hnot => absurd (by simpa [hfr, Frame.uses] using hi) hnot)
    · obtain rfl := Option.some.inj hadvance
      exact hs.advance (F := .finish k) hinv rfl (fun _ _ => rfl)
        (fun b' _ => hsame b') (hafter _)
        (fun i hi hnot => absurd (by simpa [hfr, Frame.uses] using hi) hnot)

theorem shown_deleteElement {k : After ι T} (hinv : Inv s owner) (hs : Shown s v)
    (hfr : s.threads t = .deleteElement b k) (hadvance : s.advance t = some s') : Shown s' v := by
  have hframe := hs.frames t
  unfold System.advance at hadvance
  simp only [hfr] at hadvance hframe
  split at hadvance
  · rename_i x c hblock
    obtain rfl := Option.some.inj hadvance
    have hdead := hinv.no_tokens_of_deletesElement hfr
    have hsame : ∀ b', 0 < tokens s.threads owner b' →
        (s.setBlock b (some ⟨none, c⟩)).content b' = s.content b' := by
      intro b' hpos
      rw [content_setBlock, if_neg (by rintro rfl; omega)]
    exact hs.advance (F := .deleteBlock b k) hinv rfl (fun _ _ => rfl)
      (fun b' hb' => hsame b' (tokens_pos_of_rest hb'))
      (AfterShows.unaffected (t := t) hinv hframe (by simp [hfr, Frame.uses])
        (by rw [hfr]; rfl) (by simp [hfr, Frame.gaveUp, eq_comm]) rfl hsame)
      (fun i hi hnot => absurd (by simpa [hfr, Frame.uses] using hi) hnot)
  · exact absurd hadvance (by simp)

theorem shown_deleteBlock {k : After ι T} (hinv : Inv s owner) (hs : Shown s v)
    (hfr : s.threads t = .deleteBlock b k) (hadvance : s.advance t = some s') : Shown s' v := by
  have hframe := hs.frames t
  unfold System.advance at hadvance
  simp only [hfr] at hadvance hframe
  split at hadvance
  · rename_i block hblock
    obtain rfl := Option.some.inj hadvance
    have hdead := hinv.no_tokens_of_deletesBlock hfr
    have hsame : ∀ b', 0 < tokens s.threads owner b' →
        (s.setBlock b none).content b' = s.content b' := by
      intro b' hpos
      rw [content_setBlock, if_neg (by rintro rfl; omega)]
    exact hs.advance (F := .finish k) hinv rfl (fun _ _ => rfl)
      (fun b' hb' => hsame b' (tokens_pos_of_rest hb'))
      (AfterShows.unaffected (t := t) hinv hframe (by simp [hfr, Frame.uses])
        (by rw [hfr]; rfl) (by simp [hfr, Frame.gaveUp, eq_comm]) rfl hsame)
      (fun i hi hnot => absurd (by simpa [hfr, Frame.uses] using hi) hnot)
  · exact absurd hadvance (by simp)

theorem shown_finish {k : After ι T} (hinv : Inv s owner) (hs : Shown s v)
    (hfr : s.threads t = .finish k) (hadvance : s.advance t = some s') : Shown s' v := by
  have hframe := hs.frames t
  unfold System.advance at hadvance
  simp only [hfr] at hadvance hframe
  cases k with
  | destructed i =>
      obtain rfl := Option.some.inj hadvance
      refine hs.advance (F := .idle) hinv rfl (fun k hk => ?_) (fun _ _ => rfl) trivial
        fun k hk _ => ?_
      · have hki : k ≠ i := fun hki => hk (by simp [hfr, Frame.uses, After.uses, hki])
        simp [System.goto, System.setHandle, hki]
      · obtain rfl : k = i := by simpa [hfr, Frame.uses, After.uses] using hk
        have hvk : v k = .absent := hframe
        simp only [System.goto, System.setHandle, Function.update_self, hvk]
        exact .absent
  | assign i j c =>
      obtain ⟨hne, ⟨x, hx, hvi⟩, hj⟩ := hframe
      obtain rfl := Option.some.inj hadvance
      refine hs.advance (F := .idle) hinv rfl (fun k hk => ?_) (fun _ _ => rfl) trivial
        fun k hk _ => ?_
      · have hki : k ≠ i := fun hki => hk (by simp [hfr, Frame.uses, After.uses, hki])
        simp [System.goto, System.setHandle, hki]
      · by_cases hki : k = i
        · subst hki
          simp only [System.goto, System.setHandle, Function.update_self, hvi]
          exact .holds c x hx
        · obtain rfl : k = j := by simpa [hfr, Frame.uses, After.uses, hki] using hk
          simp only [System.goto, System.setHandle, ne_eq, hki, not_false_eq_true,
            Function.update_of_ne]
          exact hj.congr fun _ _ => rfl
  | moveAssign i j =>
      obtain ⟨hne, hvj, b, x, hb, hx, hvi⟩ := hframe
      simp only [System.resume, hb, Option.some.injEq] at hadvance
      subst hadvance
      refine hs.advance (F := .idle) hinv rfl (fun k hk => ?_) (fun _ _ => rfl) trivial
        fun k hk _ => ?_
      · have hki : k ≠ i := fun hki => hk (by simp [hfr, Frame.uses, After.uses, hki])
        have hkj : k ≠ j := fun hkj => hk (by simp [hfr, Frame.uses, After.uses, hkj])
        simp [System.goto, System.setHandle, hki, hkj]
      · by_cases hki : k = i
        · subst hki
          simp only [System.goto, System.setHandle, Function.update_self, hvi]
          exact .holds b x hx
        · obtain rfl : k = j := by simpa [hfr, Frame.uses, After.uses, hki] using hk
          simp only [System.goto, System.setHandle, ne_eq, hki, not_false_eq_true,
            Function.update_of_ne, Function.update_self, hvj]
          exact .movedFrom
  | switch i c f =>
      obtain ⟨x, hx, hvi⟩ := hframe
      obtain rfl := Option.some.inj hadvance
      refine hs.advance (F := .mutate i f) hinv rfl (fun k hk => ?_) (fun _ _ => rfl)
        ⟨c, x, by simp [System.goto, System.setHandle], hx, hvi⟩
        (by simp [hfr, Frame.uses, After.uses])
      have hki : k ≠ i := fun hki => hk (by simp [hfr, Frame.uses, After.uses, hki])
      simp [System.goto, System.setHandle, hki]

theorem shown_load {f : T → T} (hinv : Inv s owner) (hs : Shown s v)
    (hfr : s.threads t = .load i f) (hadvance : s.advance t = some s') : Shown s' v := by
  have hframe := hs.frames t
  unfold System.advance at hadvance
  simp only [hfr] at hadvance hframe
  split at hadvance
  · exact absurd hadvance (by simp)
  · split at hadvance
    · obtain rfl := Option.some.inj hadvance
      exact hs.advance (F := .copy i f) hinv rfl (fun _ _ => rfl) (fun _ _ => rfl) hframe
        (by simp [hfr, Frame.uses])
    · obtain rfl := Option.some.inj hadvance
      exact hs.advance (F := .mutate i f) hinv rfl (fun _ _ => rfl) (fun _ _ => rfl) hframe
        (by simp [hfr, Frame.uses])

theorem shown_copy {f : T → T} (hinv : Inv s owner) (hs : Shown s v)
    (hfr : s.threads t = .copy i f) (hadvance : s.advance t = some s') : Shown s' v := by
  have hframe := hs.frames t
  unfold System.advance at hadvance
  rw [hfr] at hframe
  obtain ⟨b, x, hb, hx, hvi⟩ := hframe
  obtain ⟨c, hblock⟩ := block_of_content hx
  simp only [hfr, System.pointee, hb, Option.join_some, Option.bind_some, hblock,
    Option.map_some, Option.some.injEq] at hadvance
  subst hadvance
  refine hs.advance (F := .release b (.switch i s.next f)) hinv rfl (fun _ _ => rfl)
    (fun b' hb' => ?_) ⟨x, ?_, hvi⟩ (by simp [hfr, Frame.uses, After.uses])
  · -- a block somebody refers to has its number already
    obtain ⟨-, -, -, -, hlt⟩ := hinv.live (tokens_pos_of_rest hb')
    rw [content_goto, content_newBlock, if_neg (by omega)]
  · rw [content_goto, content_newBlock, if_pos rfl]

theorem shown_mutate {f : T → T} (hinv : Inv s owner) (hs : Shown s v)
    (hfr : s.threads t = .mutate i f) (hadvance : s.advance t = some s') : Shown s' v := by
  have hframe := hs.frames t
  unfold System.advance at hadvance
  rw [hfr] at hframe
  obtain ⟨b, x, hb, hx, hvi⟩ := hframe
  obtain ⟨c, hblock⟩ := block_of_content hx
  simp only [hfr, System.pointee, hb, Option.join_some, Option.bind_some, hblock,
    Option.map_some, Option.some.injEq] at hadvance
  subst hadvance
  obtain ⟨b₀, hb₀, hone⟩ := hinv.frame hfr
  obtain rfl : b₀ = b := Option.some.inj (Option.some.inj (hb₀.symm.trans hb))
  have hmine : i ∈ (s.threads t).uses := by simp [hfr, Frame.uses]
  have howner : owner i = some b₀ := by
    rw [hinv.owner_eq hmine (by simp [hfr, Frame.gaveUp]), hb]
    rfl
  obtain ⟨honly, hnone⟩ := only_owner hone howner
  refine hs.advance (F := .idle) hinv rfl (fun _ _ => rfl) (fun b' hb' => ?_) trivial
    fun k hk _ => ?_
  · -- the one reference to the block written to is this handle's
    rw [content_goto, content_setBlock, if_neg]
    rintro rfl
    rcases hb' with ⟨k, hk, hkb⟩ | ⟨t', -, ht'⟩
    · exact hk (honly k hkb ▸ hmine)
    · exact hnone t' ht'
  · obtain rfl : k = i := by simpa [hfr, Frame.uses] using hk
    change HandleShows _ (s.handles k) (v k)
    rw [hb, hvi]
    exact .holds b₀ (f x) (by rw [content_goto, content_setBlock, if_pos rfl]; rfl)

theorem shown_read (hinv : Inv s owner) (hs : Shown s v)
    (hfr : s.threads t = .read i) (hadvance : s.advance t = some s') : Shown s' v := by
  have hframe := hs.frames t
  unfold System.advance at hadvance
  rw [hfr] at hframe
  obtain ⟨b, x, hb, hx, hvi⟩ := hframe
  obtain ⟨c, hblock⟩ := block_of_content hx
  simp only [hfr, System.pointee, hb, Option.join_some, Option.bind_some, hblock,
    Option.map_some, Option.some.injEq] at hadvance
  subst hadvance
  refine hs.advance (F := .idle) hinv rfl (fun _ _ => rfl) (fun _ _ => rfl) trivial
    fun k hk _ => ?_
  obtain rfl : k = i := by simpa [hfr, Frame.uses] using hk
  change HandleShows _ (s.handles k) (v k)
  rw [hb, hvi]
  exact .holds b x hx

/-- **A call goes on.** -/
theorem advance_shown (hinv : Inv s owner) (hs : Shown s v) (hadvance : s.advance t = some s') :
    Shown s' v := by
  cases hfr : s.threads t with
  | idle =>
      simp only [System.advance, hfr] at hadvance
      exact absurd hadvance (by simp)
  | retain i j => exact shown_retain hinv hs hfr hadvance
  | construct i j c => exact shown_construct hinv hs hfr hadvance
  | compare i j => exact shown_compare hinv hs hfr hadvance
  | release b k => exact shown_release hinv hs hfr hadvance
  | deleteElement b k => exact shown_deleteElement hinv hs hfr hadvance
  | deleteBlock b k => exact shown_deleteBlock hinv hs hfr hadvance
  | finish k => exact shown_finish hinv hs hfr hadvance
  | load i f => exact shown_load hinv hs hfr hadvance
  | copy i f => exact shown_copy hinv hs hfr hadvance
  | mutate i f => exact shown_mutate hinv hs hfr hadvance
  | read i => exact shown_read hinv hs hfr hadvance

/-! ## A call begins -/

omit [Fintype τ] [Fintype ι] [DecidableEq ι] [DecidableEq τ] in
theorem HandleShows.of_none {x : Variable T} (hs : HandleShows s none x) : x = .absent := by
  cases hs
  rfl

omit [Fintype τ] [Fintype ι] [DecidableEq ι] [DecidableEq τ] in
theorem HandleShows.of_some {this : Pointer} {x : Variable T} (hs : HandleShows s (some this) x) :
    x ≠ .absent := by
  cases hs <;> simp

omit [Fintype τ] [Fintype ι] [DecidableEq ι] [DecidableEq τ] in
theorem HandleShows.of_block {x : Variable T} (hs : HandleShows s (some (some b)) x) :
    ∃ y, s.content b = some y ∧ x = .holds y := by
  cases hs with
  | holds _ y hy => exact ⟨y, hy, rfl⟩

/-- A call that starts at a frame: its variables change at once. -/
theorem Shown.enter {K : List ι} (hinv : Inv s owner) (hs : Shown s v)
    (hidle : s.threads t = .idle) (hfree : ∀ i ∈ K, s.Free i) (hv : ∀ i, i ∉ K → v' i = v i)
    (huses : F.uses = K) (hF : FrameShows (s.goto t F) v' F) : Shown (s.goto t F) v' :=
  hs.step (K := K) hinv rfl (fun i hi t' _ => hfree i hi t') (by simp [hidle, Frame.uses])
    (fun _ _ => rfl) hv (fun _ _ => rfl) hF fun i hi hnot => absurd (huses ▸ hi) hnot

/-- A call that is over with its first step. -/
theorem Shown.settle {K : List ι} (hinv : Inv s owner) (hs : Shown s v)
    (hidle : s.threads t = .idle) (hfree : ∀ i ∈ K, s.Free i) (hthreads : s'.threads = s.threads)
    (hhandles : ∀ i, i ∉ K → s'.handles i = s.handles i) (hv : ∀ i, i ∉ K → v' i = v i)
    (hcontent : ∀ b, 0 < tokens s.threads owner b → s'.content b = s.content b)
    (hshows : ∀ i ∈ K, HandleShows s' (s'.handles i) (v' i)) : Shown s' v' :=
  hs.step (F := .idle) (K := K) hinv (by rw [hthreads, ← hidle, Function.update_eq_self])
    (fun i hi t' _ => hfree i hi t') (by simp [hidle, Frame.uses]) hhandles hv
    (fun b hb => hcontent b (tokens_pos_of_rest hb)) trivial fun i hi _ => hshows i hi

omit [Fintype τ] [Fintype ι] [DecidableEq τ] in
/-- Other variables keep what they have. -/
theorem update_off {K : List ι} {i : ι} (hi : i ∈ K) (x : Variable T) (k : ι) (hk : k ∉ K) :
    Function.update v i x k = v k := by
  have hki : k ≠ i := by
    rintro rfl
    exact hk hi
  rw [Function.update_of_ne hki]

theorem shown_begin_construct {x : T} (hinv : Inv s owner) (hs : Shown s v) (hidle : s.threads t = .idle)
    (hfree : ∀ k ∈ [i], s.Free k) (hb : s.begin t (.construct i x) = some s') :
    ∃ v', modelStep v (.construct i x) = some v' ∧ Shown s' v' := by
  simp only [System.begin] at hb
  split at hb
  · rename_i hi
    obtain rfl := Option.some.inj hb
    have hvi := (hi ▸ hs.handles i (hfree i (by simp))).of_none
    refine ⟨_, (ModelStep.construct hvi).eq_some, hs.settle (K := [i]) hinv hidle hfree rfl
      (fun k hk => ?_) (update_off (by simp) _) (fun b hb => ?_) fun k hk => ?_⟩
    · have hki : k ≠ i := by simpa using hk
      simp [System.setHandle, System.newBlock, System.setBlock, hki]
    · -- a block somebody refers to has its number already
      obtain ⟨-, -, -, -, hlt⟩ := hinv.live hb
      rw [content_setHandle, content_newBlock, if_neg (by omega)]
    · obtain rfl : k = i := by simpa using hk
      simp only [System.setHandle, Function.update_self]
      exact .holds s.next x (by rw [← content_newBlock (s := s) x s.next |>.trans (if_pos rfl)]; rfl)
  · exact absurd hb (by simp)

theorem shown_begin_copyConstruct (hinv : Inv s owner) (hs : Shown s v) (hidle : s.threads t = .idle)
    (hfree : ∀ k ∈ [i, j], s.Free k) (hb : s.begin t (.copyConstruct i j) = some s') :
    ∃ v', modelStep v (.copyConstruct i j) = some v' ∧ Shown s' v' := by
  simp only [System.begin] at hb
  split at hb
  · rename_i b hi hj
    obtain rfl := Option.some.inj hb
    have hvi := (hi ▸ hs.handles i (hfree i (by simp))).of_none
    obtain ⟨x, hx, hvj⟩ := (hj ▸ hs.handles j (hfree j (by simp))).of_block
    have hne : j ≠ i := by
      rintro rfl
      exact absurd (hi.symm.trans hj) (by simp)
    exact ⟨_, (ModelStep.copyConstruct hvi hvj).eq_some, hs.enter (K := [i, j]) hinv hidle hfree
      (update_off (by simp) _) rfl ⟨b, x, hj, hx, by simp, by simpa [hne] using hvj⟩⟩
  · exact absurd hb (by simp)

theorem shown_begin_moveConstruct (hinv : Inv s owner) (hs : Shown s v) (hidle : s.threads t = .idle)
    (hfree : ∀ k ∈ [i, j], s.Free k) (hb : s.begin t (.moveConstruct i j) = some s') :
    ∃ v', modelStep v (.moveConstruct i j) = some v' ∧ Shown s' v' := by
  simp only [System.begin] at hb
  split at hb
  · rename_i b hi hj
    obtain rfl := Option.some.inj hb
    have hvi := (hi ▸ hs.handles i (hfree i (by simp))).of_none
    obtain ⟨x, hx, hvj⟩ := (hj ▸ hs.handles j (hfree j (by simp))).of_block
    refine ⟨_, (ModelStep.moveConstruct hvi hvj).eq_some, hs.settle (K := [i, j]) hinv hidle hfree
      rfl (fun k hk => ?_) (fun k hk => ?_) (fun _ _ => rfl) fun k hk => ?_⟩
    · have hki : k ≠ i := fun hki => hk (by simp [hki])
      have hkj : k ≠ j := fun hkj => hk (by simp [hkj])
      simp [System.setHandle, hki, hkj]
    · rw [update_off (by simp) _ k hk, update_off (by simp) _ k hk]
    · by_cases hki : k = i
      · subst hki
        simp only [System.setHandle, Function.update_self]
        exact .holds b x hx
      · obtain rfl : k = j := by simpa [hki] using hk
        simp only [System.setHandle, ne_eq, hki, not_false_eq_true, Function.update_of_ne,
          Function.update_self]
        exact .movedFrom
  · exact absurd hb (by simp)

theorem shown_begin_copyAssign (hinv : Inv s owner) (hs : Shown s v) (hidle : s.threads t = .idle)
    (hfree : ∀ k ∈ [i, j], s.Free k) (hb : s.begin t (.copyAssign i j) = some s') :
    ∃ v', modelStep v (.copyAssign i j) = some v' ∧ Shown s' v' := by
  simp only [System.begin] at hb
  split at hb
  · rename_i this b hi hj
    obtain rfl := Option.some.inj hb
    have hvi := (hi ▸ hs.handles i (hfree i (by simp))).of_some
    obtain ⟨x, hx, hvj⟩ := (hj ▸ hs.handles j (hfree j (by simp))).of_block
    refine ⟨_, (ModelStep.copyAssign hvi hvj).eq_some, hs.enter (K := [i, j]) hinv hidle hfree
      (update_off (by simp) _) rfl ⟨b, x, hj, hx, by simp, ?_⟩⟩
    by_cases hji : j = i
    · subst hji
      simp
    · simpa [hji] using hvj
  · exact absurd hb (by simp)

theorem shown_begin_moveAssign (hinv : Inv s owner) (hs : Shown s v) (hidle : s.threads t = .idle)
    (hfree : ∀ k ∈ [i, j], s.Free k) (hb : s.begin t (.moveAssign i j) = some s') :
    ∃ v', modelStep v (.moveAssign i j) = some v' ∧ Shown s' v' := by
  simp only [System.begin] at hb
  split at hb
  · rename_i this b hi hj
    have hvi := (hi ▸ hs.handles i (hfree i (by simp))).of_some
    obtain ⟨x, hx, hvj⟩ := (hj ▸ hs.handles j (hfree j (by simp))).of_block
    split at hb
    · rename_i hne
      obtain rfl := Option.some.inj hb
      have hafter : ∀ F, AfterShows (s.goto t F)
          (Function.update (Function.update v j .movedFrom) i (.holds x)) (.moveAssign i j) :=
        fun F => ⟨hne, by simp [Ne.symm hne], b, x, hj, hx, by simp⟩
      have hrest : ∀ k, k ∉ [i, j] →
          Function.update (Function.update v j .movedFrom) i (.holds x) k = v k := by
        intro k hk
        rw [update_off (by simp) _ k hk, update_off (by simp) _ k hk]
      refine ⟨_, (ModelStep.moveAssign hne hvi hvj).eq_some, ?_⟩
      cases this with
      | none =>
          exact hs.enter (F := .finish (.moveAssign i j)) (K := [i, j]) hinv hidle hfree hrest rfl
            (hafter _)
      | some b' =>
          exact hs.enter (F := .release b' (.moveAssign i j)) (K := [i, j]) hinv hidle hfree
            hrest rfl (hafter _)
    · rename_i heq
      rw [ne_eq, not_not] at heq
      subst heq
      obtain rfl := Option.some.inj hb
      exact ⟨v, (ModelStep.moveAssignSelf hvi).eq_some, hs⟩
  · exact absurd hb (by simp)

theorem shown_begin_mutate {f : T → T} (hinv : Inv s owner) (hs : Shown s v)
    (hidle : s.threads t = .idle) (hfree : ∀ k ∈ [i], s.Free k)
    (hb : s.begin t (.mutate i f) = some s') :
    ∃ v', modelStep v (.mutate i f) = some v' ∧ Shown s' v' := by
  simp only [System.begin] at hb
  split at hb
  · rename_i b hi
    obtain rfl := Option.some.inj hb
    obtain ⟨x, hx, hvi⟩ := (hi ▸ hs.handles i (hfree i (by simp))).of_block
    exact ⟨_, (ModelStep.mutate f hvi).eq_some, hs.enter (K := [i]) hinv hidle hfree
      (update_off (by simp) _) rfl ⟨b, x, hi, hx, by simp⟩⟩
  · exact absurd hb (by simp)

theorem shown_begin_read (hinv : Inv s owner) (hs : Shown s v) (hidle : s.threads t = .idle)
    (hfree : ∀ k ∈ [i], s.Free k) (hb : s.begin t (.read i) = some s') :
    ∃ v', modelStep v (.read i) = some v' ∧ Shown s' v' := by
  simp only [System.begin] at hb
  split at hb
  · rename_i b hi
    obtain rfl := Option.some.inj hb
    obtain ⟨x, hx, hvi⟩ := (hi ▸ hs.handles i (hfree i (by simp))).of_block
    exact ⟨v, (ModelStep.read hvi).eq_some, hs.enter (K := [i]) hinv hidle hfree (fun _ _ => rfl) rfl
      ⟨b, x, hi, hx, hvi⟩⟩
  · exact absurd hb (by simp)

theorem shown_begin_destruct (hinv : Inv s owner) (hs : Shown s v) (hidle : s.threads t = .idle)
    (hfree : ∀ k ∈ [i], s.Free k) (hb : s.begin t (.destruct i) = some s') :
    ∃ v', modelStep v (.destruct i) = some v' ∧ Shown s' v' := by
  simp only [System.begin] at hb
  split at hb
  · rename_i this hi
    obtain rfl := Option.some.inj hb
    have hvi := (hi ▸ hs.handles i (hfree i (by simp))).of_some
    refine ⟨_, (ModelStep.destruct hvi).eq_some, ?_⟩
    cases this with
    | none =>
        exact hs.enter (F := .finish (.destructed i)) (K := [i]) hinv hidle hfree
          (update_off (by simp) _) rfl (by simp [FrameShows, AfterShows])
    | some b' =>
        exact hs.enter (F := .release b' (.destructed i)) (K := [i]) hinv hidle hfree
          (update_off (by simp) _) rfl (by simp [FrameShows, AfterShows])
  · exact absurd hb (by simp)

/-- **A call begins.** -/
theorem begin_shown {c : Call ι T} (hinv : Inv s owner) (hs : Shown s v)
    (hidle : s.threads t = .idle) (hfree : ∀ i ∈ c.uses, s.Free i) (hb : s.begin t c = some s') :
    ∃ v', modelStep v c.op = some v' ∧ Shown s' v' := by
  cases c with
  | construct i x => exact shown_begin_construct hinv hs hidle hfree hb
  | copyConstruct i j => exact shown_begin_copyConstruct hinv hs hidle hfree hb
  | moveConstruct i j => exact shown_begin_moveConstruct hinv hs hidle hfree hb
  | copyAssign i j => exact shown_begin_copyAssign hinv hs hidle hfree hb
  | moveAssign i j => exact shown_begin_moveAssign hinv hs hidle hfree hb
  | mutate i f => exact shown_begin_mutate hinv hs hidle hfree hb
  | read i => exact shown_begin_read hinv hs hidle hfree hb
  | destruct i => exact shown_begin_destruct hinv hs hidle hfree hb

/-! ## Whole schedules -/

omit [Fintype τ] [Fintype ι] [DecidableEq ι] [DecidableEq τ] in
theorem start_shown : Shown (System.start : System τ ι T) fun _ => .absent where
  handles _ _ := .absent
  frames _ := trivial

theorem run_shown (hcard : Fintype.card ι < 2 ^ 32) {as : List (Action τ ι T)}
    (hinv : Inv s owner) (hs : Shown s v) (hrun : run System.step s as = some s') :
    ∃ v', run modelStep v (as.filterMap Action.op) = some v' ∧ Shown s' v' := by
  induction as generalizing s v owner with
  | nil =>
      obtain rfl := Option.some.inj hrun
      exact ⟨v, rfl, hs⟩
  | cons a as ih =>
      obtain ⟨s₁, hstep, hrest⟩ := run_cons_some.mp hrun
      obtain ⟨owner₁, hinv₁⟩ := step_inv hcard hinv hstep
      cases a with
      | advance t => exact ih hinv₁ (advance_shown hinv hs hstep) hrest
      | call t c =>
          simp only [System.step] at hstep
          split at hstep
          · rename_i hidle
            rw [Option.ite_none_right_eq_some] at hstep
            obtain ⟨v₁, hv₁, hs₁⟩ := begin_shown hinv hs hidle hstep.1 hstep.2
            obtain ⟨v', hv', hs'⟩ := ih hinv₁ hs₁ hrest
            exact ⟨v', run_cons_some.mpr ⟨v₁, hv₁, hv'⟩, hs'⟩
          · exact absurd hstep (by simp)

/-- **Threads see private values.** Whatever threads on fewer than `2 ^ 32` distinct handles do, in
every interleaving of their steps: the calls, in the order in which they began, are a program of
the model in which every handle has an element of its own; a handle that no call is using reads
what its variable has in that model, and exists when the variable does; and a read in progress
finds the value of its variable. -/
theorem concurrent_value_semantics (hcard : Fintype.card ι < 2 ^ 32) (as : List (Action τ ι T))
    (s : System τ ι T) (hrun : run System.step System.start as = some s) :
    ∃ v, run modelStep (fun _ => .absent) (as.filterMap Action.op) = some v
      ∧ (∀ i, s.Free i → s.value i = (v i).value ∧ (s.handles i = none ↔ v i = .absent))
      ∧ ∀ t i, s.threads t = .read i → s.value i = (v i).value := by
  obtain ⟨v, hv, hs⟩ := run_shown hcard start_inv start_shown hrun
  refine ⟨v, hv, fun i hi => ?_, fun t i hfr => ?_⟩
  · have hshows := hs.handles i hi
    unfold System.value
    generalize s.handles i = h at hshows
    generalize v i = x at hshows
    cases hshows with
    | absent => simp [Variable.value]
    | movedFrom => simp [Variable.value]
    | holds b x hx => simp [Variable.value, hx]
  · have hframe := hs.frames t
    rw [hfr] at hframe
    obtain ⟨b, x, hb, hx, hvi⟩ := hframe
    simp [System.value, hb, hx, hvi, Variable.value]

/-- Two threads write through handles that shared a block, while a third reads. -/
def sharedSchedule (t u w : τ) (i j k : ι) : List (Action τ ι ℕ) :=
  [.call t (.construct i 5), .call t (.copyConstruct j i), .advance t, .advance t,
    .call w (.copyConstruct k j), .advance w, .advance w, .call t (.mutate i (· + 1)),
    .call u (.mutate j (· + 2)), .advance t, .advance u, .advance u, .advance t, .advance u,
    .advance u, .advance u, .advance t, .advance t, .advance t, .call w (.read k)]

theorem concurrent_value_semantics_shared :
    ∃ (s : System (Fin 3) (Fin 3) ℕ) (v : Fin 3 → Variable ℕ),
      run System.step System.start (sharedSchedule 0 1 2 0 1 2) = some s
      ∧ run modelStep (fun _ => .absent) ((sharedSchedule (0 : Fin 3) 1 2 0 1 2).filterMap Action.op)
        = some v
      ∧ s.value 0 = (v 0).value ∧ s.value 1 = (v 1).value ∧ s.value 2 = (v 2).value := by
  obtain ⟨s, hrun⟩ : ∃ s : System (Fin 3) (Fin 3) ℕ,
      run System.step System.start (sharedSchedule 0 1 2 0 1 2) = some s := ⟨_, rfl⟩
  have hfree : s.Free 0 ∧ s.Free 1 := by
    rw [← Option.some.inj hrun]
    decide
  have hread : s.threads 2 = .read 2 := by
    cases hrun
    rfl
  obtain ⟨v, hv, hfreeValue, hreadValue⟩ :=
    concurrent_value_semantics (by decide) _ s hrun
  exact ⟨s, v, hrun, hv, (hfreeValue 0 hfree.1).1, (hfreeValue 1 hfree.2).1, hreadValue 2 2 hread⟩

end Interference

end NPFoundation.CopyOnWrite.Threads
