import NPFoundation.CopyOnWrite.Values

/-!
# What the sharing saves

Private copies cost one copy of the element for every handle that is copied, when it is
copied. Copy on write puts that copy off to the first mutation and often saves it. It
never costs a copy more: the handles and the deletions together are paid for by what was
constructed and what was shared, and every block that was made is deleted or has a handle.

The copies are counted where they are made, in the world of the element.
-/

namespace NPFoundation.CopyOnWrite

open Transition Tally Store

variable {ι W T : Type}

/-- `E`, and beside its world how many elements it copied and how many it destroyed. -/
def Element.counted (E : Element W T) : Element (W × ℕ × ℕ) T where
  copy w x := (((E.copy w.1 x).1, w.2.1 + 1, w.2.2), (E.copy w.1 x).2)
  destroy w x := (E.destroy w.1 x, w.2.1, w.2.2 + 1)

/-- The operations that bring an element along. -/
def Op.constructs : Op ι T → Bool
  | .construct _ _ => true
  | _ => false

/-- The operations for which private copies would copy an element. -/
def Op.shares : Op ι T → Bool
  | .copyConstruct _ _ => true
  | .copyAssign _ _ => true
  | _ => false

namespace Program

variable (p : Program ι (W × ℕ × ℕ) T)

def copied : ℕ := p.store.world.2.1

def destroyed : ℕ := p.store.world.2.2

/-- How many blocks are there. -/
def live : ℕ := ((Finset.range p.store.next).filter fun b => (p.store.blocks b).isSome).card

end Program

/-- Whether a handle has a block. -/
def blocksOf : Option Pointer → ℕ
  | some (some _) => 1
  | _ => 0

@[simp] theorem blocksOf_none : blocksOf none = 0 := rfl
@[simp] theorem blocksOf_null : blocksOf (some none) = 0 := rfl
@[simp] theorem blocksOf_some (b : ℕ) : blocksOf (some (some b)) = 1 := rfl

/-- How many handles have a block. -/
def holding [Fintype ι] (handles : ι → Option Pointer) : ℕ := total blocksOf handles

/-! ## The store -/

section Functions

variable {E : Element W T} {s s' : Store (W × ℕ × ℕ) T} {b : ℕ} {this : Pointer}

/-- The element of a block is destroyed with it, once. -/
structure Released (s s' : Store (W × ℕ × ℕ) T) (most : ℕ) : Prop where
  /-- No block was made. -/
  next : s'.next = s.next
  /-- No element was copied. -/
  copied : s'.world.2.1 = s.world.2.1
  /-- For each block deleted an element was destroyed. -/
  destroyed : s'.world.2.2 + s.deleted.length = s.world.2.2 + s'.deleted.length
  /-- And no more than so many. -/
  most : s'.world.2.2 ≤ s.world.2.2 + most

theorem Released.refl (s : Store (W × ℕ × ℕ) T) (most : ℕ) : Released s s most :=
  ⟨rfl, rfl, rfl, Nat.le_add_right _ _⟩

theorem retain_released (h : s.retain b = some s') : Released s s' 0 := by
  simp only [retain] at h
  split at h
  · exact absurd h (by simp)
  · obtain rfl := Option.some.inj h
    exact ⟨rfl, rfl, rfl, Nat.le_refl _⟩

theorem release_released (h : s.release E.counted b = some s') : Released s s' 1 := by
  simp only [release] at h
  split at h
  · exact absurd h (by simp)
  · split at h
    · obtain rfl := Option.some.inj h
      refine ⟨rfl, rfl, ?_, Nat.le_refl _⟩
      simp only [Element.counted, List.length_append, List.length_singleton]
      omega
    · obtain rfl := Option.some.inj h
      exact ⟨rfl, rfl, rfl, Nat.le_succ _⟩

theorem releaseIfAny_released (h : s.releaseIfAny E.counted this = some s') :
    Released s s' (blocksOf (some this)) := by
  cases this with
  | none =>
      obtain rfl := Option.some.inj h
      exact .refl s _
  | some b => exact release_released h

theorem Released.trans {s₁ : Store (W × ℕ × ℕ) T} {m n : ℕ} (h : Released s s₁ m)
    (h' : Released s₁ s' n) : Released s s' (m + n) where
  next := h'.next.trans h.next
  copied := h'.copied.trans h.copied
  destroyed := by
    have hfirst := h.destroyed
    have hsecond := h'.destroyed
    omega
  most := by
    have hfirst := h.most
    have hsecond := h'.most
    omega

/-- A split makes a block for a copy, and deletes nothing. -/
theorem unique_released {n : ℕ → ℕ} {b' : ℕ} (hs : Counted s n) (hb : 0 < n b)
    (h : s.unique E.counted (some b) = some (s', b')) :
    Released s s' 0 ∨ (s'.next = s.next + 1 ∧ s'.world.2.1 = s.world.2.1 + 1
      ∧ s'.world.2.2 = s.world.2.2 ∧ s'.deleted.length = s.deleted.length) := by
  obtain ⟨s₁, b₁, hspec, hcases⟩ := unique_spec E.counted hs hb
  obtain ⟨rfl, rfl⟩ := Prod.mk.inj (Option.some.inj (h.symm.trans hspec))
  rcases hcases with ⟨-, rfl, rfl⟩ | ⟨-, -, -, hnext, hdeleted, -, x, -, -, hworld⟩
  · exact .inl (.refl _ 0)
  · exact .inr ⟨hnext, by rw [hworld]; rfl, by rw [hworld]; rfl, congrArg List.length hdeleted⟩

end Functions

/-! ## One operation -/

variable [DecidableEq ι] [Fintype ι]

/-- What an operation or a program makes and destroys, when it constructs so many handles and
shares so many. -/
structure Paid (p p' : Program ι (W × ℕ × ℕ) T) (constructs shares : ℕ) : Prop where
  /-- Blocks are made for what is constructed and for what is copied. -/
  made : p'.store.next + p.copied = p.store.next + p'.copied + constructs
  /-- Elements are destroyed with their blocks. -/
  logged : p'.destroyed + p.store.deleted.length = p.destroyed + p'.store.deleted.length
  /-- A handle that is gone without a deletion is credit. -/
  credit : holding p'.handles + p'.destroyed
    ≤ holding p.handles + p.destroyed + constructs + shares

variable {E : Element W T} {p p' : Program ι (W × ℕ × ℕ) T} {v v' : ι → Variable T}

omit [DecidableEq ι] in
theorem Paid.trans {p₁ : Program ι (W × ℕ × ℕ) T} {c c' n n' : ℕ} (h : Paid p p₁ c n)
    (h' : Paid p₁ p' c' n') : Paid p p' (c + c') (n + n') where
  made := by
    have hfirst := h.made
    have hsecond := h'.made
    omega
  logged := by
    have hfirst := h.logged
    have hsecond := h'.logged
    omega
  credit := by
    have hfirst := h.credit
    have hsecond := h'.credit
    omega

/-- One handle exchanged for another. -/
theorem holding_update (handles : ι → Option Pointer) (i : ι) (h : Option Pointer) :
    holding (Function.update handles i h) + blocksOf (handles i)
      = holding handles + blocksOf h :=
  total_update blocksOf handles i h

omit [DecidableEq ι] in
/-- An operation that makes no block pays with the handles it gives up. -/
theorem Released.paid {most shares : ℕ} (h : Released p.store p'.store most)
    (hholding : holding p'.handles + most ≤ holding p.handles + shares) :
    Paid p p' 0 shares where
  made := by
    have hnext := h.next
    have hcopied := h.copied
    simp only [Program.copied]
    omega
  logged := h.destroyed
  credit := by
    have hmost := h.most
    simp only [Program.destroyed]
    omega

omit [DecidableEq ι] in
/-- The same when only pointers are set. -/
theorem Paid.moves {handles : ι → Option Pointer} {shares : ℕ}
    (hholding : holding handles ≤ holding p.handles + shares) :
    Paid p ⟨p.store, handles⟩ 0 shares :=
  Released.paid (.refl p.store 0) hholding

/-- **One operation.** -/
theorem step_paid (hs : Simulates v p) {op : Op ι T} (h : step E.counted p op = some p') :
    Paid p p' (if op.constructs then 1 else 0) (if op.shares then 1 else 0) := by
  cases op with
  | construct i x =>
      simp only [step] at h
      split at h
      · rename_i hi
        obtain rfl := Option.some.inj h
        have hholding := holding_update p.handles i (some (p.store.construct x).2)
        simp only [hi, Store.construct, blocksOf_none, blocksOf_some] at hholding
        refine ⟨?_, rfl, ?_⟩
        · simp only [Program.copied, Store.construct, Store.newBlock, Op.constructs, if_true]
          omega
        · simp only [Program.destroyed, Store.construct, Store.newBlock, Op.constructs, if_true]
            at hholding ⊢
          omega
      · exact absurd h (by simp)
  | copyConstruct i j =>
      simp only [step] at h
      split at h
      · rename_i other hi hj
        obtain ⟨⟨s', this⟩, hcopy, rfl⟩ := Option.map_eq_some_iff.mp h
        have hholding := holding_update p.handles i (some this)
        cases other with
        | none => exact absurd hcopy (by simp [Store.copyConstruct])
        | some b =>
            obtain ⟨s₁, hretain, heq⟩ := Option.map_eq_some_iff.mp hcopy
            obtain ⟨rfl, rfl⟩ := Prod.mk.inj heq
            refine (retain_released hretain).paid ?_
            simp only [hi, blocksOf_none, blocksOf_some] at hholding
            simp only [Op.shares, if_true]
            omega
      · exact absurd h (by simp)
  | moveConstruct i j =>
      simp only [step] at h
      split at h
      · rename_i other hi hj
        obtain rfl := Option.some.inj h
        refine .moves ?_
        have hout := holding_update p.handles j (some none)
        have hin := holding_update (Function.update p.handles j (some none)) i (some other)
        have hne : i ≠ j := by
          rintro rfl
          exact absurd (hi.symm.trans hj) (by simp)
        rw [Function.update_of_ne hne, hi] at hin
        simp only [hj, blocksOf_none, blocksOf_null] at hin hout
        simp only [Store.moveConstruct]
        omega
      · exact absurd h (by simp)
  | copyAssign i j =>
      simp only [step] at h
      split at h
      · rename_i this other hi hj
        obtain ⟨⟨s', new⟩, hcopy, rfl⟩ := Option.map_eq_some_iff.mp h
        have hholding := holding_update p.handles i (some new)
        rw [hi] at hholding
        simp only [Store.copyAssign] at hcopy
        split at hcopy
        · split at hcopy
          · exact absurd hcopy (by simp)
          · rename_i b
            split at hcopy
            · exact absurd hcopy (by simp)
            · rename_i s₁ hretain
              obtain ⟨s₂, hrelease, heq⟩ := Option.map_eq_some_iff.mp hcopy
              obtain ⟨rfl, rfl⟩ := Prod.mk.inj heq
              refine ((retain_released hretain).trans (releaseIfAny_released hrelease)).paid ?_
              simp only [blocksOf_some] at hholding
              simp only [Op.shares, if_true]
              omega
        · obtain ⟨rfl, rfl⟩ := Prod.mk.inj (Option.some.inj hcopy)
          refine .moves ?_
          dsimp only
          omega
      · exact absurd h (by simp)
  | moveAssign i j =>
      simp only [step] at h
      split at h
      · rename_i this other hi hj
        split at h
        · rename_i hne
          obtain ⟨⟨s', r⟩, hmove, rfl⟩ := Option.map_eq_some_iff.mp h
          obtain ⟨s₁, hrelease, heq⟩ := Option.map_eq_some_iff.mp hmove
          obtain ⟨rfl, rfl⟩ := Prod.mk.inj heq
          refine (releaseIfAny_released hrelease).paid ?_
          have hout := holding_update p.handles j (some none)
          have hin := holding_update (Function.update p.handles j (some none)) i (some other)
          rw [Function.update_of_ne hne, hi] at hin
          simp only [hj, blocksOf_null] at hout
          dsimp only
          omega
        · obtain rfl := Option.some.inj h
          exact .moves (Nat.le_refl _)
      · exact absurd h (by simp)
  | mutate i f =>
      simp only [step] at h
      split at h
      · exact absurd h (by simp)
      · rename_i this hi
        split at h
        · exact absurd h (by simp)
        · rename_i s b hunique
          obtain ⟨x, -, rfl⟩ := Option.map_eq_some_iff.mp h
          have hholding := holding_update p.handles i (some (some b))
          cases this with
          | none => exact absurd hunique (by simp [Store.unique])
          | some c =>
              rw [hi] at hholding
              simp only [blocksOf_some] at hholding
              rcases unique_released hs.counted (handlesOn_pos hi) hunique with
                hsame | ⟨hnext, hcopied, hdestroyed, hlog⟩
              · have hstore : Released p.store (s.setElement b s.world (f x)) 0 :=
                  ⟨hsame.next, hsame.copied, hsame.destroyed, hsame.most⟩
                exact hstore.paid (by dsimp only; omega)
              · refine ⟨?_, ?_, ?_⟩
                · simp only [Program.copied, Store.setElement, Op.constructs, Bool.false_eq_true,
                    if_false]
                  omega
                · simp only [Program.destroyed, Store.setElement]
                  omega
                · simp only [Program.destroyed, Store.setElement]
                  omega
  | read i =>
      simp only [step] at h
      split at h
      · exact absurd h (by simp)
      · obtain ⟨x, -, rfl⟩ := Option.map_eq_some_iff.mp h
        exact .moves (Nat.le_refl _)
  | destruct i =>
      simp only [step] at h
      split at h
      · exact absurd h (by simp)
      · rename_i this hi
        obtain ⟨s', hrelease, rfl⟩ := Option.map_eq_some_iff.mp h
        refine (releaseIfAny_released hrelease).paid ?_
        have hholding := holding_update p.handles i none
        simp only [hi, blocksOf_none] at hholding
        dsimp only
        omega

/-! ## Whole programs -/

theorem run_paid (hcopy : ∀ w x, (E.copy w x).2 = x) {ops : List (Op ι T)} (hs : Simulates v p)
    (hmodel : run modelStep v ops = some v') (hfew : FewAlong E.counted p ops) :
    ∃ p', run (step E.counted) p ops = some p' ∧ Simulates v' p'
      ∧ Paid p p' (ops.countP Op.constructs) (ops.countP Op.shares) := by
  induction ops generalizing v p with
  | nil =>
      obtain rfl := Option.some.inj hmodel
      exact ⟨p, rfl, hs, .moves (Nat.le_refl _)⟩
  | cons op ops ih =>
      obtain ⟨v₁, hv₁, hrest⟩ := run_cons_some.mp hmodel
      obtain ⟨p₁, hp₁, hs₁⟩ :=
        step_simulates (E := E.counted) (fun w x => hcopy w.1 x) hs hv₁ hfew.1
      obtain ⟨p₂, hp₂, hs₂, hpaid⟩ := ih hs₁ hrest ((along_cons hp₁).mp hfew).2
      refine ⟨p₂, run_cons_some.mpr ⟨p₁, hp₁, hp₂⟩, hs₂, ?_⟩
      have hboth := (step_paid hs hp₁).trans hpaid
      rwa [Nat.add_comm _ (ops.countP _), Nat.add_comm _ (ops.countP _), ← List.countP_cons,
        ← List.countP_cons] at hboth

omit [DecidableEq ι] in
/-- A block that is there has a handle. -/
theorem live_le_holding (hs : Simulates v p) : p.live ≤ holding p.handles := by
  have hone : ∀ h : Option Pointer, blocksOf h = if h.join.isSome then 1 else 0 := by
    rintro (_ | _ | _) <;> rfl
  have hcard : holding p.handles
      = (Finset.univ.filter fun i => (p.handles i).join.isSome).card := by
    simp only [holding, total, hone, Finset.card_filter]
  rw [hcard]
  refine Finset.card_le_card_of_surjOn (fun i => (p.handles i).join.getD 0) fun b hb => ?_
  obtain ⟨-, hlive⟩ := Finset.mem_filter.mp (Finset.mem_coe.mp hb)
  obtain ⟨block, hblock⟩ := Option.isSome_iff_exists.mp hlive
  obtain ⟨i, hi⟩ := occurrences_pos.mp (hs.counted.live hblock).2
  exact ⟨i, Finset.mem_coe.mpr (Finset.mem_filter.mpr ⟨Finset.mem_univ i, by rw [hi]; rfl⟩),
    by simp only [hi, Option.getD_some]⟩

omit [DecidableEq ι] in
/-- What was made is there or was deleted. -/
theorem live_add_deleted (hs : Simulates v p) :
    p.live + p.store.deleted.length = p.store.next := by
  have hgone : p.store.deleted.length
      = ((Finset.range p.store.next).filter fun b => ¬ (p.store.blocks b).isSome).card := by
    rw [← List.toFinset_card_of_nodup hs.counted.nodup]
    refine congrArg Finset.card (Finset.ext fun b => ?_)
    rw [List.mem_toFinset, hs.counted.deleted, Finset.mem_filter, Finset.mem_range,
      Option.not_isSome_iff_eq_none]
  rw [hgone, Program.live, Finset.card_filter_add_card_filter_not, Finset.card_range]

/-- **Sharing never costs a copy.** When a copy of an element is equal to it and no block gets
`2 ^ 32` handles, every program the model of private copies allows runs with no more copies of
elements than it copies handles, and with one fewer for each handle beyond the first on a block.
Each element that was constructed or copied is in a live block or was destroyed, as many were
destroyed as blocks were deleted, and no block was deleted twice. -/
theorem sharing_never_costs (E : Element W T) (hcopy : ∀ w x, (E.copy w x).2 = x) (w : W)
    (ops : List (Op ι T)) (v : ι → Variable T)
    (hmodel : run modelStep (fun _ => .absent) ops = some v)
    (hfew : FewAlong E.counted (Program.start (w, 0, 0)) ops) :
    ∃ p, run (step E.counted) (Program.start (w, 0, 0)) ops = some p
      ∧ p.copied ≤ ops.countP Op.shares
      ∧ p.copied + holding p.handles ≤ ops.countP Op.shares + p.live
      ∧ ops.countP Op.constructs + p.copied = p.live + p.destroyed
      ∧ p.destroyed = p.store.deleted.length ∧ p.store.deleted.Nodup := by
  obtain ⟨p, hrun, hs, hmade, hlogged, hcredit⟩ :=
    run_paid (E := E) hcopy (start_simulates (w, 0, 0)) hmodel hfew
  have hlive := live_le_holding hs
  have hall := live_add_deleted hs
  have hstart : holding (Program.start (w, 0, 0) : Program ι (W × ℕ × ℕ) T).handles = 0 :=
    total_eq_zero.mpr fun _ => rfl
  rw [hstart] at hcredit
  simp only [Program.copied, Program.destroyed, Program.start, Store.empty, List.length_nil]
    at hmade hlogged hcredit ⊢
  exact ⟨p, hrun, by omega, by omega, by omega, by omega, hs.counted.nodup⟩

/-- Three handles share an element; one copy is made and one saved. -/
theorem sharing_never_costs_saved :
    ∃ p : Program (Fin 3) (Unit × ℕ × ℕ) ℕ,
      run (step (Element.counted ⟨fun w x => (w, x), fun w _ => w⟩)) (Program.start ((), 0, 0))
        [.construct 0 5, .copyConstruct 1 0, .copyConstruct 2 1, .mutate 1 (· + 1), .destruct 2,
          .mutate 0 (· + 2)] = some p
      ∧ p.copied ≤ 2 ∧ p.copied = 1 := by
  obtain ⟨p, hrun, hle, -⟩ := sharing_never_costs (ι := Fin 3) (W := Unit) (T := ℕ)
    ⟨fun w x => (w, x), fun w _ => w⟩ (fun _ _ => rfl) ()
    [.construct 0 5, .copyConstruct 1 0, .copyConstruct 2 1, .mutate 1 (· + 1), .destruct 2,
      .mutate 0 (· + 2)] _ rfl (fewAlong_of_card (by decide) _ _)
  refine ⟨p, hrun, hle, ?_⟩
  cases hrun
  rfl

end NPFoundation.CopyOnWrite
