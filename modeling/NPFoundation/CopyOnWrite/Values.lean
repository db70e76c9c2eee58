import NPFoundation.Lib.Run
import NPFoundation.Lib.Tally
import NPFoundation.CopyOnWrite.Counts

/-!
# Sharing that nobody can see

A program works on a family of handles. Beside it runs a model without blocks and
without sharing: every variable has a value of its own, an assignment copies it and a
mutation changes one variable. The model also says which programs are legal: what is
constructed once, used only while it exists, and not used after it was moved from other
than to assign to it or to destroy it.

`Simulates` relates the two. Its first half counts: the count of every block is the
number of handles on it, and blocks without one are deleted. Its second half is about
values, and follows because only a block with one handle is ever written to.
-/

namespace NPFoundation.CopyOnWrite

open Transition Tally Store

/-! ## The program -/

/-- What a sequential program does with its handles. -/
inductive Op (ι T : Type) where
  | construct (i : ι) (element : T)
  | copyConstruct (i other : ι)
  | moveConstruct (i other : ι)
  | copyAssign (i other : ι)
  | moveAssign (i other : ι)
  /-- `f(*handle.unique())`. -/
  | mutate (i : ι) (f : T → T)
  | read (i : ι)
  | destruct (i : ι)

/-- The store, and the handles that exist. A handle that was moved from is `some none`. -/
structure Program (ι W T : Type) where
  store : Store W T
  handles : ι → Option Pointer

variable {ι W T : Type} [DecidableEq ι]

def Program.start (w : W) : Program ι W T := ⟨.empty w, fun _ => none⟩

/-- One operation; `none` when it uses a handle that does not exist, or dereferences a null
pointer or a deleted block. -/
def step (E : Element W T) (p : Program ι W T) : Op ι T → Option (Program ι W T)
  | .construct i x =>
      match p.handles i with
      | none =>
          some ⟨(p.store.construct x).1,
            Function.update p.handles i (some (p.store.construct x).2)⟩
      | some _ => none
  | .copyConstruct i j =>
      match p.handles i, p.handles j with
      | none, some other =>
          (p.store.copyConstruct other).map fun r =>
            ⟨r.1, Function.update p.handles i (some r.2)⟩
      | _, _ => none
  | .moveConstruct i j =>
      match p.handles i, p.handles j with
      | none, some other =>
          some ⟨p.store, Function.update
            (Function.update p.handles j (some (Store.moveConstruct other).2))
            i (some (Store.moveConstruct other).1)⟩
      | _, _ => none
  | .copyAssign i j =>
      match p.handles i, p.handles j with
      | some this, some other =>
          (p.store.copyAssign E this other).map fun r =>
            ⟨r.1, Function.update p.handles i (some r.2)⟩
      | _, _ => none
  | .moveAssign i j =>
      match p.handles i, p.handles j with
      | some this, some other =>
          if i ≠ j then
            (p.store.moveAssign E this other).map fun r =>
              ⟨r.1, Function.update (Function.update p.handles j (some r.2.2)) i (some r.2.1)⟩
          else some p
      | _, _ => none
  | .mutate i f =>
      match p.handles i with
      | none => none
      | some this =>
          match p.store.unique E this with
          | none => none
          | some (s, b) =>
              (s.read (some b)).map fun x =>
                ⟨s.setElement b s.world (f x), Function.update p.handles i (some (some b))⟩
  | .read i =>
      match p.handles i with
      | none => none
      | some this => (p.store.read this).map fun _ => p
  | .destruct i =>
      match p.handles i with
      | none => none
      | some this =>
          (p.store.destruct E this).map fun s => ⟨s, Function.update p.handles i none⟩

/-! ## The model with private copies -/

/-- A variable of the model. -/
inductive Variable (T : Type) where
  | absent
  | movedFrom
  | holds (x : T)

/-- One operation on private values; `none` when a program may not do this. -/
def modelStep (v : ι → Variable T) : Op ι T → Option (ι → Variable T)
  | .construct i x =>
      match v i with
      | .absent => some (Function.update v i (.holds x))
      | _ => none
  | .copyConstruct i j =>
      match v i, v j with
      | .absent, .holds x => some (Function.update v i (.holds x))
      | _, _ => none
  | .moveConstruct i j =>
      match v i, v j with
      | .absent, .holds x => some (Function.update (Function.update v j .movedFrom) i (.holds x))
      | _, _ => none
  | .copyAssign i j =>
      match v i, v j with
      | .absent, _ => none
      | _, .holds x => some (Function.update v i (.holds x))
      | .movedFrom, .movedFrom => if i = j then some v else none
      | _, _ => none
  | .moveAssign i j =>
      if i = j then
        match v i with
        | .absent => none
        | _ => some v
      else
        match v i, v j with
        | .absent, _ => none
        | _, .holds x => some (Function.update (Function.update v j .movedFrom) i (.holds x))
        | _, _ => none
  | .mutate i f =>
      match v i with
      | .holds x => some (Function.update v i (.holds (f x)))
      | _ => none
  | .read i =>
      match v i with
      | .holds _ => some v
      | _ => none
  | .destruct i =>
      match v i with
      | .absent => none
      | _ => some (Function.update v i .absent)

/-- What one operation does to the variables, case by case. -/
inductive ModelStep (v : ι → Variable T) : Op ι T → (ι → Variable T) → Prop where
  | construct {i : ι} {x : T} (hi : v i = .absent) :
      ModelStep v (.construct i x) (Function.update v i (.holds x))
  | copyConstruct {i j : ι} {x : T} (hi : v i = .absent) (hj : v j = .holds x) :
      ModelStep v (.copyConstruct i j) (Function.update v i (.holds x))
  | moveConstruct {i j : ι} {x : T} (hi : v i = .absent) (hj : v j = .holds x) :
      ModelStep v (.moveConstruct i j)
        (Function.update (Function.update v j .movedFrom) i (.holds x))
  | copyAssign {i j : ι} {x : T} (hi : v i ≠ .absent) (hj : v j = .holds x) :
      ModelStep v (.copyAssign i j) (Function.update v i (.holds x))
  /-- A moved-from handle may be assigned to itself. -/
  | copyAssignSelf {i : ι} (hi : v i = .movedFrom) : ModelStep v (.copyAssign i i) v
  | moveAssign {i j : ι} {x : T} (hne : i ≠ j) (hi : v i ≠ .absent) (hj : v j = .holds x) :
      ModelStep v (.moveAssign i j)
        (Function.update (Function.update v j .movedFrom) i (.holds x))
  | moveAssignSelf {i : ι} (hi : v i ≠ .absent) : ModelStep v (.moveAssign i i) v
  | mutate {i : ι} {x : T} (f : T → T) (hi : v i = .holds x) :
      ModelStep v (.mutate i f) (Function.update v i (.holds (f x)))
  | read {i : ι} {x : T} (hi : v i = .holds x) : ModelStep v (.read i) v
  | destruct {i : ι} (hi : v i ≠ .absent) :
      ModelStep v (.destruct i) (Function.update v i .absent)

theorem modelStep_cases {v v' : ι → Variable T} {op : Op ι T} (h : modelStep v op = some v') :
    ModelStep v op v' := by
  cases op with
  | construct i x =>
      simp only [modelStep] at h
      split at h
      · rename_i hi
        obtain rfl := Option.some.inj h
        exact .construct hi
      · exact absurd h (by simp)
  | copyConstruct i j =>
      simp only [modelStep] at h
      split at h
      · rename_i x hi hj
        obtain rfl := Option.some.inj h
        exact .copyConstruct hi hj
      · exact absurd h (by simp)
  | moveConstruct i j =>
      simp only [modelStep] at h
      split at h
      · rename_i x hi hj
        obtain rfl := Option.some.inj h
        exact .moveConstruct hi hj
      · exact absurd h (by simp)
  | copyAssign i j =>
      simp only [modelStep] at h
      split at h
      · exact absurd h (by simp)
      · rename_i x hj hi
        obtain rfl := Option.some.inj h
        exact .copyAssign hi hj
      · rename_i hi hj
        split at h
        · rename_i heq
          subst heq
          obtain rfl := Option.some.inj h
          exact .copyAssignSelf hi
        · exact absurd h (by simp)
      · exact absurd h (by simp)
  | moveAssign i j =>
      simp only [modelStep] at h
      split at h
      · rename_i heq
        subst heq
        split at h
        · exact absurd h (by simp)
        · rename_i hi
          obtain rfl := Option.some.inj h
          exact .moveAssignSelf hi
      · rename_i hne
        split at h
        · exact absurd h (by simp)
        · rename_i x hj hi
          obtain rfl := Option.some.inj h
          exact .moveAssign hne hi hj
        · exact absurd h (by simp)
  | mutate i f =>
      simp only [modelStep] at h
      split at h
      · rename_i x hi
        obtain rfl := Option.some.inj h
        exact .mutate f hi
      · exact absurd h (by simp)
  | read i =>
      simp only [modelStep] at h
      split at h
      · rename_i x hi
        obtain rfl := Option.some.inj h
        exact .read hi
      · exact absurd h (by simp)
  | destruct i =>
      simp only [modelStep] at h
      split at h
      · exact absurd h (by simp)
      · rename_i hi
        obtain rfl := Option.some.inj h
        exact .destruct hi

theorem ModelStep.eq_some {v v' : ι → Variable T} {op : Op ι T} (h : ModelStep v op v') :
    modelStep v op = some v' := by
  cases h with
  | construct hi => simp only [modelStep, hi]
  | copyConstruct hi hj => simp only [modelStep, hi, hj]
  | moveConstruct hi hj => simp only [modelStep, hi, hj]
  | @copyAssign i j x hi hj =>
      cases hvi : v i with
      | absent => exact absurd hvi hi
      | movedFrom => simp only [modelStep, hvi, hj]
      | holds _ => simp only [modelStep, hvi, hj]
  | copyAssignSelf hi => simp only [modelStep, hi, if_true]
  | @moveAssign i j x hne hi hj =>
      cases hvi : v i with
      | absent => exact absurd hvi hi
      | movedFrom => simp only [modelStep, if_neg hne, hvi, hj]
      | holds _ => simp only [modelStep, if_neg hne, hvi, hj]
  | @moveAssignSelf i hi =>
      cases hvi : v i with
      | absent => exact absurd hvi hi
      | movedFrom => simp only [modelStep, if_true, hvi]
      | holds _ => simp only [modelStep, if_true, hvi]
  | mutate f hi => simp only [modelStep, hi]
  | read hi => simp only [modelStep, hi]
  | @destruct i hi =>
      cases hvi : v i with
      | absent => exact absurd hvi hi
      | movedFrom => simp only [modelStep, hvi]
      | holds _ => simp only [modelStep, hvi]

/-! ## Two models side by side -/

section Related

variable {U : Type} {R : T → U → Prop}

/-- The same variable of two models, with related values. -/
inductive Variable.Related (R : T → U → Prop) : Variable T → Variable U → Prop where
  | absent : Related R .absent .absent
  | movedFrom : Related R .movedFrom .movedFrom
  | holds {x : T} {y : U} (h : R x y) : Related R (.holds x) (.holds y)

/-- The same operation of two models. -/
inductive Op.Related (R : T → U → Prop) : Op ι T → Op ι U → Prop where
  | construct (i : ι) {x : T} {y : U} (h : R x y) : Related R (.construct i x) (.construct i y)
  | copyConstruct (i j : ι) : Related R (.copyConstruct i j) (.copyConstruct i j)
  | moveConstruct (i j : ι) : Related R (.moveConstruct i j) (.moveConstruct i j)
  | copyAssign (i j : ι) : Related R (.copyAssign i j) (.copyAssign i j)
  | moveAssign (i j : ι) : Related R (.moveAssign i j) (.moveAssign i j)
  | mutate (i : ι) {f : T → T} {g : U → U} (h : ∀ x y, R x y → R (f x) (g y)) :
      Related R (.mutate i f) (.mutate i g)
  | read (i : ι) : Related R (.read i) (.read i)
  | destruct (i : ι) : Related R (.destruct i) (.destruct i)

variable {v : ι → Variable T} {u u' : ι → Variable U}

omit [DecidableEq ι] in
theorem Variable.Related.exists_holds {x : Variable T} {y : U}
    (h : Variable.Related R x (.holds y)) : ∃ x', x = .holds x' ∧ R x' y := by
  cases h with
  | holds h => exact ⟨_, rfl, h⟩

omit [DecidableEq ι] in
theorem Variable.Related.absent_iff {x : Variable T} {y : Variable U}
    (h : Variable.Related R x y) : x = .absent ↔ y = .absent := by
  cases h with
  | absent => exact iff_of_true rfl rfl
  | movedFrom => exact iff_of_false (by simp) (by simp)
  | holds _ => exact iff_of_false (by simp) (by simp)

omit [DecidableEq ι] in
theorem Variable.Related.movedFrom_iff {x : Variable T} {y : Variable U}
    (h : Variable.Related R x y) : x = .movedFrom ↔ y = .movedFrom := by
  cases h with
  | absent => exact iff_of_false (by simp) (by simp)
  | movedFrom => exact iff_of_true rfl rfl
  | holds _ => exact iff_of_false (by simp) (by simp)

theorem related_update (h : ∀ i, Variable.Related R (v i) (u i)) (i : ι) {x : Variable T}
    {y : Variable U} (hxy : Variable.Related R x y) :
    ∀ j, Variable.Related R (Function.update v i x j) (Function.update u i y j) := by
  intro j
  rcases eq_or_ne j i with rfl | hne
  · simpa using hxy
  · simpa [Function.update_of_ne hne] using h j

/-- What one model allows, the other does, and the two stay related. -/
theorem modelStep_related (h : ∀ i, Variable.Related R (v i) (u i)) {op : Op ι T} {op' : Op ι U}
    (hop : Op.Related R op op') (hstep : modelStep u op' = some u') :
    ∃ v', modelStep v op = some v' ∧ ∀ i, Variable.Related R (v' i) (u' i) := by
  have hholds : ∀ {i : ι} {y : U}, u i = .holds y → ∃ x, v i = .holds x ∧ R x y := by
    intro i y hi
    exact (hi ▸ h i).exists_holds
  cases hop with
  | construct i hxy =>
      cases modelStep_cases hstep with
      | construct hi =>
          exact ⟨_, (ModelStep.construct ((h i).absent_iff.mpr hi)).eq_some,
            related_update h i (.holds hxy)⟩
  | copyConstruct i j =>
      cases modelStep_cases hstep with
      | copyConstruct hi hj =>
          obtain ⟨x, hx, hxy⟩ := hholds hj
          exact ⟨_, (ModelStep.copyConstruct ((h i).absent_iff.mpr hi) hx).eq_some,
            related_update h i (.holds hxy)⟩
  | moveConstruct i j =>
      cases modelStep_cases hstep with
      | moveConstruct hi hj =>
          obtain ⟨x, hx, hxy⟩ := hholds hj
          exact ⟨_, (ModelStep.moveConstruct ((h i).absent_iff.mpr hi) hx).eq_some,
            related_update (related_update h j .movedFrom) i (.holds hxy)⟩
  | copyAssign i j =>
      cases modelStep_cases hstep with
      | copyAssign hi hj =>
          obtain ⟨x, hx, hxy⟩ := hholds hj
          exact ⟨_, (ModelStep.copyAssign (mt (h i).absent_iff.mp hi) hx).eq_some,
            related_update h i (.holds hxy)⟩
      | copyAssignSelf hi =>
          exact ⟨v, (ModelStep.copyAssignSelf ((h i).movedFrom_iff.mpr hi)).eq_some, h⟩
  | moveAssign i j =>
      cases modelStep_cases hstep with
      | moveAssign hne hi hj =>
          obtain ⟨x, hx, hxy⟩ := hholds hj
          exact ⟨_, (ModelStep.moveAssign hne (mt (h i).absent_iff.mp hi) hx).eq_some,
            related_update (related_update h j .movedFrom) i (.holds hxy)⟩
      | moveAssignSelf hi =>
          exact ⟨v, (ModelStep.moveAssignSelf (mt (h i).absent_iff.mp hi)).eq_some, h⟩
  | mutate i hfg =>
      cases modelStep_cases hstep with
      | mutate g hi =>
          obtain ⟨x, hx, hxy⟩ := hholds hi
          exact ⟨_, (ModelStep.mutate _ hx).eq_some, related_update h i (.holds (hfg _ _ hxy))⟩
  | read i =>
      cases modelStep_cases hstep with
      | read hi =>
          obtain ⟨x, hx, -⟩ := hholds hi
          exact ⟨v, (ModelStep.read hx).eq_some, h⟩
  | destruct i =>
      cases modelStep_cases hstep with
      | destruct hi =>
          exact ⟨_, (ModelStep.destruct (mt (h i).absent_iff.mp hi)).eq_some,
            related_update h i .absent⟩

end Related

/-! ## Counting handles -/

section Handles

variable [Fintype ι]

/-- The number of handles that point to `b`. -/
def handlesOn (handles : ι → Option Pointer) (b : ℕ) : ℕ :=
  occurrences (fun i => (handles i).join) (some b)

/-- Fewer handles on each block than its count can hold. -/
def FewHandles (handles : ι → Option Pointer) : Prop := ∀ b, handlesOn handles b < 2 ^ 32

variable {handles : ι → Option Pointer} {i j : ι} {b : ℕ}

theorem handlesOn_update (handles : ι → Option Pointer) (i : ι) (h : Option Pointer) (b : ℕ) :
    handlesOn (Function.update handles i h) b + (if (handles i).join = some b then 1 else 0)
      = handlesOn handles b + (if h.join = some b then 1 else 0) := by
  have hrefs : (fun k => (Function.update handles i h k).join)
      = Function.update (fun k => (handles k).join) i h.join := by
    funext k
    rcases eq_or_ne k i with rfl | hne
    · simp
    · simp [Function.update_of_ne hne]
  rw [handlesOn, hrefs]
  exact occurrences_update _ i h.join (some b)

omit [DecidableEq ι] in
theorem handlesOn_pos (h : handles i = some (some b)) : 0 < handlesOn handles b :=
  occurrences_pos.mpr ⟨i, by rw [h]; rfl⟩

omit [DecidableEq ι] in
/-- A block with one handle has no second one. -/
theorem handle_unique (h : handlesOn handles b = 1) (hi : handles i = some (some b))
    (hj : handles j = some (some b)) : i = j :=
  eq_of_occurrences_le_one (Nat.le_of_eq h) (by rw [hi]; rfl) (by rw [hj]; rfl)

/-- The handles after one of them was given up or taken over, in the form the store counts. -/
theorem handlesOn_update_eq (handles : ι → Option Pointer) (i : ι) (h : Option Pointer) (b : ℕ) :
    handlesOn (Function.update handles i h) b
      = releasedCount (handlesOn handles) (handles i).join b
        + if h.join = some b then 1 else 0 := by
  have hupdate := handlesOn_update handles i h b
  have hle : (if (handles i).join = some b then 1 else 0) ≤ handlesOn handles b := by
    split
    · rename_i heq
      exact occurrences_pos.mpr ⟨i, heq⟩
    · exact Nat.zero_le _
  unfold releasedCount
  omega

/-- A new variable is the only handle on a new block. -/
theorem handlesOn_construct {b : ℕ} (hi : handles i = none) (hb : handlesOn handles b = 0) (c : ℕ) :
    Function.update (handlesOn handles) b 1 c
      = handlesOn (Function.update handles i (some (some b))) c := by
  rw [handlesOn_update_eq, hi]
  rcases eq_or_ne c b with rfl | hne
  · simp [releasedCount, hb]
  · simp [releasedCount, Function.update_of_ne hne, Ne.symm hne]

/-- Moving a handle to another variable gives up only what that variable held. -/
theorem handlesOn_move {other : Pointer} (hne : i ≠ j) (hj : handles j = some other) (b : ℕ) :
    handlesOn (Function.update (Function.update handles j (some none)) i (some other)) b
      = releasedCount (handlesOn handles) (handles i).join b := by
  have hfirst := handlesOn_update handles j (some none) b
  have hsecond := handlesOn_update (Function.update handles j (some none)) i (some other) b
  rw [Function.update_of_ne hne] at hsecond
  simp only [hj, Option.join_some, reduceCtorEq, if_false] at hfirst hsecond
  unfold releasedCount
  omega

end Handles

variable [Fintype ι] {E : Element W T} {p p' : Program ι W T}

/-! ## The relation between the two -/

/-- What a handle shows of its variable in the model. -/
inductive Shows (s : Store W T) : Option Pointer → Variable T → Prop where
  | absent : Shows s none .absent
  | movedFrom : Shows s (some none) .movedFrom
  | holds {b : ℕ} {x : T} (hx : s.elements b = some x) : Shows s (some (some b)) (.holds x)

omit [DecidableEq ι] [Fintype ι] in
theorem Shows.frame {s s' : Store W T} {h : Option Pointer} {v : Variable T} (hs : Shows s h v)
    (hframe : ∀ b, h = some (some b) → s'.elements b = s.elements b) : Shows s' h v := by
  cases hs with
  | absent => exact .absent
  | movedFrom => exact .movedFrom
  | holds hx => exact .holds ((hframe _ rfl).trans hx)

structure Simulates (v : ι → Variable T) (p : Program ι W T) : Prop where
  counted : Counted p.store (handlesOn p.handles)
  shows : ∀ i, Shows p.store (p.handles i) (v i)

omit [Fintype ι] in
/-- One variable gets a new handle and a new value; the others keep what they show. -/
theorem shows_update {v : ι → Variable T} {s s' : Store W T} {handles : ι → Option Pointer}
    {i : ι} {h : Option Pointer} {x : Variable T} (hold : ∀ j, j ≠ i → Shows s (handles j) (v j))
    (hnew : Shows s' h x)
    (hframe : ∀ j b, j ≠ i → handles j = some (some b) → s'.elements b = s.elements b) :
    ∀ j, Shows s' (Function.update handles i h j) (Function.update v i x j) := by
  intro j
  by_cases hj : j = i
  · subst hj; simpa using hnew
  · rw [Function.update_of_ne hj, Function.update_of_ne hj]
    exact (hold j hj).frame fun b hb => hframe j b hj hb

omit [DecidableEq ι] in
theorem start_simulates (w : W) :
    Simulates (fun _ => .absent) (Program.start w : Program ι W T) where
  counted := (counted_empty w).congr fun b => by
    symm
    by_contra hne
    obtain ⟨i, hi⟩ := occurrences_pos.mp (Nat.pos_of_ne_zero hne)
    exact absurd hi (by simp [Program.start])
  shows := fun _ => .absent

/-! ## What a variable of the model says about its handle -/

section Inversion

variable {s : Store W T} {h : Option Pointer} {x : T}

omit [DecidableEq ι] [Fintype ι]

theorem Shows.eq_none (hs : Shows s h .absent) : h = none := by
  cases hs; rfl

theorem Shows.eq_null (hs : Shows s h .movedFrom) : h = some none := by
  cases hs; rfl

theorem Shows.exists_block (hs : Shows s h (.holds x)) :
    ∃ b, h = some (some b) ∧ s.elements b = some x := by
  cases hs with
  | holds hx => exact ⟨_, rfl, hx⟩

theorem Shows.exists_handle {v : Variable T} (hs : Shows s h v) (hv : v ≠ .absent) :
    ∃ this, h = some this := by
  cases hs with
  | absent => exact absurd rfl hv
  | movedFrom => exact ⟨_, rfl⟩
  | holds _ => exact ⟨_, rfl⟩

end Inversion

/-! ## One operation -/

variable {v v' : ι → Variable T} {i j : ι} {x : T}

theorem construct_simulates (hs : Simulates v p) (hi : v i = .absent) :
    ∃ p', step E p (.construct i x) = some p' ∧ Simulates (Function.update v i (.holds x)) p' := by
  have hhandle : p.handles i = none := (hi ▸ hs.shows i).eq_none
  refine ⟨⟨(p.store.newBlock x).1, Function.update p.handles i (some (some p.store.next))⟩,
    by rw [step, hhandle]; rfl, ?_, ?_⟩
  · exact (hs.counted.newBlock x).congr
      (handlesOn_construct hhandle (hs.counted.dead (hs.counted.fresh (Nat.le_refl _))))
  · refine shows_update (fun j _ => hs.shows j) (.holds ?_) fun j b _ hj => ?_
    · rw [newBlock_elements, Function.update_self]
    · have hlt := hs.counted.lt_next (handlesOn_pos hj)
      rw [newBlock_elements, Function.update_of_ne (Nat.ne_of_lt hlt)]

theorem copyConstruct_simulates (hs : Simulates v p) (hi : v i = .absent) (hj : v j = .holds x)
    (hfew : ∀ p', step E p (.copyConstruct i j) = some p' → FewHandles p'.handles) :
    ∃ p', step E p (.copyConstruct i j) = some p'
      ∧ Simulates (Function.update v i (.holds x)) p' := by
  have hhandle : p.handles i = none := (hi ▸ hs.shows i).eq_none
  obtain ⟨b, hother, hx⟩ := (hj ▸ hs.shows j).exists_block
  obtain ⟨s', hret, hcounted, helements, -, -⟩ :=
    retain_spec hs.counted (handlesOn_pos hother)
  have hstep : step E p (.copyConstruct i j)
      = some ⟨s', Function.update p.handles i (some (some b))⟩ := by
    simp [step, hhandle, hother, copyConstruct, hret]
  have hcount : ∀ c, Function.update (handlesOn p.handles) b (handlesOn p.handles b + 1) c
      = handlesOn (Function.update p.handles i (some (some b))) c := by
    intro c
    rw [handlesOn_update_eq, hhandle]
    rcases eq_or_ne c b with rfl | hne
    · simp [releasedCount]
    · simp [releasedCount, Function.update_of_ne hne, Ne.symm hne]
  have hmax : handlesOn p.handles b + 1 < 2 ^ 32 := by
    have hlt := hfew _ hstep b
    rw [← hcount, Function.update_self] at hlt
    exact hlt
  refine ⟨_, hstep, (hcounted hmax).congr hcount, ?_⟩
  refine shows_update (fun k _ => hs.shows k) (.holds ?_) fun k c _ _ => congrFun helements c
  rw [helements]; exact hx

theorem moveConstruct_simulates (hs : Simulates v p) (hi : v i = .absent) (hj : v j = .holds x) :
    ∃ p', step E p (.moveConstruct i j) = some p'
      ∧ Simulates (Function.update (Function.update v j .movedFrom) i (.holds x)) p' := by
  have hhandle : p.handles i = none := (hi ▸ hs.shows i).eq_none
  obtain ⟨b, hother, hx⟩ := (hj ▸ hs.shows j).exists_block
  have hne : i ≠ j := by
    intro heq
    subst heq
    rw [hi] at hj
    exact absurd hj (by simp)
  refine ⟨⟨p.store, Function.update (Function.update p.handles j (some none)) i
    (some (some b))⟩, by simp [step, hhandle, hother, moveConstruct], ?_, ?_⟩
  · refine hs.counted.congr fun c => ?_
    rw [handlesOn_move hne hother, hhandle]
    simp [releasedCount]
  · exact shows_update
      (fun k _ => shows_update (fun k _ => hs.shows k) .movedFrom (fun _ _ _ _ => rfl) k)
      (.holds hx) fun _ _ _ _ => rfl

omit [DecidableEq ι] in
/-- A pointer some handle holds is null or is counted. -/
theorem this_counted {this : Pointer} (hi : p.handles i = some this) :
    ∀ c, this = some c → 0 < handlesOn p.handles c := by
  intro c hc
  exact handlesOn_pos (by rw [hi, hc])

theorem copyAssign_simulates (hs : Simulates v p) (hi : v i ≠ .absent) (hj : v j = .holds x)
    (hfew : ∀ p', step E p (.copyAssign i j) = some p' → FewHandles p'.handles) :
    ∃ p', step E p (.copyAssign i j) = some p' ∧ Simulates (Function.update v i (.holds x)) p' := by
  obtain ⟨this, hthis⟩ := (hs.shows i).exists_handle hi
  obtain ⟨b, hother, hx⟩ := (hj ▸ hs.shows j).exists_block
  by_cases hsame : this = some b
  · -- the two handles share the block already
    have hself : Function.update p.handles i (some (some b)) = p.handles := by
      rw [← hsame, ← hthis, Function.update_eq_self]
    refine ⟨⟨p.store, Function.update p.handles i (some (some b))⟩,
      by simp [step, hthis, hother, copyAssign, hsame], ?_, ?_⟩
    · rw [hself]; exact hs.counted
    · exact shows_update (fun k _ => hs.shows k) (.holds hx) fun _ _ _ _ => rfl
  · have hlive := this_counted hthis
    obtain ⟨s₁, hret, hcounted₁, helements₁, -, -⟩ :=
      retain_spec hs.counted (handlesOn_pos hother)
    obtain ⟨s₂, hrel⟩ := releaseIfAny_isSome (s := s₁) E this fun c hc => by
      rw [helements₁]; exact hs.counted.exists_element (hlive c hc)
    have hstep : step E p (.copyAssign i j)
        = some ⟨s₂, Function.update p.handles i (some (some b))⟩ := by
      simp [step, hthis, hother, copyAssign, hsame, hret, hrel]
    have hcount : ∀ c, releasedCount
        (Function.update (handlesOn p.handles) b (handlesOn p.handles b + 1)) this c
        = handlesOn (Function.update p.handles i (some (some b))) c := by
      intro c
      rw [handlesOn_update_eq, hthis]
      rcases eq_or_ne c b with rfl | hne
      · simp [releasedCount, hsame]
      · simp [releasedCount, Function.update_of_ne hne, Ne.symm hne]
    have hmax : handlesOn p.handles b + 1 < 2 ^ 32 := by
      have hlt := hfew _ hstep b
      rw [← hcount, releasedCount, if_neg hsame, Function.update_self] at hlt
      exact hlt
    obtain ⟨s₂', hrel', hcounted₂, hframe⟩ := releaseIfAny_spec E this (hcounted₁ hmax)
      fun c hc => by
        rw [Function.update_of_ne (fun hcb => hsame (hc.trans (congrArg some hcb)))]
        exact hlive c hc
    obtain rfl : s₂ = s₂' := Option.some.inj (hrel.symm.trans hrel')
    have hkept : ∀ k c, Function.update p.handles i (some (some b)) k = some (some c) →
        s₂.elements c = p.store.elements c := by
      intro k c hk
      rw [hframe c (by rw [hcount]; exact handlesOn_pos hk), helements₁]
    refine ⟨_, hstep, hcounted₂.congr hcount, ?_⟩
    refine shows_update (fun k _ => hs.shows k) (.holds ?_) fun k c hk hc =>
      hkept k c (by rw [Function.update_of_ne hk, hc])
    rw [hkept i b (Function.update_self _ _ _), hx]

theorem moveAssign_simulates (hs : Simulates v p) (hne : i ≠ j) (hi : v i ≠ .absent)
    (hj : v j = .holds x) :
    ∃ p', step E p (.moveAssign i j) = some p'
      ∧ Simulates (Function.update (Function.update v j .movedFrom) i (.holds x)) p' := by
  obtain ⟨this, hthis⟩ := (hs.shows i).exists_handle hi
  obtain ⟨b, hother, hx⟩ := (hj ▸ hs.shows j).exists_block
  obtain ⟨s', hrel, hcounted, hframe⟩ := releaseIfAny_spec E this hs.counted (this_counted hthis)
  have hcount : ∀ c, handlesOn (Function.update (Function.update p.handles j (some none)) i
      (some (some b))) c = releasedCount (handlesOn p.handles) this c := by
    intro c
    rw [handlesOn_move hne hother, hthis, Option.join_some]
  have hkept : ∀ k c, Function.update (Function.update p.handles j (some none)) i
      (some (some b)) k = some (some c) → s'.elements c = p.store.elements c := by
    intro k c hk
    exact hframe c (by rw [← hcount]; exact handlesOn_pos hk)
  refine ⟨⟨s', Function.update (Function.update p.handles j (some none)) i (some (some b))⟩,
    by simp [step, hthis, hother, moveAssign, hne, hrel],
    hcounted.congr fun c => (hcount c).symm, ?_⟩
  refine shows_update
    (fun k _ => shows_update (fun k _ => hs.shows k) .movedFrom (fun _ _ _ _ => rfl) k)
    (.holds ?_) fun k c hk hc => hkept k c (by rw [Function.update_of_ne hk, hc])
  rw [hkept i b (Function.update_self _ _ _), hx]

theorem destruct_simulates (hs : Simulates v p) (hi : v i ≠ .absent) :
    ∃ p', step E p (.destruct i) = some p' ∧ Simulates (Function.update v i .absent) p' := by
  obtain ⟨this, hthis⟩ := (hs.shows i).exists_handle hi
  obtain ⟨s', hrel, hcounted, hframe⟩ := releaseIfAny_spec E this hs.counted (this_counted hthis)
  have hcount : ∀ c, releasedCount (handlesOn p.handles) this c
      = handlesOn (Function.update p.handles i none) c := by
    intro c
    rw [handlesOn_update_eq, hthis]
    simp
  refine ⟨⟨s', Function.update p.handles i none⟩, by simp [step, hthis, destruct, hrel],
    hcounted.congr hcount, ?_⟩
  refine shows_update (fun k _ => hs.shows k) .absent fun k c hk hc => ?_
  refine hframe c ?_
  rw [hcount]
  exact handlesOn_pos (i := k) (by rw [Function.update_of_ne hk, hc])

/-- The split moves one handle from the shared block to the fresh one. -/
theorem handlesOn_split {handles : ι → Option Pointer} {b b' : ℕ} (hi : handles i = some (some b))
    (hb' : handlesOn handles b' = 0) (c : ℕ) :
    Function.update (Function.update (handlesOn handles) b' 1) b (handlesOn handles b - 1) c
      = handlesOn (Function.update handles i (some (some b'))) c := by
  have hpos := handlesOn_pos hi
  rw [handlesOn_update_eq, hi]
  simp only [releasedCount, Option.join_some, Option.some.injEq]
  rcases eq_or_ne c b with rfl | hcb
  · have hne : b' ≠ c := by
      intro heq
      subst heq
      omega
    simp [hne]
  · rcases eq_or_ne c b' with rfl | hcb'
    · simp [Function.update_of_ne hcb, hb', Ne.symm hcb]
    · simp [Function.update_of_ne hcb, Function.update_of_ne hcb', Ne.symm hcb, Ne.symm hcb']

theorem mutate_simulates (hcopy : ∀ w x, (E.copy w x).2 = x) (hs : Simulates v p)
    (hi : v i = .holds x) (f : T → T) :
    ∃ p', step E p (.mutate i f) = some p'
      ∧ Simulates (Function.update v i (.holds (f x))) p' := by
  obtain ⟨b, hthis, hx⟩ := (hi ▸ hs.shows i).exists_block
  obtain ⟨s', b', hunique, hcases⟩ := unique_spec E hs.counted (handlesOn_pos hthis)
  -- either way the handle is alone on `b'`, which holds the old value
  have hafter : s'.elements b' = some x
      ∧ Counted s' (handlesOn (Function.update p.handles i (some (some b'))))
      ∧ ∀ k c, k ≠ i → p.handles k = some (some c) →
        c ≠ b' ∧ s'.elements c = p.store.elements c := by
    rcases hcases with ⟨hone, rfl, rfl⟩ | ⟨-, -, hfresh, -, -, hcounted, y, hy, helements, -⟩
    · refine ⟨hx, ?_, fun k c hk hc => ⟨fun hcb => ?_, rfl⟩⟩
      · rw [← hthis, Function.update_eq_self]; exact hs.counted
      · subst hcb
        exact hk (handle_unique hone hc hthis)
    · obtain rfl : x = y := Option.some.inj (hx.symm.trans hy)
      refine ⟨by rw [helements, Function.update_self, hcopy],
        hcounted.congr (handlesOn_split hthis hfresh), fun k c _ hc => ?_⟩
      have hcb : c ≠ b' := by
        intro hcb
        subst hcb
        exact absurd hfresh (Nat.ne_of_gt (handlesOn_pos hc))
      exact ⟨hcb, by rw [helements, Function.update_of_ne hcb]⟩
  obtain ⟨hx', hcounted, hframe⟩ := hafter
  refine ⟨⟨s'.setElement b' s'.world (f x), Function.update p.handles i (some (some b'))⟩,
    ?_, hcounted.setElement _ _, ?_⟩
  · have hread : s'.read (some b') = some x := hx'
    simp [step, hthis, hunique, hread]
  · refine shows_update (fun k _ => hs.shows k) (.holds ?_) fun k c hk hc => ?_
    · rw [setElement_elements hx', Function.update_self]
    · obtain ⟨hcb, hsame⟩ := hframe k c hk hc
      rw [setElement_elements hx', Function.update_of_ne hcb, hsame]

/-- **One step.** Whatever the model allows, the code does, and the two stay related. -/
theorem step_simulates (hcopy : ∀ w x, (E.copy w x).2 = x) (hs : Simulates v p) {op : Op ι T}
    (hmodel : modelStep v op = some v')
    (hfew : ∀ p', step E p op = some p' → FewHandles p'.handles) :
    ∃ p', step E p op = some p' ∧ Simulates v' p' := by
  cases modelStep_cases hmodel with
  | construct hi => exact construct_simulates hs hi
  | copyConstruct hi hj => exact copyConstruct_simulates hs hi hj hfew
  | moveConstruct hi hj => exact moveConstruct_simulates hs hi hj
  | copyAssign hi hj => exact copyAssign_simulates hs hi hj hfew
  | @copyAssignSelf i hi =>
      have hnull := (hi ▸ hs.shows i).eq_null
      refine ⟨⟨p.store, Function.update p.handles i (some none)⟩,
        by simp [step, hnull, copyAssign], ?_⟩
      rw [← hnull, Function.update_eq_self]
      exact hs
  | moveAssign hne hi hj => exact moveAssign_simulates hs hne hi hj
  | @moveAssignSelf i hi =>
      obtain ⟨this, hthis⟩ := (hs.shows i).exists_handle hi
      exact ⟨p, by simp [step, hthis], hs⟩
  | mutate f hi => exact mutate_simulates hcopy hs hi f
  | @read i x hi =>
      obtain ⟨b, hthis, hx⟩ := (hi ▸ hs.shows i).exists_block
      have hread : p.store.read (some b) = some x := hx
      exact ⟨p, by simp [step, hthis, hread], hs⟩
  | destruct hi => exact destruct_simulates hs hi

/-! ## What one operation destroys -/

/-- The world after the copy a mutation makes of an element that is shared; for all other
operations nothing is copied. -/
def Program.afterCopy (E : Element W T) (p : Program ι W T) : Op ι T → W
  | .mutate i _ =>
      match (p.handles i).join.bind p.store.blocks with
      | none => p.store.world
      | some block =>
          if 1 < block.retainCount then (E.copy p.store.world block.element).1
          else p.store.world
  | _ => p.store.world

theorem mutate_deletes (hs : Simulates v p) {f : T → T} (h : step E p (.mutate i f) = some p') :
    Deletes E p.store (p.afterCopy E (.mutate i f)) p'.store [] := by
  simp only [step] at h
  split at h
  · exact absurd h (by simp)
  rename_i this hthis
  split at h
  · exact absurd h (by simp)
  rename_i s b hunique
  obtain ⟨x, -, rfl⟩ := Option.map_eq_some_iff.mp h
  cases this with
  | none => exact absurd hunique (by simp [Store.unique])
  | some c =>
      obtain ⟨s', b', hunique', hcases⟩ := unique_spec E hs.counted (handlesOn_pos hthis)
      obtain ⟨rfl, rfl⟩ := Prod.mk.inj (Option.some.inj (hunique.symm.trans hunique'))
      obtain ⟨block, hblock, hcount⟩ := hs.counted.exists_block (handlesOn_pos hthis)
      have hafter : p.afterCopy E (.mutate i f) = if 1 < block.retainCount
          then (E.copy p.store.world block.element).1 else p.store.world := by
        simp only [Program.afterCopy, hthis, Option.join_some, Option.bind_some, hblock]
      have hshared : 1 < block.retainCount ↔ 1 < handlesOn p.handles c := by
        rw [← hcount]
        exact UInt32.lt_iff_toNat_lt
      rcases hcases with ⟨hone, rfl, -⟩ | ⟨hmany, -, -, hnext, hdeleted, -, y, hy, -, hworld⟩
      · refine .nothing (Nat.le_refl _) rfl ?_
        rw [hafter, if_neg (by rw [hshared]; omega)]
        rfl
      · refine .nothing (by simp only [setElement]; omega) hdeleted ?_
        rw [elements, hblock, Option.map_some, Option.some.injEq] at hy
        rw [hafter, if_pos (hshared.mpr hmany), hy]
        exact hworld

/-- **One operation.** -/
theorem step_deletes (hs : Simulates v p) {op : Op ι T} (h : step E p op = some p') :
    ∃ gone, Deletes E p.store (p.afterCopy E op) p'.store gone := by
  cases op with
  | construct i x =>
      simp only [step] at h
      split at h
      · obtain rfl := Option.some.inj h
        exact ⟨[], .nothing (Nat.le_succ _) rfl rfl⟩
      · exact absurd h (by simp)
  | copyConstruct i j =>
      simp only [step] at h
      split at h
      · rename_i other hi hj
        obtain ⟨⟨s', this⟩, hcopy, rfl⟩ := Option.map_eq_some_iff.mp h
        cases other with
        | none => exact absurd hcopy (by simp [Store.copyConstruct])
        | some b =>
            obtain ⟨s₁, hretain, heq⟩ := Option.map_eq_some_iff.mp hcopy
            obtain rfl := (Prod.mk.inj heq).1
            simp only [retain] at hretain
            split at hretain
            · exact absurd hretain (by simp)
            · obtain rfl := Option.some.inj hretain
              exact ⟨[], .nothing (Nat.le_refl _) rfl rfl⟩
      · exact absurd h (by simp)
  | moveConstruct i j =>
      simp only [step] at h
      split at h
      · obtain rfl := Option.some.inj h
        exact ⟨[], .nothing (Nat.le_refl _) rfl rfl⟩
      · exact absurd h (by simp)
  | copyAssign i j =>
      simp only [step] at h
      split at h
      · obtain ⟨⟨s', that⟩, hassign, rfl⟩ := Option.map_eq_some_iff.mp h
        exact copyAssign_deletes hassign
      · exact absurd h (by simp)
  | moveAssign i j =>
      simp only [step] at h
      split at h
      · split at h
        · obtain ⟨r, hmove, rfl⟩ := Option.map_eq_some_iff.mp h
          obtain ⟨s₁, hrelease, rfl⟩ := Option.map_eq_some_iff.mp hmove
          exact releaseIfAny_deletes hrelease
        · obtain rfl := Option.some.inj h
          exact ⟨[], .nothing (Nat.le_refl _) rfl rfl⟩
      · exact absurd h (by simp)
  | mutate i f => exact ⟨[], mutate_deletes hs h⟩
  | read i =>
      simp only [step] at h
      split at h
      · exact absurd h (by simp)
      · obtain ⟨x, -, rfl⟩ := Option.map_eq_some_iff.mp h
        exact ⟨[], .nothing (Nat.le_refl _) rfl rfl⟩
  | destruct i =>
      simp only [step] at h
      split at h
      · exact absurd h (by simp)
      · obtain ⟨s', hrelease, rfl⟩ := Option.map_eq_some_iff.mp h
        exact releaseIfAny_deletes hrelease

/-! ## Whole programs -/

/-- Every state the program reaches has fewer than `2 ^ 32` handles on each block. -/
def FewAlong (E : Element W T) (p : Program ι W T) (ops : List (Op ι T)) : Prop :=
  Along (step E) (fun p op => ∀ p', step E p op = some p' → FewHandles p'.handles) p ops

/-- A program with fewer than `2 ^ 32` variables cannot have more handles than that. -/
theorem fewAlong_of_card (hcard : Fintype.card ι < 2 ^ 32) (p : Program ι W T)
    (ops : List (Op ι T)) : FewAlong E p ops :=
  along_of_forall_states (C := fun p : Program ι W T => FewHandles p.handles)
    (fun _ _ => Nat.lt_of_le_of_lt (Finset.card_le_univ _) hcard) p

theorem run_simulates (hcopy : ∀ w x, (E.copy w x).2 = x) {ops : List (Op ι T)}
    (hs : Simulates v p) (hmodel : run modelStep v ops = some v') (hfew : FewAlong E p ops) :
    ∃ p', run (step E) p ops = some p' ∧ Simulates v' p' := by
  induction ops generalizing v p with
  | nil =>
      rw [run_nil, Option.some.injEq] at hmodel; subst hmodel
      exact ⟨p, rfl, hs⟩
  | cons op ops ih =>
      obtain ⟨v₁, hv₁, hrest⟩ := run_cons_some.mp hmodel
      obtain ⟨p₁, hp₁, hs₁⟩ := step_simulates hcopy hs hv₁ hfew.1
      obtain ⟨p₂, hp₂, hs₂⟩ := ih hs₁ hrest ((along_cons hp₁).mp hfew).2
      exact ⟨p₂, run_cons_some.mpr ⟨p₁, hp₁, hp₂⟩, hs₂⟩

/-- What `read()` gives through a variable: nothing for one that holds no element. -/
def Program.value (p : Program ι W T) (i : ι) : Option T := (p.handles i).bind p.store.read

/-- The value of a variable in the model. -/
def Variable.value : Variable T → Option T
  | .holds x => some x
  | _ => none

/-- Every step of such a run destroys the elements of the blocks it deletes, and these are the
ones that its last handle leaves. -/
theorem run_deletes (hcopy : ∀ w x, (E.copy w x).2 = x) (hs : Simulates v p)
    {before after : List (Op ι T)} {op : Op ι T}
    (hmodel : run modelStep v (before ++ op :: after) = some v')
    (hfew : FewAlong E p (before ++ op :: after)) :
    ∃ p₁ p₂ gone, run (step E) p before = some p₁ ∧ step E p₁ op = some p₂
      ∧ Deletes E p₁.store (p₁.afterCopy E op) p₂.store gone
      ∧ ∀ b, b ∈ gone ↔ 0 < handlesOn p₁.handles b ∧ handlesOn p₂.handles b = 0 := by
  obtain ⟨v₁, hbefore, hrest⟩ := run_append_some.mp hmodel
  obtain ⟨v₂, hop, -⟩ := run_cons_some.mp hrest
  obtain ⟨hfirst, hlater⟩ := along_append.mp hfew
  obtain ⟨p₁, hp₁, hs₁⟩ := run_simulates hcopy hs hbefore hfirst
  obtain ⟨p₂, hp₂, hs₂⟩ := step_simulates hcopy hs₁ hop (hlater p₁ hp₁).1
  obtain ⟨gone, hgone⟩ := step_deletes hs₁ hp₂
  exact ⟨p₁, p₂, gone, hp₁, hp₂, hgone, hgone.mem_iff hs₁.counted hs₂.counted⟩

/-- **Value semantics and exact counts.** Every program the model of private copies allows
runs; afterwards every handle reads what its variable has in the model, every live block
counts its handles, the deleted blocks are the ones made and left by every handle, and none
was deleted twice. Each operation deletes the blocks that lose their last handle in it, and
runs the destructor on the element of each of them and on no other. -/
theorem copyOnWrite_value_semantics (E : Element W T) (hcopy : ∀ w x, (E.copy w x).2 = x) (w : W)
    (ops : List (Op ι T)) (v : ι → Variable T)
    (hmodel : run modelStep (fun _ => .absent) ops = some v)
    (hfew : FewAlong E (Program.start w) ops) :
    ∃ p, run (step E) (Program.start w) ops = some p
      ∧ (∀ i, p.value i = (v i).value)
      ∧ (∀ b block, p.store.blocks b = some block →
          block.retainCount.toNat = handlesOn p.handles b)
      ∧ (∀ b, b < p.store.next →
          (b ∈ p.store.deleted ↔ handlesOn p.handles b = 0)
          ∧ (b ∈ p.store.deleted ↔ p.store.blocks b = none))
      ∧ p.store.deleted.Nodup
      ∧ ∀ before op after, ops = before ++ op :: after →
          ∃ p₁ p₂ gone, run (step E) (Program.start w) before = some p₁ ∧ step E p₁ op = some p₂
            ∧ Deletes E p₁.store (p₁.afterCopy E op) p₂.store gone
            ∧ ∀ b, b ∈ gone ↔ 0 < handlesOn p₁.handles b ∧ handlesOn p₂.handles b = 0 := by
  obtain ⟨p, hrun, hs⟩ := run_simulates hcopy (start_simulates w) hmodel hfew
  refine ⟨p, hrun, fun i => ?_, fun b block hb => (hs.counted.live hb).1, fun b hb => ?_,
    hs.counted.nodup, ?_⟩
  · have hshow := hs.shows i
    generalize hh : p.handles i = h at hshow
    generalize v i = x at hshow
    rw [Program.value, hh]
    cases hshow with
    | absent => rfl
    | movedFrom => rfl
    | holds hx => exact hx
  · have hgone : b ∈ p.store.deleted ↔ p.store.blocks b = none := by
      rw [hs.counted.deleted]
      exact ⟨fun h => h.2, fun h => ⟨hb, h⟩⟩
    refine ⟨?_, hgone⟩
    rw [hgone]
    cases hblock : p.store.blocks b with
    | none => simp [hs.counted.dead hblock]
    | some block =>
        have hpos := (hs.counted.live hblock).2
        simp only [reduceCtorEq, false_iff]
        omega
  · rintro before op after rfl
    exact run_deletes hcopy (start_simulates w) hmodel hfew

/-- The hypotheses met, with a split, a self-assignment, a move and a deletion on the way. -/
theorem copyOnWrite_value_semantics_split :
    ∃ p : Program (Fin 3) Unit Nat,
      run (step ⟨fun w x => (w, x), fun w _ => w⟩) (Program.start ())
        [.construct 0 5, .copyConstruct 1 0, .copyAssign 1 1, .mutate 1 (· + 1),
          .moveConstruct 2 0, .moveAssign 0 1, .destruct 2] = some p
      ∧ p.value 0 = some 6 ∧ p.value 1 = none := by
  obtain ⟨p, hrun, hval, -⟩ := copyOnWrite_value_semantics (ι := Fin 3) (W := Unit) (T := Nat)
    ⟨fun w x => (w, x), fun w _ => w⟩ (fun _ _ => rfl) ()
    [.construct 0 5, .copyConstruct 1 0, .copyAssign 1 1, .mutate 1 (· + 1),
      .moveConstruct 2 0, .moveAssign 0 1, .destruct 2] _ rfl
    (fewAlong_of_card (by decide) _ _)
  exact ⟨p, hrun, (hval 0).trans rfl, (hval 1).trans rfl⟩

end NPFoundation.CopyOnWrite
