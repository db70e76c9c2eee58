import NPFoundation.ObjC.Runtime
import Mathlib.Data.List.Induction

/-!
# Chains of blocks

What the installations are for, without implementations and method lists: a class that has
a method has a base entry for it, and over it the blocks that replaced it. Whatever is
installed in whatever order, a send runs the layers of the nearest class from the top to
the base, and if the base is a block that overrides, then the same from the classes above.

`Represents` ties the two together. The point about it is that a replaced implementation
stays behind the block that replaced it, and that there always is a method above a block
that overrides: nothing ever takes a method away.
-/

namespace NPFoundation

namespace ObjC

variable {κ σ β : Type}

/-! ## The classes above -/

/-- Each class in the list is followed by its superclasses. -/
def ClassTree.Lineage (tree : ClassTree κ) : List κ → Prop
  | [] => True
  | cls :: above => above = tree.ancestors cls ∧ Lineage tree above

theorem ClassTree.lineage_ancestors (tree : ClassTree κ) {above : List κ} {cls : κ}
    (h : tree.ancestors cls = above) : tree.Lineage (cls :: above) := by
  induction above generalizing cls with
  | nil => exact ⟨h.symm, trivial⟩
  | cons c above ih =>
      refine ⟨h.symm, ?_⟩
      rw [tree.ancestors_eq] at h
      cases hsuper : tree.superclass cls with
      | none =>
          rw [hsuper] at h
          exact absurd h (by simp)
      | some super =>
          rw [hsuper] at h
          obtain ⟨rfl, hrest⟩ := List.cons.inj h
          exact ih hrest

/-- No class is its own superclass. -/
theorem ClassTree.superclass_ne (tree : ClassTree κ) {cls super : κ}
    (h : tree.superclass cls = some super) : super ≠ cls := by
  rintro rfl
  have heq := tree.ancestors_eq super
  rw [h] at heq
  have hlength := congrArg List.length heq
  rw [List.length_cons] at hlength
  omega

theorem ClassTree.ancestors_cons (tree : ClassTree κ) {cls super : κ}
    (h : tree.superclass cls = some super) :
    tree.ancestors cls = super :: tree.ancestors super := by
  rw [tree.ancestors_eq cls, h]

/-! ## Layers -/

/-- What a class had for a method when it first had one. -/
inductive Base (β : Type) where
  /-- Compiled code, or a block that does not call through. -/
  | plain (code : β)
  | override (code : β)
  deriving DecidableEq, Repr

structure Layers (β : Type) where
  /-- The blocks that replaced it, newest first. -/
  replaced : List β
  base : Base β
  deriving DecidableEq, Repr

section

variable [DecidableEq κ] [DecidableEq σ]

/-- What every class has for every selector. -/
abbrev Installed (κ σ β : Type) := κ → σ → Option (Layers β)

namespace Installed

variable (installed : Installed κ σ β)

def initial (own : κ → List (σ × String × β)) : Installed κ σ β := fun cls sel =>
  ((own cls).find? fun m => m.1 = sel).map fun m => ⟨[], .plain m.2.2⟩

/-- What becomes of a class that an installation is for; `none` if it does not apply. -/
def newLayers (tree : ClassTree κ) (kind : InstallKind) (cls : κ) (sel : σ) (code : β) :
    Option (Layers β) :=
  match kind, installed cls sel with
  | .add, none => some ⟨[], .plain code⟩
  | .add, some _ => none
  | .replace, none => none
  | .replace, some layers => some { layers with replaced := code :: layers.replaced }
  | .override, none =>
      if (tree.ancestors cls).any fun above => (installed above sel).isSome
      then some ⟨[], .override code⟩ else none
  | .override, some _ => none

def put (cls : κ) (sel : σ) (layers : Layers β) : Installed κ σ β := fun c s =>
  if c = cls ∧ s = sel then some layers else installed c s

def install (tree : ClassTree κ) (i : Installation κ σ β) : Installed κ σ β :=
  match i.cls, i.sel with
  | some cls, some sel =>
      match installed.newLayers tree i.kind cls sel i.code with
      | some layers => installed.put cls sel layers
      | none => installed
  | _, _ => installed

/-- What a send runs that is looked up in these classes. -/
def blocksRun (sel : σ) : List κ → Option (List β)
  | [] => none
  | cls :: above =>
      match installed cls sel with
      | none => blocksRun sel above
      | some ⟨replaced, .plain code⟩ => some (replaced ++ [code])
      | some ⟨replaced, .override code⟩ =>
          (blocksRun sel above).map fun rest => replaced ++ code :: rest

end Installed

end

/-! ## What is stored -/

/-- From this implementation on, the blocks call through these layers. -/
def Chain (blocks : List (Block κ σ β)) (cls : κ) (sel : σ) (base : Base β) :
    List β → Imp β → Prop
  | [], imp =>
      match base with
      | .plain code => imp = .native code ∨ ∃ n, imp = .block n ∧ blocks[n]? = some (.add code)
      | .override code => ∃ n, imp = .block n ∧ blocks[n]? = some (.override code cls sel)
  | code :: replaced, imp =>
      ∃ n next, imp = .block n ∧ blocks[n]? = some (.replace code (some next))
        ∧ Chain blocks cls sel base replaced next

/-- The blocks that were there are there, but for one that still waits for its `_np_next_imp`. -/
def Grown (blocks blocks' : List (Block κ σ β)) : Prop :=
  ∀ (n : ℕ) block, blocks[n]? = some block → (∀ code, block ≠ .replace code none) →
    blocks'[n]? = some block

theorem grown_append (blocks more : List (Block κ σ β)) : Grown blocks (blocks ++ more) := by
  intro n block h _
  rw [List.getElem?_append_left (List.getElem?_eq_some_iff.mp h).1]
  exact h

theorem Chain.grown {blocks blocks' : List (Block κ σ β)} (hgrown : Grown blocks blocks')
    {cls : κ} {sel : σ} {base : Base β} {replaced : List β} {imp : Imp β}
    (h : Chain blocks cls sel base replaced imp) : Chain blocks' cls sel base replaced imp := by
  induction replaced generalizing imp with
  | nil =>
      cases base with
      | plain code =>
          rcases h with h | ⟨n, himp, hn⟩
          · exact .inl h
          · exact .inr ⟨n, himp, hgrown n _ hn (by simp)⟩
      | override code =>
          obtain ⟨n, himp, hn⟩ := h
          exact ⟨n, himp, hgrown n _ hn (by simp)⟩
  | cons code replaced ih =>
      obtain ⟨n, next, himp, hn, hrest⟩ := h
      exact ⟨n, next, himp, hgrown n _ hn (by simp), ih hrest⟩

variable [DecidableEq κ] [DecidableEq σ]

/-- The runtime has what is installed. -/
structure Represents (tree : ClassTree κ) (rt : Runtime κ σ β) (installed : Installed κ σ β) :
    Prop where
  owned : ∀ cls sel, (rt.npClassGetOwnMethod cls sel).isSome = (installed cls sel).isSome
  chain : ∀ {cls sel m layers}, rt.npClassGetOwnMethod cls sel = some m →
    installed cls sel = some layers → Chain rt.blocks cls sel layers.base layers.replaced m.imp
  above : ∀ {cls sel replaced code}, installed cls sel = some ⟨replaced, .override code⟩ →
    ∃ c ∈ tree.ancestors cls, (installed c sel).isSome = true

variable {tree : ClassTree κ} {rt rt' : Runtime κ σ β} {installed : Installed κ σ β}

omit [DecidableEq κ] in
theorem Represents.isSome_method (h : Represents tree rt installed) {cls : κ} {sel : σ}
    {layers : Layers β} (hlayers : installed cls sel = some layers) :
    (rt.npClassGetOwnMethod cls sel).isSome = true := by
  rw [h.owned, hlayers]
  rfl

omit [DecidableEq κ] in
theorem Represents.no_method (h : Represents tree rt installed) {cls : κ} {sel : σ}
    (hnone : installed cls sel = none) : rt.npClassGetOwnMethod cls sel = none := by
  have howned := h.owned cls sel
  rw [hnone] at howned
  exact Option.isNone_iff_eq_none.mp (Option.isSome_eq_false_iff.mp howned)

omit [DecidableEq κ] in
theorem represents_initial (tree : ClassTree κ) (own : κ → List (σ × String × β)) :
    Represents tree (.initial own) (.initial own) := by
  have hown : ∀ cls sel, (Runtime.initial own).npClassGetOwnMethod cls sel
      = ((own cls).find? fun m => m.1 = sel).map fun m => ⟨m.1, m.2.1, .native m.2.2⟩ := by
    intro cls sel
    rw [Runtime.npClassGetOwnMethod, Runtime.initial, List.find?_map]
    rfl
  refine ⟨?_, ?_, ?_⟩
  · intro cls sel
    rw [hown, Installed.initial, Option.isSome_map, Option.isSome_map]
  · intro cls sel m layers hm hlayers
    rw [hown] at hm
    obtain ⟨e, he, rfl⟩ := Option.map_eq_some_iff.mp hm
    rw [Installed.initial, he] at hlayers
    obtain rfl := Option.some.inj hlayers
    exact .inl rfl
  · intro cls sel replaced code h
    rw [Installed.initial] at h
    obtain ⟨e, -, he⟩ := Option.map_eq_some_iff.mp h
    exact absurd he (by simp)

omit [DecidableEq κ] in
/-- Blocks that nothing refers to make no difference. -/
theorem Represents.grown (h : Represents tree rt installed)
    (hown : ∀ cls sel, rt'.npClassGetOwnMethod cls sel = rt.npClassGetOwnMethod cls sel)
    (hgrown : Grown rt.blocks rt'.blocks) : Represents tree rt' installed where
  owned cls sel := by rw [hown, h.owned]
  chain := by
    intro cls sel m layers hm hlayers
    rw [hown] at hm
    exact (h.chain hm hlayers).grown hgrown
  above := h.above

/-- One entry is new, or different. -/
theorem Represents.put (h : Represents tree rt installed) {cls : κ} {sel : σ} {m : Method σ β}
    {layers : Layers β} (hgrown : Grown rt.blocks rt'.blocks)
    (hother : ∀ c s, ¬ (c = cls ∧ s = sel) →
      rt'.npClassGetOwnMethod c s = rt.npClassGetOwnMethod c s)
    (hown : rt'.npClassGetOwnMethod cls sel = some m)
    (hchain : Chain rt'.blocks cls sel layers.base layers.replaced m.imp)
    (habove : ∀ code, layers.base = .override code →
      ∃ c ∈ tree.ancestors cls, (installed c sel).isSome = true) :
    Represents tree rt' (installed.put cls sel layers) := by
  have hmore : ∀ c s, (installed c s).isSome = true →
      (installed.put cls sel layers c s).isSome = true := by
    intro c s hsome
    unfold Installed.put
    split
    · rfl
    · exact hsome
  refine ⟨?_, ?_, ?_⟩
  · intro c s
    unfold Installed.put
    split
    · rename_i heq
      rw [heq.1, heq.2, hown]
      rfl
    · rename_i hne
      rw [hother c s hne, h.owned]
  · intro c s m' layers' hm' hlayers'
    unfold Installed.put at hlayers'
    split at hlayers'
    · rename_i heq
      obtain ⟨rfl, rfl⟩ := heq
      obtain rfl := Option.some.inj hlayers'
      rw [hown] at hm'
      obtain rfl := Option.some.inj hm'
      exact hchain
    · rename_i hne
      rw [hother c s hne] at hm'
      exact (h.chain hm' hlayers').grown hgrown
  · intro c s replaced code hover
    unfold Installed.put at hover
    split at hover
    · rename_i heq
      obtain ⟨rfl, rfl⟩ := heq
      obtain rfl := Option.some.inj hover
      obtain ⟨c', hc', hsome⟩ := habove code rfl
      exact ⟨c', hc', hmore c' _ hsome⟩
    · obtain ⟨c', hc', hsome⟩ := h.above hover
      exact ⟨c', hc', hmore c' s hsome⟩

/-! ## What the installations do to the method lists -/

namespace Runtime

theorem ownMethod_attach (rt : Runtime κ σ β) (cls : κ) (m : Method σ β) (c : κ) (s : σ) :
    (rt.attach cls m).npClassGetOwnMethod c s
      = if c = cls ∧ s = m.name then some m else rt.npClassGetOwnMethod c s := by
  unfold npClassGetOwnMethod attach
  by_cases hc : c = cls
  · by_cases hs : s = m.name
    · simp [hc, hs]
    · have hs' : ¬ m.name = s := fun h => hs h.symm
      simp [hc, hs, hs']
  · simp [hc]

omit [DecidableEq κ] in
theorem find_setImplementation (sel s : σ) (imp : Imp β) (ms : List (Method σ β)) :
    (setImplementation sel imp ms).find? (fun m => m.name = s)
      = if s = sel then (ms.find? fun m => m.name = s).map fun m => { m with imp := imp }
        else ms.find? fun m => m.name = s := by
  induction ms with
  | nil => simp [setImplementation]
  | cons m ms ih =>
      unfold setImplementation
      by_cases hm : m.name = sel
      · rw [if_pos hm]
        by_cases hs : s = sel
        · simp [hm, hs]
        · have hs' : ¬ sel = s := fun h => hs h.symm
          simp [hm, hs, hs']
      · rw [if_neg hm]
        by_cases hms : m.name = s
        · have hs : ¬ s = sel := fun h => hm (hms.trans h)
          simp [hms, hs]
        · rw [List.find?_cons_of_neg (by simpa using hms), ih,
            List.find?_cons_of_neg (by simpa using hms)]

/-- The method that was there has a new implementation, and the old one is given back. -/
theorem classReplaceMethod_some {rt : Runtime κ σ β} {cls : κ} {sel : σ} {m : Method σ β}
    (h : rt.npClassGetOwnMethod cls sel = some m) (imp : Imp β) (types : Option String) :
    (rt.classReplaceMethod cls sel imp types).2 = some m.imp
    ∧ (rt.classReplaceMethod cls sel imp types).1.blocks = rt.blocks
    ∧ ∀ c s, (rt.classReplaceMethod cls sel imp types).1.npClassGetOwnMethod c s
        = if c = cls ∧ s = sel then some { m with imp := imp } else rt.npClassGetOwnMethod c s := by
  unfold classReplaceMethod
  rw [h]
  refine ⟨rfl, rfl, fun c s => ?_⟩
  unfold npClassGetOwnMethod at h ⊢
  dsimp only
  by_cases hc : c = cls
  · rw [if_pos hc, find_setImplementation, hc]
    by_cases hs : s = sel
    · rw [if_pos hs, if_pos ⟨rfl, hs⟩, hs, h]
      rfl
    · rw [if_neg hs, if_neg (by simp [hs])]
  · rw [if_neg hc, if_neg (by simp [hc])]

omit [DecidableEq κ] [DecidableEq σ] in
/-- The block that was just made gets its `_np_next_imp`. -/
theorem blocks_assignNextImp (rt : Runtime κ σ β) (blocks : List (Block κ σ β)) (code : β)
    (next : Option (Imp β)) (h : rt.blocks = blocks ++ [.replace code none]) :
    (rt.assignNextImp (.block blocks.length) next).blocks = blocks ++ [.replace code next]
    ∧ (rt.assignNextImp (.block blocks.length) next).methods = rt.methods := by
  refine ⟨?_, rfl⟩
  unfold assignNextImp
  rw [h]
  refine List.ext_getElem? fun n => ?_
  by_cases hn : n = blocks.length
  · simp [hn]
  · rw [List.getElem?_modify_ne _ _ fun heq => hn heq.symm]
    rcases Nat.lt_or_ge n blocks.length with hlt | hge
    · rw [List.getElem?_append_left hlt, List.getElem?_append_left hlt]
    · rw [List.getElem?_eq_none (by simp; omega), List.getElem?_eq_none (by simp; omega)]

end Runtime

/-- A method that a class does not have yet. -/
theorem represents_classAddMethod (h : Represents tree rt installed) {cls : κ} {sel : σ}
    (block : Block κ σ β) (types : Option String) (base : Base β)
    (hnone : installed cls sel = none)
    (hbase : ∀ blocks : List (Block κ σ β),
      Chain (blocks ++ [block]) cls sel base [] (.block blocks.length))
    (habove : ∀ code, base = .override code →
      ∃ c ∈ tree.ancestors cls, (installed c sel).isSome = true) :
    Represents tree
      ((rt.implementationWithBlock block).1.classAddMethod cls sel
        (rt.implementationWithBlock block).2 types).1
      (installed.put cls sel ⟨[], base⟩) := by
  have hown : (rt.implementationWithBlock block).1.npClassGetOwnMethod cls sel = none :=
    h.no_method hnone
  unfold Runtime.classAddMethod
  rw [hown]
  refine h.put (m := ⟨sel, types.getD "", .block rt.blocks.length⟩) (grown_append _ _) ?_ ?_
    (hbase rt.blocks) habove
  · intro c s hne
    rw [Runtime.ownMethod_attach, if_neg hne]
    rfl
  · rw [Runtime.ownMethod_attach, if_pos ⟨rfl, rfl⟩]
    rfl

/-- A class that has the method is left alone. -/
theorem classAddMethod_not_added {cls : κ} {sel : σ} (block : Block κ σ β) (types : Option String)
    (h : (rt.npClassGetOwnMethod cls sel).isSome = true) :
    (rt.implementationWithBlock block).1.classAddMethod cls sel
      (rt.implementationWithBlock block).2 types = ((rt.implementationWithBlock block).1, false) := by
  obtain ⟨m, hm⟩ := Option.isSome_iff_exists.mp h
  have hown : (rt.implementationWithBlock block).1.npClassGetOwnMethod cls sel = some m := hm
  unfold Runtime.classAddMethod
  rw [hown]

omit [DecidableEq κ] in
theorem represents_implementationWithBlock (h : Represents tree rt installed)
    (block : Block κ σ β) : Represents tree (rt.implementationWithBlock block).1 installed :=
  h.grown (fun _ _ => rfl) (grown_append _ _)

omit [DecidableEq κ] in
/-- Some class in the list has the method. -/
theorem isSome_lookUp {sel : σ}
    (h : ∀ cls, (rt.npClassGetOwnMethod cls sel).isSome = (installed cls sel).isSome)
    (classes : List κ) :
    (rt.lookUp classes sel).isSome = classes.any fun c => (installed c sel).isSome := by
  unfold Runtime.lookUp
  induction classes with
  | nil => rfl
  | cons c classes ih =>
      rw [List.findSome?_cons, List.any_cons, ← h, ← ih]
      cases rt.npClassGetOwnMethod c sel <;> rfl

/-- `NPClassGetSuperMethod` finds one just when a class above has one. -/
theorem isSome_superMethod (h : Represents tree rt installed) (cls : κ) (sel : σ) :
    (rt.npClassGetSuperMethod tree cls sel).isSome
      = (tree.ancestors cls).any fun c => (installed c sel).isSome := by
  unfold Runtime.npClassGetSuperMethod
  cases hsuper : tree.superclass cls with
  | none =>
      rw [tree.ancestors_eq, hsuper]
      rfl
  | some super =>
      dsimp only
      rw [if_neg (tree.superclass_ne hsuper), tree.ancestors_cons hsuper]
      exact isSome_lookUp (fun c => h.owned c sel) _

theorem represents_npClassReplaceMethod (h : Represents tree rt installed) {cls : κ} {sel : σ}
    {layers : Layers β} (types : Option String) (code : β)
    (hlayers : installed cls sel = some layers) :
    Represents tree (rt.npClassReplaceMethod (some cls) (some sel) types code)
      (installed.put cls sel { layers with replaced := code :: layers.replaced }) := by
  obtain ⟨m, hm⟩ := Option.isSome_iff_exists.mp (h.isSome_method hlayers)
  have hm' : (rt.implementationWithBlock (.replace code none)).1.npClassGetOwnMethod cls sel
      = some m := hm
  -- the implementation that was there is given back, and goes behind the new block
  obtain ⟨hold, hblocks, hown⟩ := Runtime.classReplaceMethod_some hm' (.block rt.blocks.length)
    (some (types.getD m.types))
  obtain ⟨hblocks', hmethods'⟩ := Runtime.blocks_assignNextImp
    ((rt.implementationWithBlock (.replace code none)).1.classReplaceMethod cls sel
      (.block rt.blocks.length) (some (types.getD m.types))).1 rt.blocks code (some m.imp) hblocks
  have heq : rt.npClassReplaceMethod (some cls) (some sel) types code
      = ((rt.implementationWithBlock (.replace code none)).1.classReplaceMethod cls sel
          (.block rt.blocks.length) (some (types.getD m.types))).1.assignNextImp
          (.block rt.blocks.length) (some m.imp) := by
    rw [← hold]
    dsimp only [Runtime.npClassReplaceMethod]
    rw [hm]
    rfl
  rw [heq]
  refine h.put (m := { m with imp := .block rt.blocks.length }) ?_ ?_ ?_ ?_ ?_
  · rw [hblocks']
    exact grown_append _ _
  · intro c s hne
    rw [Runtime.npClassGetOwnMethod, hmethods']
    exact (hown c s).trans (if_neg hne)
  · rw [Runtime.npClassGetOwnMethod, hmethods']
    exact (hown cls sel).trans (if_pos ⟨rfl, rfl⟩)
  · rw [hblocks']
    exact ⟨_, m.imp, rfl, List.getElem?_concat_length, (h.chain hm hlayers).grown (grown_append _ _)⟩
  · intro code' hbase
    obtain ⟨replaced, base⟩ := layers
    obtain rfl : base = .override code' := hbase
    exact h.above hlayers

/-- **Every installation.** -/
theorem represents_install (h : Represents tree rt installed) (i : Installation κ σ β) :
    Represents tree (install tree rt i) (installed.install tree i) := by
  obtain ⟨kind, cls, sel, types, code⟩ := i
  cases cls with
  | none => cases kind <;> exact h
  | some cls =>
      cases sel with
      | none => cases kind <;> exact h
      | some sel =>
          unfold install Installed.install Installed.newLayers
          cases kind with
          | add =>
              dsimp only
              cases hown : installed cls sel with
              | none =>
                  exact represents_classAddMethod h (.add code) types (.plain code) hown
                    (fun blocks => .inr ⟨_, rfl, List.getElem?_concat_length⟩) (by simp)
              | some layers =>
                  -- a block is made all the same, but nothing refers to it
                  have hadd := classAddMethod_not_added (.add code) types (h.isSome_method hown)
                  dsimp only [Runtime.npClassAddMethod]
                  rw [hadd]
                  exact represents_implementationWithBlock h _
          | replace =>
              dsimp only
              cases hown : installed cls sel with
              | none =>
                  dsimp only [Runtime.npClassReplaceMethod]
                  rw [h.no_method hown]
                  exact h
              | some layers => exact represents_npClassReplaceMethod h types code hown
          | override =>
              dsimp only [Runtime.npClassOverrideMethod]
              have habove := isSome_superMethod h cls sel
              cases hsuper : rt.npClassGetSuperMethod tree cls sel with
              | none =>
                  rw [hsuper] at habove
                  rw [← habove]
                  cases installed cls sel <;> exact h
              | some m =>
                  rw [hsuper] at habove
                  rw [← habove]
                  cases hown : installed cls sel with
                  | none =>
                      refine represents_classAddMethod h (.override code cls sel) _ (.override code)
                        hown (fun blocks => ⟨_, rfl, List.getElem?_concat_length⟩) fun _ _ => ?_
                      simpa using habove.symm
                  | some layers =>
                      have hadd := classAddMethod_not_added (.override code cls sel)
                        (some (types.getD m.types)) (h.isSome_method hown)
                      dsimp only
                      rw [hadd]
                      exact represents_implementationWithBlock h _

/-! ## Sends -/

/-- Some steps lead from one point of a send to another. -/
def Leads (tree : ClassTree κ) (rt : Runtime κ σ β) (s s' : Sending κ σ β) : Prop :=
  ∃ n, (Sending.step tree rt)^[n] s = s'

omit [DecidableEq κ] in
theorem leads_step {s s' : Sending κ σ β} (h : s.step tree rt = s') : Leads tree rt s s' := ⟨1, h⟩

omit [DecidableEq κ] in
theorem Leads.trans {s s' s'' : Sending κ σ β} (h : Leads tree rt s s')
    (h' : Leads tree rt s' s'') : Leads tree rt s s'' := by
  obtain ⟨n, rfl⟩ := h
  obtain ⟨n', rfl⟩ := h'
  exact ⟨n' + n, Function.iterate_add_apply _ n' n s⟩

/-- Where a send is after a base entry has run. -/
def afterBase (tree : ClassTree κ) (cls : κ) (sel : σ) : Base β → List β → Sending κ σ β
  | .plain code, ran => ⟨.returned, ran ++ [code]⟩
  | .override code, ran => ⟨.searching sel (tree.ancestors cls), ran ++ [code]⟩

omit [DecidableEq κ] in
/-- The layers are run from the top down to the base. -/
theorem leads_chain {cls : κ} {sel : σ} {base : Base β} {replaced : List β} {imp : Imp β}
    (h : Chain rt.blocks cls sel base replaced imp) (ran : List β) :
    Leads tree rt ⟨.entering imp, ran⟩ (afterBase tree cls sel base (ran ++ replaced)) := by
  induction replaced generalizing imp ran with
  | nil =>
      rw [List.append_nil]
      refine leads_step ?_
      cases base with
      | plain code =>
          rcases h with rfl | ⟨n, rfl, hn⟩
          · rfl
          · simp only [Sending.step, hn]
            rfl
      | override code =>
          obtain ⟨n, rfl, hn⟩ := h
          simp only [Sending.step, hn]
          rfl
  | cons code replaced ih =>
      obtain ⟨n, next, rfl, hn, hrest⟩ := h
      have hrun : Sending.step tree rt ⟨.entering (.block n), ran⟩
          = ⟨.overloading n, ran ++ [code]⟩ := by simp only [Sending.step, hn]
      have hcall : Sending.step tree rt ⟨.overloading n, ran ++ [code]⟩
          = ⟨.entering next, ran ++ [code]⟩ := by simp only [Sending.step, hn]
      have htail := ih hrest (ran ++ [code])
      rw [List.append_assoc] at htail
      exact ((leads_step hrun).trans (leads_step hcall)).trans htail

omit [DecidableEq κ] in
/-- A class without the method is passed over. -/
theorem leads_searching_none {cls : κ} {above : List κ} {sel : σ} {ran ran' : List β}
    (hnone : rt.npClassGetOwnMethod cls sel = none)
    (h : Leads tree rt ⟨.searching sel above, ran⟩ ⟨.returned, ran'⟩) :
    Leads tree rt ⟨.searching sel (cls :: above), ran⟩ ⟨.returned, ran'⟩ := by
  obtain ⟨n, hn⟩ := h
  -- the first step is the whole lookup, so it does not matter where that begins
  have hsame : Sending.step tree rt ⟨.searching sel (cls :: above), ran⟩
      = Sending.step tree rt ⟨.searching sel above, ran⟩ := by
    simp only [Sending.step, Runtime.lookUp, List.findSome?_cons, hnone]
  cases n with
  | zero => exact absurd (congrArg Sending.control hn) (by simp)
  | succ n =>
      refine ⟨n + 1, ?_⟩
      rw [Function.iterate_succ_apply] at hn ⊢
      rw [hsame]
      exact hn

omit [DecidableEq κ] in
/-- A lookup in the classes of a lineage runs what is installed there. -/
theorem leads_searching (h : Represents tree rt installed) (sel : σ) {classes : List κ}
    (hlineage : tree.Lineage classes) {ran blocks : List β}
    (hblocks : installed.blocksRun sel classes = some blocks) :
    Leads tree rt ⟨.searching sel classes, ran⟩ ⟨.returned, ran ++ blocks⟩ := by
  induction classes generalizing ran blocks with
  | nil => exact absurd hblocks (by simp [Installed.blocksRun])
  | cons cls above ih =>
      obtain ⟨habove, hlineage⟩ := hlineage
      unfold Installed.blocksRun at hblocks
      cases hlayers : installed cls sel with
      | none =>
          rw [hlayers] at hblocks
          exact leads_searching_none (h.no_method hlayers) (ih hlineage hblocks)
      | some layers =>
          rw [hlayers] at hblocks
          obtain ⟨m, hm⟩ := Option.isSome_iff_exists.mp (h.isSome_method hlayers)
          have hfound : Sending.step tree rt ⟨.searching sel (cls :: above), ran⟩
              = ⟨.entering m.imp, ran⟩ := by
            simp only [Sending.step, Runtime.lookUp, List.findSome?_cons, hm]
          refine (leads_step hfound).trans ((leads_chain (h.chain hm hlayers) ran).trans ?_)
          obtain ⟨replaced, base⟩ := layers
          cases base with
          | plain code =>
              obtain rfl := Option.some.inj hblocks
              exact ⟨0, by simp [afterBase]⟩
          | override code =>
              -- the classes that follow are the ones `objc_msgSendSuper2` looks in
              obtain ⟨rest, hrest, rfl⟩ := Option.map_eq_some_iff.mp hblocks
              have htail : Leads tree rt ⟨.searching sel above, ran ++ replaced ++ [code]⟩
                  ⟨.returned, ran ++ replaced ++ [code] ++ rest⟩ := ih hlineage hrest
              simpa [afterBase, habove] using htail

omit [DecidableEq κ] in
/-- Where a class has the method, a send comes down to a base that does not call on. -/
theorem blocksRun_isSome (h : Represents tree rt installed) (sel : σ) {classes : List κ}
    (hlineage : tree.Lineage classes)
    (hsome : (classes.any fun c => (installed c sel).isSome) = true) :
    ∃ blocks, installed.blocksRun sel classes = some blocks := by
  induction classes with
  | nil => exact absurd hsome (by simp)
  | cons cls above ih =>
      obtain ⟨habove, hlineage⟩ := hlineage
      unfold Installed.blocksRun
      cases hlayers : installed cls sel with
      | none =>
          rw [List.any_cons, hlayers] at hsome
          exact ih hlineage hsome
      | some layers =>
          obtain ⟨replaced, base⟩ := layers
          cases base with
          | plain code => exact ⟨_, rfl⟩
          | override code =>
              -- a method above, which was there at the installation and cannot have gone
              obtain ⟨c, hc, hsome'⟩ := h.above hlayers
              rw [← habove] at hc
              obtain ⟨rest, hrest⟩ := ih hlineage (List.any_eq_true.mpr ⟨c, hc, hsome'⟩)
              exact ⟨_, by rw [hrest]; rfl⟩

omit [DecidableEq κ] in
/-- A send has one end. -/
theorem leads_unique {s t t' : Sending κ σ β} (ht : t.step tree rt = t) (ht' : t'.step tree rt = t')
    (h : Leads tree rt s t) (h' : Leads tree rt s t') : t = t' := by
  obtain ⟨n, hn⟩ := h
  obtain ⟨n', hn'⟩ := h'
  have hlater : ∀ {t : Sending κ σ β} {n : ℕ} (m : ℕ), t.step tree rt = t →
      (Sending.step tree rt)^[n] s = t → (Sending.step tree rt)^[m + n] s = t := by
    intro t n m ht hn
    rw [Function.iterate_add_apply, hn]
    exact Function.iterate_fixed ht m
  rw [← hlater n' ht hn, Nat.add_comm, hlater n ht' hn']

omit [DecidableEq κ] in
/-- What a send runs is what the layers say. -/
theorem runs_iff (h : Represents tree rt installed) (cls : κ) (sel : σ) (ran : List β) :
    Runs tree rt cls sel ran
      ↔ installed.blocksRun sel (cls :: tree.ancestors cls) = some ran := by
  have hlineage : tree.Lineage (cls :: tree.ancestors cls) := tree.lineage_ancestors rfl
  constructor
  · intro hruns
    cases hsome : (cls :: tree.ancestors cls).any fun c => (installed c sel).isSome with
    | false =>
        -- nothing is found, and there the send ends
        have hnone : rt.lookUp (cls :: tree.ancestors cls) sel = none := by
          rw [← isSome_lookUp fun c => h.owned c sel] at hsome
          exact Option.isNone_iff_eq_none.mp (Option.isSome_eq_false_iff.mp hsome)
        have hend : Leads tree rt (Sending.start tree cls sel) ⟨.unrecognized, []⟩ := by
          refine leads_step ?_
          simp only [Sending.start, Sending.step, hnone]
        have heq := leads_unique (t := ⟨.returned, ran⟩) rfl rfl hruns hend
        exact absurd (congrArg Sending.control heq) (by simp)
    | true =>
        obtain ⟨blocks, hblocks⟩ := blocksRun_isSome h sel hlineage hsome
        have hend : Leads tree rt (Sending.start tree cls sel) ⟨.returned, [] ++ blocks⟩ :=
          leads_searching h sel hlineage hblocks
        have heq := leads_unique (t := ⟨.returned, ran⟩) rfl rfl hruns hend
        have hran : ran = [] ++ blocks := congrArg Sending.ran heq
        rw [hblocks, hran, List.nil_append]
  · intro hblocks
    exact leads_searching h sel hlineage hblocks

/-! ## Installations that do not apply -/

/-- A method to be replaced is there; one to be added or overridden is not, and for the latter
there is one above. -/
def Runtime.applies (tree : ClassTree κ) (rt : Runtime κ σ β) (i : Installation κ σ β) : Bool :=
  match i.cls, i.sel with
  | some cls, some sel =>
      match i.kind with
      | .add => (rt.npClassGetOwnMethod cls sel).isNone
      | .replace => (rt.npClassGetOwnMethod cls sel).isSome
      | .override =>
          (rt.npClassGetOwnMethod cls sel).isNone && (rt.npClassGetSuperMethod tree cls sel).isSome
  | _, _ => false

theorem install_of_not_applies {i : Installation κ σ β} (h : rt.applies tree i = false) :
    (install tree rt i).methods = rt.methods ∧ Grown rt.blocks (install tree rt i).blocks := by
  have hsame : rt.methods = rt.methods ∧ Grown rt.blocks rt.blocks := ⟨rfl, fun _ _ hn _ => hn⟩
  obtain ⟨kind, cls, sel, types, code⟩ := i
  cases cls with
  | none => cases kind <;> exact hsame
  | some cls =>
      cases sel with
      | none => cases kind <;> exact hsame
      | some sel =>
          unfold Runtime.applies at h
          cases kind with
          | add =>
              dsimp only at h
              dsimp only [install, Runtime.npClassAddMethod]
              rw [classAddMethod_not_added _ _ (by simpa using h)]
              exact ⟨rfl, grown_append _ _⟩
          | replace =>
              dsimp only at h
              have hnone := Option.isNone_iff_eq_none.mp (Option.isSome_eq_false_iff.mp h)
              dsimp only [install, Runtime.npClassReplaceMethod]
              rw [hnone]
              exact hsame
          | override =>
              dsimp only at h
              dsimp only [install, Runtime.npClassOverrideMethod]
              cases hsuper : rt.npClassGetSuperMethod tree cls sel with
              | none => exact hsame
              | some m =>
                  have hsome : (rt.npClassGetOwnMethod cls sel).isSome = true := by
                    simpa [hsuper] using h
                  dsimp only
                  rw [classAddMethod_not_added _ _ hsome]
                  exact ⟨rfl, grown_append _ _⟩

/-- All of them, in order. -/
def installAll (tree : ClassTree κ) (own : κ → List (σ × String × β))
    (installs : List (Installation κ σ β)) : Runtime κ σ β :=
  installs.foldl (install tree) (.initial own)

def Installed.all (tree : ClassTree κ) (own : κ → List (σ × String × β))
    (installs : List (Installation κ σ β)) : Installed κ σ β :=
  installs.foldl (fun installed i => installed.install tree i) (.initial own)

theorem represents_all (tree : ClassTree κ) (own : κ → List (σ × String × β))
    (installs : List (Installation κ σ β)) :
    Represents tree (installAll tree own installs) (.all tree own installs) := by
  induction installs using List.reverseRecOn with
  | nil => exact represents_initial tree own
  | append_singleton installs i ih =>
      unfold installAll Installed.all
      rw [List.foldl_append, List.foldl_append]
      exact represents_install ih i

/-- Whatever was installed, a send to a class that responds comes to its end, never through a null
`_np_next_imp` or to a selector that is not recognized, and runs just the blocks of the layers; and
an installation that does not apply changes neither the methods nor what any send runs. -/
theorem sends_run_layers (tree : ClassTree κ) (own : κ → List (σ × String × β))
    (installs : List (Installation κ σ β)) :
    (∀ cls sel, ((installAll tree own installs).classGetInstanceMethod tree cls sel).isSome = true →
      ∃ blocks, (Installed.all tree own installs).blocksRun sel (cls :: tree.ancestors cls)
          = some blocks
        ∧ (∀ ran, Runs tree (installAll tree own installs) cls sel ran ↔ ran = blocks)
        ∧ ∀ n, ((Sending.step tree (installAll tree own installs))^[n]
            (Sending.start tree cls sel)).control ≠ .calledNull
          ∧ ((Sending.step tree (installAll tree own installs))^[n]
            (Sending.start tree cls sel)).control ≠ .unrecognized)
    ∧ ∀ i, (installAll tree own installs).applies tree i = false →
      (install tree (installAll tree own installs) i).methods = (installAll tree own installs).methods
      ∧ ∀ cls sel ran, Runs tree (install tree (installAll tree own installs) i) cls sel ran
          ↔ Runs tree (installAll tree own installs) cls sel ran := by
  have h := represents_all tree own installs
  refine ⟨fun cls sel hresponds => ?_, fun i hi => ?_⟩
  · have hsome : ((cls :: tree.ancestors cls).any fun c =>
        (Installed.all tree own installs c sel).isSome) = true := by
      rw [← isSome_lookUp fun c => h.owned c sel]
      exact hresponds
    obtain ⟨blocks, hblocks⟩ := blocksRun_isSome h sel (tree.lineage_ancestors rfl) hsome
    have hruns := (runs_iff h cls sel blocks).mpr hblocks
    refine ⟨blocks, hblocks, fun ran => ?_, fun n => ?_⟩
    · rw [runs_iff h, hblocks, Option.some.injEq, eq_comm]
    · -- from a bad end there is no way to the good one
      have hbad : ∀ control, (∀ ran : List β, Sending.step tree (installAll tree own installs)
            ⟨control, ran⟩ = ⟨control, ran⟩) → control ≠ .returned →
          ((Sending.step tree (installAll tree own installs))^[n]
            (Sending.start tree cls sel)).control ≠ control := by
        intro control hfixed hne heq
        have hend : Leads tree (installAll tree own installs) (Sending.start tree cls sel)
            ⟨control, ((Sending.step tree (installAll tree own installs))^[n]
              (Sending.start tree cls sel)).ran⟩ := by
          refine ⟨n, ?_⟩
          rw [← heq]
        have hcontrol := leads_unique (t := ⟨.returned, blocks⟩) rfl (hfixed _) hruns hend
        exact hne (congrArg Sending.control hcontrol).symm
      exact ⟨hbad _ (fun _ => rfl) (by simp), hbad _ (fun _ => rfl) (by simp)⟩
  · obtain ⟨hmethods, hgrown⟩ := install_of_not_applies hi
    refine ⟨hmethods, fun cls sel ran => ?_⟩
    have h' : Represents tree (install tree (installAll tree own installs) i)
        (.all tree own installs) :=
      h.grown (fun c s => by rw [Runtime.npClassGetOwnMethod, hmethods]; rfl) hgrown
    rw [runs_iff h', runs_iff h]

/-- A class and its subclass. -/
def subclassTree : ClassTree Bool where
  superclass cls := if cls then some false else none
  ancestors cls := if cls then [false] else []
  ancestors_eq := by decide

/-- The subclass overrides, both replace, and the superclass only after that. -/
def overrideThenReplace : List (Installation Bool Unit String) :=
  [⟨.override, some true, some (), none, "override"⟩, ⟨.replace, some true, some (), none, "first"⟩,
    ⟨.replace, some true, some (), none, "second"⟩, ⟨.replace, some false, some (), none, "above"⟩]

/-- A compiled method of the superclass. -/
def superclassMethod : Bool → List (Unit × String × String)
  | false => [((), "v@:", "code")]
  | true => []

/-- A send to the subclass; and an addition where there is a method already. -/
theorem sends_run_layers_subclass :
    Runs subclassTree (installAll subclassTree superclassMethod overrideThenReplace) true ()
      ["second", "first", "override", "above", "code"]
    ∧ ∀ ran, Runs subclassTree (install subclassTree
        (installAll subclassTree superclassMethod overrideThenReplace)
        ⟨.add, some false, some (), none, "late"⟩) true () ran
      ↔ Runs subclassTree (installAll subclassTree superclassMethod overrideThenReplace) true ()
        ran := by
  obtain ⟨hsends, hinapplicable⟩ :=
    sends_run_layers subclassTree superclassMethod overrideThenReplace
  refine ⟨?_, ?_⟩
  · obtain ⟨blocks, hblocks, hruns, -⟩ := hsends true () rfl
    rw [hruns]
    exact Option.some.inj hblocks
  · obtain ⟨-, hsame⟩ := hinapplicable ⟨.add, some false, some (), none, "late"⟩ rfl
    exact hsame true ()

end ObjC

end NPFoundation
