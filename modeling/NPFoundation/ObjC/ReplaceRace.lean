import NPFoundation.Lib.Run
import NPFoundation.ObjC.Chains

/-!
# Replacing a method while it is called

`NP_CLASS_REPLACEMETHOD` takes four steps: it looks the method up, makes the block callable,
puts it in place of the method, and assigns `_np_next_imp`. On other threads the selector is
sent all the while. Between the last two steps the block can be called, and what it calls
through to is null.

A send that does not look the selector up in that window is not disturbed by the replacement:
it runs what was there before, or what is there after it. And a send that does has a
continuation in which it calls null.
-/

namespace NPFoundation

namespace ObjC

open Transition

variable {κ σ β τ : Type}

/-- How far `NP_CLASS_REPLACEMETHOD` got. -/
inductive Installer (σ β : Type) where
  | begin
  /-- The own method was looked up. -/
  | found (m : Method σ β)
  /-- `imp_implementationWithBlock`. -/
  | made (m : Method σ β) (imp : Imp β)
  /-- `class_replaceMethod`, and what it returned. -/
  | replaced (imp : Imp β) (next : Option (Imp β))
  | done
  deriving DecidableEq, Repr

/-- The arguments of the macro, and the classes. -/
structure Replacement (κ σ β : Type) where
  tree : ClassTree κ
  cls : κ
  sel : σ
  types : Option String
  code : β

structure Race (κ σ β τ : Type) where
  runtime : Runtime κ σ β
  installer : Installer σ β
  /-- The send on each thread, if there was one, and the class of the receiver. -/
  sends : τ → Option (κ × Sending κ σ β)

inductive RaceAction (κ τ : Type) where
  /-- The next step of the installation. -/
  | install
  /-- A thread sends the selector to an instance of a class. -/
  | send (t : τ) (cls : κ)
  /-- The next step of its send. -/
  | go (t : τ)
  deriving DecidableEq, Repr

/-- The send has come to an end. -/
def Control.ended : Control κ σ β → Bool
  | .returned | .calledNull | .unrecognized => true
  | _ => false

section

variable [DecidableEq κ] [DecidableEq σ] [DecidableEq τ]

/-- The next step of the installation. -/
def installStep (r : Replacement κ σ β) (rt : Runtime κ σ β) :
    Installer σ β → Option (Runtime κ σ β × Installer σ β)
  | .begin =>
      match rt.npClassGetOwnMethod r.cls r.sel with
      | some m => some (rt, .found m)
      | none => some (rt, .done)
  | .found m =>
      let (rt, imp) := rt.implementationWithBlock (.replace r.code none)
      some (rt, .made m imp)
  | .made m imp =>
      let (rt, next) := rt.classReplaceMethod r.cls r.sel imp (some (r.types.getD m.types))
      some (rt, .replaced imp next)
  | .replaced imp next => some (rt.assignNextImp imp next, .done)
  | .done => none

/-- The threads take turns. A selector is sent to what responds to it. -/
def Race.step (r : Replacement κ σ β) (w : Race κ σ β τ) :
    RaceAction κ τ → Option (Race κ σ β τ)
  | .install =>
      (installStep r w.runtime w.installer).map fun next =>
        { w with runtime := next.1, installer := next.2 }
  | .send t cls =>
      if (w.sends t).all (fun s => s.2.control.ended)
          && (w.runtime.classGetInstanceMethod r.tree cls r.sel).isSome
      then
        some { w with
          sends := fun t' => if t' = t then some (cls, .start r.tree cls r.sel) else w.sends t' }
      else none
  | .go t =>
      match w.sends t with
      | none => none
      | some (cls, s) =>
          if s.control.ended then none
          else
            some { w with
              sends := fun t' =>
                if t' = t then some (cls, s.step r.tree w.runtime) else w.sends t' }

/-- No send finds the block before its `_np_next_imp` is assigned. -/
def Race.InTime (w : Race κ σ β τ) : RaceAction κ τ → Prop
  | .go t =>
      ∀ cls sel classes ran imp next, w.sends t = some (cls, ⟨.searching sel classes, ran⟩) →
        w.installer = .replaced imp next →
        (w.runtime.lookUp classes sel).map Method.imp ≠ some imp
  | _ => True

/-- Before the replacement, and with no sends. -/
def Race.start (rt : Runtime κ σ β) : Race κ σ β τ := ⟨rt, .begin, fun _ => none⟩

/-- Without sends in between, the four steps are the macro. -/
theorem installStep_eq_macro (r : Replacement κ σ β) (rt : Runtime κ σ β) {m : Method σ β}
    (h : rt.npClassGetOwnMethod r.cls r.sel = some m) :
    ∃ rt₁ rt₂ imp next, installStep r rt .begin = some (rt, .found m)
      ∧ installStep r rt (.found m) = some (rt₁, .made m imp)
      ∧ installStep r rt₁ (.made m imp) = some (rt₂, .replaced imp next)
      ∧ installStep r rt₂ (.replaced imp next)
        = some (rt.npClassReplaceMethod (some r.cls) (some r.sel) r.types r.code, .done) := by
  refine ⟨_, _, _, _, ?_, rfl, rfl, ?_⟩
  · simp only [installStep, h]
  · simp only [installStep, Runtime.npClassReplaceMethod, h]
    rfl

end

/-! ## What is above a class -/

theorem ClassTree.length_ancestors_lt (tree : ClassTree κ) {classes : List κ} {cls : κ}
    (h : tree.Lineage classes) (hmem : cls ∈ classes) :
    (tree.ancestors cls).length < classes.length := by
  induction classes with
  | nil => exact absurd hmem (by simp)
  | cons c above ih =>
      rcases List.mem_cons.mp hmem with rfl | hmem
      · rw [← h.1]
        exact Nat.lt_succ_self _
      · exact Nat.lt_succ_of_lt (ih h.2 hmem)

theorem ClassTree.not_mem_ancestors (tree : ClassTree κ) (cls : κ) : cls ∉ tree.ancestors cls := by
  intro hmem
  have hlineage : tree.Lineage (cls :: tree.ancestors cls) := tree.lineage_ancestors rfl
  exact Nat.lt_irrefl _ (tree.length_ancestors_lt hlineage.2 hmem)

variable {tree : ClassTree κ} {A B : Installed κ σ β} {sel : σ}

theorem blocksRun_congr {classes : List κ} (h : ∀ c ∈ classes, B c sel = A c sel) :
    B.blocksRun sel classes = A.blocksRun sel classes := by
  induction classes with
  | nil => rfl
  | cons c above ih =>
      rw [Installed.blocksRun, Installed.blocksRun, h c List.mem_cons_self,
        ih fun c' hc' => h c' (List.mem_cons_of_mem c hc')]

/-- Where something is run, some class has the method. -/
theorem any_of_blocksRun {classes : List κ} {rest : List β}
    (h : A.blocksRun sel classes = some rest) :
    (classes.any fun c => (A c sel).isSome) = true := by
  induction classes generalizing rest with
  | nil => exact absurd h (by simp [Installed.blocksRun])
  | cons c above ih =>
      rw [List.any_cons]
      cases hlayers : A c sel with
      | some layers => rfl
      | none =>
          rw [Installed.blocksRun, hlayers] at h
          exact ih h

/-! ## A send that is not disturbed -/

section

variable (tree A B sel) (good : List β → Prop)

/-- Whichever of the two is installed, what is found in these classes makes the send a good one. -/
structure Ahead (classes : List κ) (ran : List β) : Prop where
  lineage : tree.Lineage classes
  left : ∃ rest, A.blocksRun sel classes = some rest ∧ good (ran ++ rest)
  right : ∃ rest, B.blocksRun sel classes = some rest ∧ good (ran ++ rest)

/-- What is called from here on makes it one. -/
def Follows (blocks : List (Block κ σ β)) (imp : Imp β) (ran : List β) : Prop :=
  ∃ c base replaced, Chain blocks c sel base replaced imp ∧
    match base with
    | .plain code => good (ran ++ replaced ++ [code])
    | .override code => Ahead tree A B sel good (tree.ancestors c) (ran ++ replaced ++ [code])

/-- Wherever the send is. -/
def OnTrack (blocks : List (Block κ σ β)) (s : Sending κ σ β) : Prop :=
  match s.control with
  | .searching sel' classes => sel' = sel ∧ Ahead tree A B sel good classes s.ran
  | .entering imp => Follows tree A B sel good blocks imp s.ran
  | .overloading n => ∃ code next, blocks[n]? = some (.replace code (some next))
      ∧ Follows tree A B sel good blocks next s.ran
  | .returned => good s.ran
  | .calledNull | .unrecognized => False

end

variable {good : List β → Prop} {blocks blocks' : List (Block κ σ β)} {imp : Imp β} {ran : List β}
  {s : Sending κ σ β}

theorem Ahead.symm {classes : List κ} (h : Ahead tree A B sel good classes ran) :
    Ahead tree B A sel good classes ran :=
  ⟨h.lineage, h.right, h.left⟩

theorem Follows.symm (h : Follows tree A B sel good blocks imp ran) :
    Follows tree B A sel good blocks imp ran := by
  obtain ⟨c, base, replaced, hchain, hbase⟩ := h
  refine ⟨c, base, replaced, hchain, ?_⟩
  cases base with
  | plain code => exact hbase
  | override code => exact hbase.symm

theorem Follows.grown (hgrown : Grown blocks blocks')
    (h : Follows tree A B sel good blocks imp ran) :
    Follows tree A B sel good blocks' imp ran := by
  obtain ⟨c, base, replaced, hchain, hbase⟩ := h
  exact ⟨c, base, replaced, hchain.grown hgrown, hbase⟩

/-- New blocks do not matter to a send that is under way. -/
theorem OnTrack.grown (hgrown : Grown blocks blocks') (h : OnTrack tree A B sel good blocks s) :
    OnTrack tree A B sel good blocks' s := by
  obtain ⟨control, ran⟩ := s
  cases control with
  | searching sel' classes => exact h
  | entering imp => exact Follows.grown hgrown h
  | overloading n =>
      obtain ⟨code, next, hn, hnext⟩ := h
      exact ⟨code, next, hgrown n _ hn (by simp), hnext.grown hgrown⟩
  | returned => exact h
  | calledNull => exact h
  | unrecognized => exact h

section

variable [DecidableEq σ] {rt : Runtime κ σ β}

/-- A lookup stops at a class that has the method, and the classes it passed have nothing. -/
theorem lookUp_split {classes : List κ} {m : Method σ β} (hlineage : tree.Lineage classes)
    (h : rt.lookUp classes sel = some m) :
    ∃ c, rt.npClassGetOwnMethod c sel = some m ∧ ∀ installed : Installed κ σ β,
      (∀ c, (rt.npClassGetOwnMethod c sel).isSome = (installed c sel).isSome) →
      installed.blocksRun sel classes = installed.blocksRun sel (c :: tree.ancestors c) := by
  induction classes with
  | nil => exact absurd h (by simp [Runtime.lookUp])
  | cons c above ih =>
      rw [Runtime.lookUp, List.findSome?_cons] at h
      cases hown : rt.npClassGetOwnMethod c sel with
      | some m' =>
          rw [hown] at h
          obtain rfl := Option.some.inj h
          refine ⟨c, hown, fun installed _ => ?_⟩
          rw [hlineage.1]
      | none =>
          rw [hown] at h
          obtain ⟨c', hown', hsplit⟩ := ih hlineage.2 h
          refine ⟨c', hown', fun installed howned => ?_⟩
          have hnone := howned c
          rw [hown] at hnone
          rw [← hsplit installed howned, Installed.blocksRun,
            Option.isNone_iff_eq_none.mp (Option.isSome_eq_false_iff.mp hnone.symm)]

/-- Entering an implementation runs its block. -/
theorem onTrack_entering (h : Follows tree A B sel good rt.blocks imp ran) :
    OnTrack tree A B sel good rt.blocks (Sending.step tree rt ⟨.entering imp, ran⟩) := by
  obtain ⟨c, base, replaced, hchain, hbase⟩ := h
  cases replaced with
  | nil =>
      rw [List.append_nil] at hbase
      cases base with
      | plain code =>
          rcases hchain with rfl | ⟨n, rfl, hn⟩
          · exact hbase
          · simp only [Sending.step, hn]
            exact hbase
      | override code =>
          obtain ⟨n, rfl, hn⟩ := hchain
          simp only [Sending.step, hn]
          exact ⟨rfl, hbase⟩
  | cons code replaced =>
      obtain ⟨n, next, rfl, hn, hrest⟩ := hchain
      simp only [Sending.step, hn]
      refine ⟨code, next, hn, c, base, replaced, hrest, ?_⟩
      cases base with
      | plain code' => simpa using hbase
      | override code' => simpa using hbase

/-- What a lookup finds, if what it finds is complete: `A` is what is installed, and `B` differs
from it in one class only. -/
theorem follows_of_lookUp {cls : κ} {classes : List κ} {m : Method σ β}
    (hA : ∀ c, (rt.npClassGetOwnMethod c sel).isSome = (A c sel).isSome)
    (hB : ∀ c, (rt.npClassGetOwnMethod c sel).isSome = (B c sel).isSome)
    (hagree : ∀ c, c ≠ cls → B c sel = A c sel)
    (hchain : ∀ c layers, rt.npClassGetOwnMethod c sel = some m → A c sel = some layers →
      Chain rt.blocks c sel layers.base layers.replaced m.imp)
    (hm : rt.lookUp classes sel = some m) (h : Ahead tree A B sel good classes ran) :
    Follows tree A B sel good rt.blocks m.imp ran := by
  obtain ⟨c, hown, hsplit⟩ := lookUp_split h.lineage hm
  obtain ⟨⟨replaced, base⟩, hlayers⟩ : ∃ layers, A c sel = some layers := by
    refine Option.isSome_iff_exists.mp ?_
    rw [← hA, hown]
    rfl
  refine ⟨c, base, replaced, hchain c _ hown hlayers, ?_⟩
  obtain ⟨restA, hrestA, hgoodA⟩ := h.left
  rw [hsplit A hA, Installed.blocksRun, hlayers] at hrestA
  cases base with
  | plain code =>
      obtain rfl := Option.some.inj hrestA
      simpa using hgoodA
  | override code =>
      obtain ⟨rest, hrest, rfl⟩ := Option.map_eq_some_iff.mp hrestA
      have hlineage : tree.Lineage (c :: tree.ancestors c) := tree.lineage_ancestors rfl
      refine ⟨hlineage.2, ⟨rest, hrest, by simpa using hgoodA⟩, ?_⟩
      by_cases hmem : cls ∈ tree.ancestors c
      · -- the class that differs is still to come, so this is not the one
        have hne : c ≠ cls := by
          rintro rfl
          exact tree.not_mem_ancestors c hmem
        obtain ⟨restB, hrestB, hgoodB⟩ := h.right
        rw [hsplit B hB, Installed.blocksRun, hagree c hne, hlayers] at hrestB
        obtain ⟨rest', hrest', rfl⟩ := Option.map_eq_some_iff.mp hrestB
        exact ⟨rest', hrest', by simpa using hgoodB⟩
      · have hsame : B.blocksRun sel (tree.ancestors c) = A.blocksRun sel (tree.ancestors c) := by
          refine blocksRun_congr fun c' hc' => hagree c' ?_
          rintro rfl
          exact hmem hc'
        exact ⟨rest, hsame.trans hrest, by simpa using hgoodA⟩

end

/-! ## The runtime during the installation -/

variable [DecidableEq κ] [DecidableEq σ]

section

variable (r : Replacement κ σ β) (rt : Runtime κ σ β) (m : Method σ β)

/-- With the block made. -/
def Replacement.withBlock : Runtime κ σ β := (rt.implementationWithBlock (.replace r.code none)).1

/-- With the block in place, and its `_np_next_imp` not assigned. -/
def Replacement.inWindow : Runtime κ σ β :=
  ((r.withBlock rt).classReplaceMethod r.cls r.sel (.block rt.blocks.length)
    (some (r.types.getD m.types))).1

/-- With everything done. -/
def Replacement.after : Runtime κ σ β :=
  rt.npClassReplaceMethod (some r.cls) (some r.sel) r.types r.code

/-- Only the installation changes the runtime, so it says what the runtime is. -/
inductive Phase : Runtime κ σ β → Installer σ β → Prop where
  | begin : Phase rt .begin
  | found : Phase rt (.found m)
  | made : Phase (r.withBlock rt) (.made m (.block rt.blocks.length))
  | replaced : Phase (r.inWindow rt m) (.replaced (.block rt.blocks.length) (some m.imp))
  | done : Phase (r.after rt) .done

end

variable {r : Replacement κ σ β} {rt rt' rt'' : Runtime κ σ β} {m : Method σ β}
  {installer installer' : Installer σ β} {layers : Layers β}

/-- The block in the window: it has no `_np_next_imp`. -/
theorem inWindow_spec (hm : rt.npClassGetOwnMethod r.cls r.sel = some m) :
    (r.inWindow rt m).blocks = rt.blocks ++ [.replace r.code none]
    ∧ ∀ c s, (r.inWindow rt m).npClassGetOwnMethod c s
        = if c = r.cls ∧ s = r.sel then some { m with imp := .block rt.blocks.length }
          else rt.npClassGetOwnMethod c s := by
  have hm' : (r.withBlock rt).npClassGetOwnMethod r.cls r.sel = some m := hm
  obtain ⟨-, hblocks, hown⟩ := Runtime.classReplaceMethod_some hm' (.block rt.blocks.length)
    (some (r.types.getD m.types))
  exact ⟨hblocks, hown⟩

theorem after_blocks (hm : rt.npClassGetOwnMethod r.cls r.sel = some m) :
    r.after rt = (r.inWindow rt m).assignNextImp (.block rt.blocks.length) (some m.imp)
    ∧ (r.after rt).blocks = rt.blocks ++ [.replace r.code (some m.imp)] := by
  have heq : r.after rt
      = (r.inWindow rt m).assignNextImp (.block rt.blocks.length) (some m.imp) := by
    have hm' : (r.withBlock rt).npClassGetOwnMethod r.cls r.sel = some m := hm
    obtain ⟨hold, -, -⟩ := Runtime.classReplaceMethod_some hm' (.block rt.blocks.length)
      (some (r.types.getD m.types))
    rw [← hold]
    dsimp only [Replacement.after, Runtime.npClassReplaceMethod]
    rw [hm]
    rfl
  refine ⟨heq, ?_⟩
  rw [heq]
  exact (Runtime.blocks_assignNextImp _ rt.blocks r.code _ (inWindow_spec hm).1).1

theorem phase_step (hm : rt.npClassGetOwnMethod r.cls r.sel = some m)
    (h : Phase r rt m rt' installer)
    (hstep : installStep r rt' installer = some (rt'', installer')) :
    Phase r rt m rt'' installer' ∧ Grown rt'.blocks rt''.blocks := by
  cases h with
  | begin =>
      simp only [installStep, hm] at hstep
      obtain ⟨rfl, rfl⟩ := Prod.mk.inj (Option.some.inj hstep)
      exact ⟨.found, fun _ _ hn _ => hn⟩
  | found =>
      obtain ⟨rfl, rfl⟩ := Prod.mk.inj (Option.some.inj hstep)
      exact ⟨.made, grown_append _ _⟩
  | made =>
      have hm' : (r.withBlock rt).npClassGetOwnMethod r.cls r.sel = some m := hm
      obtain ⟨hold, hblocks, -⟩ := Runtime.classReplaceMethod_some hm' (.block rt.blocks.length)
        (some (r.types.getD m.types))
      have hnext : installStep r (r.withBlock rt) (.made m (.block rt.blocks.length))
          = some (r.inWindow rt m, .replaced (.block rt.blocks.length) (some m.imp)) := by
        rw [← hold]
        rfl
      rw [hnext] at hstep
      obtain ⟨rfl, rfl⟩ := Prod.mk.inj (Option.some.inj hstep)
      refine ⟨.replaced, fun n block hn _ => ?_⟩
      rw [Replacement.inWindow, hblocks]
      exact hn
  | replaced =>
      obtain ⟨rfl, rfl⟩ := Prod.mk.inj (Option.some.inj hstep)
      obtain ⟨heq, hblocks⟩ := after_blocks hm
      rw [← heq]
      refine ⟨.done, ?_⟩
      rw [hblocks, (inWindow_spec hm).1]
      -- all but the last block are the same
      intro n block hn hwaiting
      rcases Nat.lt_or_ge n rt.blocks.length with hlt | hge
      · rw [List.getElem?_append_left hlt] at hn ⊢
        exact hn
      · rw [List.getElem?_append_right hge] at hn
        obtain ⟨hlt, hget⟩ := List.getElem?_eq_some_iff.mp hn
        have hzero : n - rt.blocks.length = 0 := by
          rw [List.length_singleton] at hlt
          omega
        simp only [hzero, List.getElem_cons_zero] at hget
        exact absurd hget.symm (hwaiting r.code)
  | done => exact absurd hstep (by simp [installStep])

/-! ## Sends during the installation -/

/-- What is installed in the end. -/
abbrev Replacement.installed (r : Replacement κ σ β) (old : Installed κ σ β) (layers : Layers β) :
    Installed κ σ β :=
  old.put r.cls r.sel { layers with replaced := r.code :: layers.replaced }

variable {old : Installed κ σ β}

theorem represents_after (h : Represents r.tree rt old) (hlayers : old r.cls r.sel = some layers) :
    Represents r.tree (r.after rt) (r.installed old layers) :=
  represents_npClassReplaceMethod h r.types r.code hlayers

theorem installed_agrees (layers : Layers β) (c : κ) (hne : c ≠ r.cls) :
    r.installed old layers c r.sel = old c r.sel := by
  rw [Replacement.installed, Installed.put, if_neg (by simp [hne])]

/-- The same classes have the method all the time. -/
theorem phase_owned (h : Represents r.tree rt old)
    (hm : rt.npClassGetOwnMethod r.cls r.sel = some m) (hlayers : old r.cls r.sel = some layers)
    (hphase : Phase r rt m rt' installer) (c : κ) :
    (rt'.npClassGetOwnMethod c r.sel).isSome = (old c r.sel).isSome
    ∧ (rt'.npClassGetOwnMethod c r.sel).isSome = (r.installed old layers c r.sel).isSome := by
  have hsame : (r.installed old layers c r.sel).isSome = (old c r.sel).isSome := by
    by_cases hc : c = r.cls
    · rw [hc, hlayers, Replacement.installed, Installed.put, if_pos ⟨rfl, rfl⟩]
      rfl
    · rw [installed_agrees layers c hc]
  have hown : (rt'.npClassGetOwnMethod c r.sel).isSome = (old c r.sel).isSome := by
    cases hphase with
    | begin => exact h.owned c r.sel
    | found => exact h.owned c r.sel
    | made => exact h.owned c r.sel
    | replaced =>
        rw [(inWindow_spec hm).2]
        split
        · rename_i heq
          rw [heq.1, hlayers]
          rfl
        · exact h.owned c r.sel
    | done => rw [(represents_after h hlayers).owned, hsame]
  exact ⟨hown, hown.trans hsame.symm⟩

/-- What a lookup finds is complete, except in the window. -/
theorem onTrack_searching (h : Represents r.tree rt old)
    (hm : rt.npClassGetOwnMethod r.cls r.sel = some m) (hlayers : old r.cls r.sel = some layers)
    (hphase : Phase r rt m rt' installer) {good : List β → Prop} {classes : List κ} {ran : List β}
    (hintime : ∀ imp next, installer = .replaced imp next →
      (rt'.lookUp classes r.sel).map Method.imp ≠ some imp)
    (hahead : Ahead r.tree old (r.installed old layers) r.sel good classes ran) :
    OnTrack r.tree old (r.installed old layers) r.sel good rt'.blocks
      (Sending.step r.tree rt' ⟨.searching r.sel classes, ran⟩) := by
  have hold : ∀ c, (rt'.npClassGetOwnMethod c r.sel).isSome = (old c r.sel).isSome :=
    fun c => (phase_owned h hm hlayers hphase c).1
  have hnew : ∀ c, (rt'.npClassGetOwnMethod c r.sel).isSome
      = (r.installed old layers c r.sel).isSome :=
    fun c => (phase_owned h hm hlayers hphase c).2
  -- something is found, since something is run
  obtain ⟨found, hfound⟩ : ∃ found, rt'.lookUp classes r.sel = some found := by
    refine Option.isSome_iff_exists.mp ?_
    obtain ⟨rest, hrest, -⟩ := hahead.left
    rw [isSome_lookUp hold]
    exact any_of_blocksRun hrest
  simp only [Sending.step, hfound]
  rw [hfound, Option.map_some] at hintime
  change Follows _ _ _ _ _ _ found.imp ran
  cases hphase with
  | begin =>
      exact follows_of_lookUp hold hnew (installed_agrees layers) (fun _ _ => h.chain) hfound hahead
  | found =>
      exact follows_of_lookUp hold hnew (installed_agrees layers) (fun _ _ => h.chain) hfound hahead
  | made =>
      have h' := represents_implementationWithBlock h (.replace r.code none)
      exact follows_of_lookUp hold hnew (installed_agrees layers) (fun _ _ => h'.chain) hfound hahead
  | done =>
      have h' := represents_after h hlayers
      refine (follows_of_lookUp hnew hold (fun c (hc : c ≠ r.cls) => ?_) (fun _ _ => h'.chain)
        hfound hahead.symm).symm
      exact (installed_agrees layers c hc).symm
  | replaced =>
      refine follows_of_lookUp hold hnew (installed_agrees layers) (fun c layers' hown hc => ?_)
        hfound hahead
      obtain ⟨hblocks, howns⟩ := inWindow_spec hm
      rw [howns] at hown
      by_cases heq : c = r.cls
      · rw [if_pos ⟨heq, rfl⟩] at hown
        rw [← Option.some.inj hown] at hintime
        exact absurd rfl (hintime _ _ rfl)
      · rw [if_neg (by simp [heq])] at hown
        rw [hblocks]
        exact (h.chain hown hc).grown (grown_append _ _)

/-- A step of a send. -/
theorem onTrack_step (h : Represents r.tree rt old)
    (hm : rt.npClassGetOwnMethod r.cls r.sel = some m) (hlayers : old r.cls r.sel = some layers)
    (hphase : Phase r rt m rt' installer) {good : List β → Prop} {s : Sending κ σ β}
    (hintime : ∀ sel classes ran imp next, s = ⟨.searching sel classes, ran⟩ →
      installer = .replaced imp next → (rt'.lookUp classes sel).map Method.imp ≠ some imp)
    (hs : OnTrack r.tree old (r.installed old layers) r.sel good rt'.blocks s) :
    OnTrack r.tree old (r.installed old layers) r.sel good rt'.blocks (s.step r.tree rt') := by
  obtain ⟨control, ran⟩ := s
  cases control with
  | searching sel classes =>
      obtain ⟨rfl, hahead⟩ := hs
      exact onTrack_searching h hm hlayers hphase
        (fun imp next => hintime r.sel classes ran imp next rfl) hahead
  | entering imp => exact onTrack_entering hs
  | overloading n =>
      obtain ⟨code, next, hn, hnext⟩ := hs
      simp only [Sending.step, hn]
      exact hnext
  | returned => exact hs
  | calledNull => exact hs
  | unrecognized => exact hs

/-! ## All interleavings -/

/-- What a send to an instance of this class may run: what was there before, or what is there
after. -/
def Replacement.Undisturbed (r : Replacement κ σ β) (old new : Installed κ σ β) (cls : κ)
    (ran : List β) : Prop :=
  old.blocksRun r.sel (cls :: r.tree.ancestors cls) = some ran
  ∨ new.blocksRun r.sel (cls :: r.tree.ancestors cls) = some ran

/-- A send to an instance of the class itself runs the block before what was there. -/
theorem blocksRun_installed (hlayers : old r.cls r.sel = some layers) {original : List β}
    (h : old.blocksRun r.sel (r.cls :: r.tree.ancestors r.cls) = some original) :
    (r.installed old layers).blocksRun r.sel (r.cls :: r.tree.ancestors r.cls)
      = some (r.code :: original) := by
  have habove : (r.installed old layers).blocksRun r.sel (r.tree.ancestors r.cls)
      = old.blocksRun r.sel (r.tree.ancestors r.cls) := by
    refine blocksRun_congr fun c hc => installed_agrees layers c ?_
    rintro rfl
    exact r.tree.not_mem_ancestors _ hc
  have hput : r.installed old layers r.cls r.sel
      = some { layers with replaced := r.code :: layers.replaced } := by
    rw [Replacement.installed, Installed.put, if_pos ⟨rfl, rfl⟩]
  rw [Installed.blocksRun, hlayers] at h
  rw [Installed.blocksRun, hput, habove]
  obtain ⟨replaced, base⟩ := layers
  cases base with
  | plain code =>
      obtain rfl := Option.some.inj h
      rfl
  | override code =>
      obtain ⟨rest, hrest, rfl⟩ := Option.map_eq_some_iff.mp h
      rw [hrest]
      rfl

/-- The runtime is where the installation got to, and every send is on track. -/
structure Race.Callable (r : Replacement κ σ β) (rt : Runtime κ σ β) (m : Method σ β)
    (old : Installed κ σ β) (layers : Layers β) (w : Race κ σ β τ) : Prop where
  phase : Phase r rt m w.runtime w.installer
  onTrack : ∀ t cls s, w.sends t = some (cls, s) →
    OnTrack r.tree old (r.installed old layers) r.sel
      (r.Undisturbed old (r.installed old layers) cls) w.runtime.blocks s

theorem callable_start (r : Replacement κ σ β) (rt : Runtime κ σ β) (m : Method σ β)
    (old : Installed κ σ β) (layers : Layers β) :
    (Race.start rt : Race κ σ β τ).Callable r rt m old layers :=
  ⟨.begin, fun _ _ _ hs => absurd hs (by simp [Race.start])⟩

variable [DecidableEq τ]

theorem callable_step (h : Represents r.tree rt old)
    (hm : rt.npClassGetOwnMethod r.cls r.sel = some m) (hlayers : old r.cls r.sel = some layers)
    {w w' : Race κ σ β τ} {a : RaceAction κ τ} (hintime : w.InTime a)
    (hw : w.Callable r rt m old layers) (hstep : w.step r a = some w') :
    w'.Callable r rt m old layers := by
  cases a with
  | install =>
      obtain ⟨⟨rt'', installer'⟩, hnext, rfl⟩ := Option.map_eq_some_iff.mp hstep
      obtain ⟨hphase, hgrown⟩ := phase_step hm hw.phase hnext
      exact ⟨hphase, fun t cls s hs => (hw.onTrack t cls s hs).grown hgrown⟩
  | send t cls =>
      obtain ⟨henabled, hstep⟩ := Option.ite_none_right_eq_some.mp hstep
      obtain rfl := Option.some.inj hstep
      obtain ⟨-, hresponds⟩ := (Bool.and_eq_true _ _).mp henabled
      refine ⟨hw.phase, fun t' cls' s hs => ?_⟩
      dsimp only at hs
      split at hs
      · -- a new send, which has everything ahead
        obtain ⟨rfl, rfl⟩ := Prod.mk.inj (Option.some.inj hs)
        have hlineage : r.tree.Lineage (cls :: r.tree.ancestors cls) := r.tree.lineage_ancestors rfl
        have hold := isSome_lookUp (fun c => (phase_owned h hm hlayers hw.phase c).1)
          (cls :: r.tree.ancestors cls)
        have hnew := isSome_lookUp (fun c => (phase_owned h hm hlayers hw.phase c).2)
          (cls :: r.tree.ancestors cls)
        obtain ⟨before, hbefore⟩ := blocksRun_isSome h r.sel hlineage (hold.symm.trans hresponds)
        obtain ⟨after, hafter⟩ := blocksRun_isSome (represents_after h hlayers) r.sel hlineage
          (hnew.symm.trans hresponds)
        exact ⟨rfl, hlineage, ⟨before, hbefore, .inl hbefore⟩, ⟨after, hafter, .inr hafter⟩⟩
      · exact hw.onTrack t' cls' s hs
  | go t =>
      simp only [Race.step] at hstep
      cases hsend : w.sends t with
      | none =>
          rw [hsend] at hstep
          exact absurd hstep (by simp)
      | some pair =>
          obtain ⟨cls, s⟩ := pair
          rw [hsend] at hstep
          obtain ⟨-, hstep⟩ := Option.ite_none_left_eq_some.mp hstep
          obtain rfl := Option.some.inj hstep
          refine ⟨hw.phase, fun t' cls' s' hs' => ?_⟩
          dsimp only at hs'
          split at hs'
          · obtain ⟨rfl, rfl⟩ := Prod.mk.inj (Option.some.inj hs')
            refine onTrack_step h hm hlayers hw.phase ?_ (hw.onTrack t cls s hsend)
            rintro sel classes ran imp next rfl hinstaller
            exact hintime cls sel classes ran imp next hsend hinstaller
          · exact hw.onTrack t' cls' s' hs'

/-- A send that has not ended can go on. -/
theorem Race.go_some (r : Replacement κ σ β) {w : Race κ σ β τ} {t : τ} {cls : κ}
    {s : Sending κ σ β} (hs : w.sends t = some (cls, s)) (hended : s.control.ended = false) :
    ∃ w', w.step r (.go t) = some w' ∧ w'.runtime = w.runtime
      ∧ w'.sends t = some (cls, s.step r.tree w.runtime) := by
  refine ⟨{ w with
    sends := fun t' => if t' = t then some (cls, s.step r.tree w.runtime) else w.sends t' },
    ?_, rfl, if_pos rfl⟩
  simp only [Race.step, hs]
  rw [hended, if_neg (by simp)]

/-- A send that found the block in the window goes on to call null. -/
theorem calls_null (hm : rt.npClassGetOwnMethod r.cls r.sel = some m)
    {w w' : Race κ σ β τ} {a : RaceAction κ τ} (hw : w.Callable r rt m old layers)
    (hstep : w.step r a = some w') (hlate : ¬ w.InTime a) :
    ∃ as w'', run (Race.step r) w' as = some w''
      ∧ ∃ t cls ran, w''.sends t = some (cls, ⟨.calledNull, ran⟩) := by
  cases a with
  | install => exact absurd trivial hlate
  | send t cls => exact absurd trivial hlate
  | go t =>
      simp only [Race.InTime, not_forall, not_not] at hlate
      obtain ⟨cls, sel, classes, ran, imp, next, hsend, hinstaller, hfound⟩ := hlate
      -- the installation is in the window, and what was found is the block
      have hphase := hw.phase
      rw [hinstaller] at hphase
      obtain ⟨n, rfl, hblock⟩ : ∃ n, imp = .block n
          ∧ w.runtime.blocks[n]? = some (.replace r.code none) := by
        generalize hrt : w.runtime = rt' at hphase
        cases hphase with
        | replaced =>
            refine ⟨_, rfl, ?_⟩
            rw [(inWindow_spec hm).1]
            exact List.getElem?_concat_length
      obtain ⟨found, hlookup, himp⟩ := Option.map_eq_some_iff.mp hfound
      obtain ⟨w₁, hw₁, hrt₁, hs₁⟩ := Race.go_some r hsend rfl
      obtain rfl := Option.some.inj (hstep.symm.trans hw₁)
      simp only [Sending.step, hlookup, himp] at hs₁
      -- into the block, and through its `_np_next_imp`
      obtain ⟨w₂, hw₂, hrt₂, hs₂⟩ := Race.go_some r hs₁ rfl
      simp only [Sending.step, hrt₁, hblock] at hs₂
      obtain ⟨w₃, hw₃, -, hs₃⟩ := Race.go_some r hs₂ rfl
      simp only [Sending.step, hrt₂, hrt₁, hblock] at hs₃
      refine ⟨[.go t, .go t], w₃, ?_, t, cls, _, hs₃⟩
      exact run_cons_some.mpr ⟨w₂, hw₂, run_cons_some.mpr ⟨w₃, hw₃, rfl⟩⟩

/-- If no send finds the block before its `_np_next_imp` is assigned, every send runs what a send
before the replacement runs, or what one after it runs: for an instance of the class, the original
implementation alone or the block and then that. And from the first send that does find it there,
some schedule calls null. -/
theorem replaced_method_callable (r : Replacement κ σ β) (own : κ → List (σ × String × β))
    (installs : List (Installation κ σ β))
    (howns : ((installAll r.tree own installs).npClassGetOwnMethod r.cls r.sel).isSome = true) :
    (∀ (as : List (RaceAction κ τ)) (w : Race κ σ β τ),
      Along (Race.step r) Race.InTime (.start (installAll r.tree own installs)) as →
      run (Race.step r) (.start (installAll r.tree own installs)) as = some w →
      ∀ t cls s, w.sends t = some (cls, s) →
        s.control ≠ .calledNull ∧ s.control ≠ .unrecognized
        ∧ (s.control = .returned →
            (Runs r.tree (installAll r.tree own installs) cls r.sel s.ran
              ∨ Runs r.tree (r.after (installAll r.tree own installs)) cls r.sel s.ran)
            ∧ (cls = r.cls → ∃ original,
                Runs r.tree (installAll r.tree own installs) r.cls r.sel original
                ∧ (s.ran = original ∨ s.ran = r.code :: original))))
    ∧ (∀ (as : List (RaceAction κ τ)) (w : Race κ σ β τ) (a : RaceAction κ τ) (w' : Race κ σ β τ),
      Along (Race.step r) Race.InTime (.start (installAll r.tree own installs)) as →
      run (Race.step r) (.start (installAll r.tree own installs)) as = some w →
      w.step r a = some w' → ¬ w.InTime a →
      ∃ bs w'', run (Race.step r) w' bs = some w''
        ∧ ∃ t cls ran, w''.sends t = some (cls, ⟨.calledNull, ran⟩)) := by
  have h := represents_all r.tree own installs
  obtain ⟨m, hm⟩ := Option.isSome_iff_exists.mp howns
  obtain ⟨layers, hlayers⟩ : ∃ layers, Installed.all r.tree own installs r.cls r.sel = some layers := by
    refine Option.isSome_iff_exists.mp ?_
    rw [← h.owned, hm]
    rfl
  have hcallable : ∀ {as : List (RaceAction κ τ)} {w : Race κ σ β τ},
      Along (Race.step r) Race.InTime (.start (installAll r.tree own installs)) as →
      run (Race.step r) (.start (installAll r.tree own installs)) as = some w →
      w.Callable r (installAll r.tree own installs) m (.all r.tree own installs) layers :=
    fun halong hrun => run_invariant_along (callable_step h hm hlayers) halong
      (callable_start r _ m _ layers) hrun
  refine ⟨fun as w halong hrun t cls s hs => ?_, fun as w a w' halong hrun hstep hlate => ?_⟩
  · have hontrack := (hcallable halong hrun).onTrack t cls s hs
    obtain ⟨control, ran⟩ := s
    refine ⟨?_, ?_, ?_⟩
    · rintro rfl
      exact hontrack
    · rintro rfl
      exact hontrack
    · rintro rfl
      have hafter := represents_after h hlayers
      refine ⟨?_, ?_⟩
      · rw [runs_iff h, runs_iff hafter]
        exact hontrack
      · rintro rfl
        have hsome : ((r.cls :: r.tree.ancestors r.cls).any fun c =>
            (Installed.all r.tree own installs c r.sel).isSome) = true := by
          rw [List.any_cons, hlayers]
          rfl
        obtain ⟨original, horiginal⟩ := blocksRun_isSome h r.sel (r.tree.lineage_ancestors rfl) hsome
        refine ⟨original, (runs_iff h _ _ _).mpr horiginal, ?_⟩
        rcases hontrack with hbefore | hafter
        · exact .inl (Option.some.inj (hbefore.symm.trans horiginal))
        · exact .inr (Option.some.inj (hafter.symm.trans (blocksRun_installed hlayers horiginal)))
  · exact calls_null hm (hcallable halong hrun) hstep hlate

/-- One class with one method, which is replaced. -/
def loneReplacement : Replacement Unit Unit String where
  tree := ⟨fun _ => none, fun _ => [], fun _ => rfl⟩
  cls := ()
  sel := ()
  types := none
  code := "block"

def loneMethod : Unit → List (Unit × String × String) := fun _ => [((), "v@:", "code")]

/-- Before the replacement, and one thread that sends. -/
def loneRace : Race Unit Unit String Unit := .start (installAll loneReplacement.tree loneMethod [])

/-- A send that is under way while the method is replaced, and one after that; and a send in the
window. -/
theorem replaced_method_callable_lone :
    (∃ w, run (Race.step loneReplacement) loneRace
        [.install, .install, .send () (), .go (), .install, .go (), .install, .send () (), .go (),
          .go (), .go (), .go ()] = some w
      ∧ ∃ s, w.sends () = some ((), s) ∧ s.control = .returned ∧ s.ran = ["block", "code"]
      ∧ ∃ original,
        Runs loneReplacement.tree (installAll loneReplacement.tree loneMethod []) () () original
        ∧ (s.ran = original ∨ s.ran = "block" :: original))
    ∧ ∃ w w', run (Race.step loneReplacement) loneRace [.install, .install, .install, .send () ()]
        = some w
      ∧ w.step loneReplacement (.go ()) = some w'
      ∧ ∃ bs w'', run (Race.step loneReplacement) w' bs = some w''
        ∧ ∃ t cls ran, w''.sends t = some (cls, ⟨.calledNull, ran⟩) := by
  obtain ⟨hsends, hwindow⟩ := replaced_method_callable (τ := Unit) loneReplacement loneMethod [] rfl
  -- a lookup is in time unless the installation stands between its last two steps
  have hintime : ∀ {w : Race Unit Unit String Unit} {a : RaceAction Unit Unit},
      (∀ imp next, w.installer ≠ .replaced imp next) → w.InTime a := by
    intro w a hno
    cases a with
    | go t => exact fun _ _ _ _ imp next _ hinstaller => absurd hinstaller (hno imp next)
    | install => trivial
    | send t cls => trivial
  refine ⟨⟨_, rfl, _, rfl, rfl, rfl, ?_⟩, _, _, rfl, rfl, ?_⟩
  · refine ((hsends [.install, .install, .send () (), .go (), .install, .go (), .install,
      .send () (), .go (), .go (), .go (), .go ()] _ ?_ rfl () () _ rfl).2.2 rfl).2 rfl
    have hbefore : Along (Race.step loneReplacement) Race.InTime loneRace
        [.install, .install, .send () (), .go (), .install] :=
      (along_cons rfl).mpr ⟨trivial, (along_cons rfl).mpr ⟨trivial, (along_cons rfl).mpr
        ⟨trivial, (along_cons rfl).mpr ⟨hintime fun _ _ => by simp, (along_cons rfl).mpr
          ⟨trivial, trivial⟩⟩⟩⟩⟩
    refine along_append.mpr ⟨hbefore, fun w hw => ?_⟩
    obtain rfl := Option.some.inj hw
    -- in the window the first send has its method already
    refine (along_cons rfl).mpr ⟨fun cls sel classes ran imp next hsends => ?_, ?_⟩
    · have hcontrol : Control.entering (.native "code") = .searching sel classes :=
        congrArg (fun s => s.2.control) (Option.some.inj hsends)
      exact absurd hcontrol (by simp)
    exact (along_cons rfl).mpr ⟨trivial, (along_cons rfl).mpr ⟨trivial,
      (along_cons rfl).mpr ⟨hintime fun _ _ => by simp, (along_cons rfl).mpr
        ⟨hintime fun _ _ => by simp, (along_cons rfl).mpr ⟨hintime fun _ _ => by simp,
          (along_cons rfl).mpr ⟨hintime fun _ _ => by simp, trivial⟩⟩⟩⟩⟩⟩
  · refine hwindow [.install, .install, .install, .send () ()] _ (.go ()) _ ?_ rfl rfl ?_
    · exact (along_cons rfl).mpr ⟨trivial, (along_cons rfl).mpr ⟨trivial, (along_cons rfl).mpr
        ⟨trivial, (along_cons rfl).mpr ⟨trivial, trivial⟩⟩⟩⟩
    · intro hinwindow
      exact hinwindow () () [()] [] (.block 0) (some (.native "code")) rfl rfl rfl

/-- The selector is sent after `class_replaceMethod` and before the assignment. -/
theorem replaced_method_calls_null : ∃ w, run (Race.step loneReplacement) loneRace
      [.install, .install, .install, .send () (), .go (), .go (), .go ()] = some w
    ∧ w.sends () = some ((), ⟨.calledNull, ["block"]⟩) :=
  ⟨_, rfl, rfl⟩

end ObjC

end NPFoundation
