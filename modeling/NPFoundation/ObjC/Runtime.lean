import Mathlib.Data.List.Basic
import Mathlib.Logic.Function.Iterate

/-!
# Installing methods

The macros of `NSObjCRuntime.h` on a model of the runtime they call. A class has a list of
its own methods, and the first one of a name counts. An implementation is compiled code, or
a block that `imp_implementationWithBlock` made callable; the blocks are kept in a list, and
what is known of a block is which macro it was written in:

* in `NP_CLASS_ADDMETHOD` it does not call through;
* in `NP_CLASS_REPLACEMETHOD` it calls `_np_next_imp`, which is null until it is assigned;
* in `NP_CLASS_OVERRIDEMETHOD` it sends `_np_sel` to the superclass of `_np_cls`.

A send is a machine of its own: it looks the selector up, enters an implementation, and goes
on with what that calls through to. What it has run is noted down.
-/

namespace NPFoundation

namespace ObjC

/-- The classes. The superclasses of a class, nearest first, end at a root. -/
structure ClassTree (κ : Type) where
  superclass : κ → Option κ
  ancestors : κ → List κ
  ancestors_eq : ∀ cls, ancestors cls =
    match superclass cls with
    | none => []
    | some above => above :: ancestors above

/-- An `IMP` that is not null. -/
inductive Imp (β : Type) where
  /-- Compiled code. -/
  | native (code : β)
  /-- A block, by its number. -/
  | block (n : Nat)
  deriving DecidableEq, Repr

structure Method (σ β : Type) where
  name : σ
  types : String
  imp : Imp β
  deriving DecidableEq, Repr

/-- A block with the variables of the macro around it. -/
inductive Block (κ σ β : Type) where
  | add (code : β)
  | replace (code : β) (nextImp : Option (Imp β))
  | override (code : β) (cls : κ) (sel : σ)
  deriving DecidableEq, Repr

structure Runtime (κ σ β : Type) where
  methods : κ → List (Method σ β)
  blocks : List (Block κ σ β)

variable {κ σ β : Type} [DecidableEq κ] [DecidableEq σ]

/-- Put `imp` in place of the implementation of the first method of that name. -/
def setImplementation (sel : σ) (imp : Imp β) : List (Method σ β) → List (Method σ β)
  | [] => []
  | m :: ms =>
      if m.name = sel then { m with imp := imp } :: ms else m :: setImplementation sel imp ms

namespace Runtime

variable (rt : Runtime κ σ β)

/-- Classes with compiled methods only. -/
def initial (own : κ → List (σ × String × β)) : Runtime κ σ β where
  methods cls := (own cls).map fun m => ⟨m.1, m.2.1, .native m.2.2⟩
  blocks := []

/-- `NPClassGetOwnMethod`, for a class that is not null. -/
def npClassGetOwnMethod (cls : κ) (name : σ) : Option (Method σ β) :=
  (rt.methods cls).find? fun m => m.name = name

/-- The method that the first of these classes has. -/
def lookUp (classes : List κ) (name : σ) : Option (Method σ β) :=
  classes.findSome? fun cls => rt.npClassGetOwnMethod cls name

/-- `class_getInstanceMethod`. -/
def classGetInstanceMethod (tree : ClassTree κ) (cls : κ) (name : σ) : Option (Method σ β) :=
  rt.lookUp (cls :: tree.ancestors cls) name

/-- `NPClassGetSuperMethod`. -/
def npClassGetSuperMethod (tree : ClassTree κ) (cls : κ) (name : σ) : Option (Method σ β) :=
  match tree.superclass cls with
  | none => none
  | some super => if super = cls then none else rt.classGetInstanceMethod tree super name

/-- `imp_implementationWithBlock`. -/
def implementationWithBlock (block : Block κ σ β) : Runtime κ σ β × Imp β :=
  ({ rt with blocks := rt.blocks ++ [block] }, .block rt.blocks.length)

/-- A new method goes before the others. -/
def attach (cls : κ) (m : Method σ β) : Runtime κ σ β :=
  { rt with methods := fun c => if c = cls then m :: rt.methods c else rt.methods c }

/-- `class_addMethod`, and whether it was added. -/
def classAddMethod (cls : κ) (name : σ) (imp : Imp β) (types : Option String) :
    Runtime κ σ β × Bool :=
  match rt.npClassGetOwnMethod cls name with
  | some _ => (rt, false)
  | none => (rt.attach cls ⟨name, types.getD "", imp⟩, true)

/-- `class_replaceMethod`, and the implementation there was. The types of a method that exists
are left alone. -/
def classReplaceMethod (cls : κ) (name : σ) (imp : Imp β) (types : Option String) :
    Runtime κ σ β × Option (Imp β) :=
  match rt.npClassGetOwnMethod cls name with
  | some m =>
      ({ rt with
          methods := fun c =>
            if c = cls then setImplementation name imp (rt.methods c) else rt.methods c },
        some m.imp)
  | none => (rt.attach cls ⟨name, types.getD "", imp⟩, none)

/-- Assign `_np_next_imp`, which the block captured. -/
def assignNextImp (imp : Imp β) (next : Option (Imp β)) : Runtime κ σ β :=
  match imp with
  | .native _ => rt
  | .block n =>
      { rt with
        blocks := rt.blocks.modify n fun
          | .replace code _ => .replace code next
          | block => block }

/-- `NP_CLASS_ADDMETHOD`. -/
def npClassAddMethod (cls : Option κ) (sel : Option σ) (types : Option String) (code : β) :
    Runtime κ σ β :=
  match cls, sel with
  | some cls, some sel =>
      let (rt, imp) := rt.implementationWithBlock (.add code)
      (rt.classAddMethod cls sel imp types).1
  | _, _ => rt

/-- `NP_CLASS_REPLACEMETHOD`. -/
def npClassReplaceMethod (cls : Option κ) (sel : Option σ) (types : Option String) (code : β) :
    Runtime κ σ β :=
  match cls, sel with
  | some cls, some sel =>
      match rt.npClassGetOwnMethod cls sel with
      | none => rt
      | some m =>
          let types := types.getD m.types
          let (rt, imp) := rt.implementationWithBlock (.replace code none)
          let (rt, next) := rt.classReplaceMethod cls sel imp (some types)
          rt.assignNextImp imp next
  | _, _ => rt

/-- `NP_CLASS_OVERRIDEMETHOD`. -/
def npClassOverrideMethod (tree : ClassTree κ) (cls : Option κ) (sel : Option σ)
    (types : Option String) (code : β) : Runtime κ σ β :=
  match cls, sel with
  | some cls, some sel =>
      match rt.npClassGetSuperMethod tree cls sel with
      | none => rt
      | some m =>
          let types := types.getD m.types
          let (rt, imp) := rt.implementationWithBlock (.override code cls sel)
          (rt.classAddMethod cls sel imp (some types)).1
  | _, _ => rt

end Runtime

/-! ## Sending -/

inductive Control (κ σ β : Type) where
  /-- Looking the selector up, beginning with the first of these classes. -/
  | searching (sel : σ) (classes : List κ)
  | entering (imp : Imp β)
  /-- At `NP_METHOD_OVERLOAD` in a block. -/
  | overloading (n : Nat)
  | returned
  /-- Called through a null `_np_next_imp`. -/
  | calledNull
  | unrecognized
  deriving DecidableEq, Repr

structure Sending (κ σ β : Type) where
  control : Control κ σ β
  /-- What was run so far. -/
  ran : List β
  deriving DecidableEq, Repr

/-- Send `sel` to an instance of `cls`. -/
def Sending.start (tree : ClassTree κ) (cls : κ) (sel : σ) : Sending κ σ β :=
  ⟨.searching sel (cls :: tree.ancestors cls), []⟩

/-- One step of a send. -/
def Sending.step (tree : ClassTree κ) (rt : Runtime κ σ β) (s : Sending κ σ β) : Sending κ σ β :=
  match s.control with
  | .searching sel classes =>
      match rt.lookUp classes sel with
      | some m => { s with control := .entering m.imp }
      | none => { s with control := .unrecognized }
  | .entering (.native code) => ⟨.returned, s.ran ++ [code]⟩
  | .entering (.block n) =>
      match rt.blocks[n]? with
      | some (.add code) => ⟨.returned, s.ran ++ [code]⟩
      | some (.replace code _) => ⟨.overloading n, s.ran ++ [code]⟩
      -- `objc_msgSendSuper2` begins at the superclass of the class it is given
      | some (.override code cls sel) => ⟨.searching sel (tree.ancestors cls), s.ran ++ [code]⟩
      | none => { s with control := .calledNull }
  | .overloading n =>
      match rt.blocks[n]? with
      | some (.replace _ (some imp)) => { s with control := .entering imp }
      | _ => { s with control := .calledNull }
  | .returned | .calledNull | .unrecognized => s

/-- The send comes to its end, and has run just this. -/
def Runs (tree : ClassTree κ) (rt : Runtime κ σ β) (cls : κ) (sel : σ) (ran : List β) : Prop :=
  ∃ n, (Sending.step tree rt)^[n] (Sending.start tree cls sel) = ⟨.returned, ran⟩

/-! ## Installations -/

inductive InstallKind where
  | add
  | replace
  | override
  deriving DecidableEq, Repr

structure Installation (κ σ β : Type) where
  kind : InstallKind
  cls : Option κ
  sel : Option σ
  types : Option String
  code : β
  deriving DecidableEq, Repr

def install (tree : ClassTree κ) (rt : Runtime κ σ β) (i : Installation κ σ β) : Runtime κ σ β :=
  match i.kind with
  | .add => rt.npClassAddMethod i.cls i.sel i.types i.code
  | .replace => rt.npClassReplaceMethod i.cls i.sel i.types i.code
  | .override => rt.npClassOverrideMethod tree i.cls i.sel i.types i.code

end ObjC

end NPFoundation
