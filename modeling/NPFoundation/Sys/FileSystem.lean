import NPFoundation.Lib.Interleaving
import NPFoundation.Sys.Sys
import Mathlib.Logic.Function.Basic

/-!
# Files behind the system calls

What `stat`, `open`, `ftruncate` and `mmap` mean: a directory says which file a path names,
and a file has a size. A descriptor and a mapping are of a file, whatever becomes of the
path. Files are numbered and a number is never used again.

Other processes create, rename, link and unlink entries. None of that changes the size of a
file that is there, or a descriptor or a mapping of this process.

Two things are kept for the record only: how large the file behind a descriptor was when it
was opened, and which files this process found when it looked up a path.
-/

namespace NPFoundation

open Effects

/-- An `off_t` that is the size of a file. -/
abbrev FileSize := {size : BitVec 64 // 0 ≤ size.toInt}

structure FileSystem where
  /-- The file that a path names. -/
  entries : String → Option Nat
  sizes : Nat → FileSize
  /-- The number of the next file. -/
  next : Nat
  entries_lt : ∀ {path file}, entries path = some file → file < next

/-- A step of another process. -/
inductive DirectoryStep where
  /-- A new file, of any size. -/
  | create (path : String) (size : FileSize)
  /-- What `target` named before is no longer named by it. -/
  | rename (source target : String)
  | link (source target : String)
  | unlink (path : String)

namespace FileSystem

variable (fs : FileSystem)

/-- A new file under a path. -/
def create (path : String) (size : FileSize) : FileSystem where
  entries := Function.update fs.entries path (some fs.next)
  sizes := Function.update fs.sizes fs.next size
  next := fs.next + 1
  entries_lt := by
    intro path' file h
    by_cases hpath : path' = path
    · rw [hpath, Function.update_self] at h
      exact Option.some.inj h ▸ Nat.lt_succ_self _
    · rw [Function.update_of_ne hpath] at h
      exact Nat.lt_succ_of_lt (fs.entries_lt h)

def unlink (path : String) : FileSystem where
  entries := Function.update fs.entries path none
  sizes := fs.sizes
  next := fs.next
  entries_lt := by
    intro path' file h
    by_cases hpath : path' = path
    · rw [hpath, Function.update_self] at h
      exact absurd h (by simp)
    · rw [Function.update_of_ne hpath] at h
      exact fs.entries_lt h

/-- Let `target` name what `source` names. -/
def link (source target : String) : FileSystem where
  entries := Function.update fs.entries target (fs.entries source)
  sizes := fs.sizes
  next := fs.next
  entries_lt := by
    intro path' file h
    by_cases hpath : path' = target
    · rw [hpath, Function.update_self] at h
      exact fs.entries_lt h
    · rw [Function.update_of_ne hpath] at h
      exact fs.entries_lt h

def resize (file : Nat) (size : FileSize) : FileSystem :=
  { fs with sizes := Function.update fs.sizes file size }

def act (fs : FileSystem) : DirectoryStep → Option FileSystem
  | .create path size => if (fs.entries path).isNone then some (fs.create path size) else none
  | .rename source target =>
      if (fs.entries source).isNone then none
      else if source = target then some fs
      else some ((fs.link source target).unlink source)
  | .link source target =>
      if (fs.entries source).isSome && (fs.entries target).isNone then some (fs.link source target)
      else none
  | .unlink path => if (fs.entries path).isSome then some (fs.unlink path) else none

/-- Files stay as they are; there may be more of them. -/
structure Grows (fs fs' : FileSystem) : Prop where
  next_le : fs.next ≤ fs'.next
  sizes_eq : ∀ file, file < fs.next → fs'.sizes file = fs.sizes file

theorem Grows.refl : fs.Grows fs := ⟨Nat.le_refl _, fun _ _ => rfl⟩

variable {fs} {fs' fs'' : FileSystem}

theorem Grows.trans (h : fs.Grows fs') (h' : fs'.Grows fs'') : fs.Grows fs'' :=
  ⟨Nat.le_trans h.next_le h'.next_le, fun file hfile =>
    (h'.sizes_eq file (Nat.lt_of_lt_of_le hfile h.next_le)).trans (h.sizes_eq file hfile)⟩

theorem grows_create (path : String) (size : FileSize) : fs.Grows (fs.create path size) :=
  ⟨Nat.le_succ _, fun _ hfile => Function.update_of_ne (Nat.ne_of_lt hfile) _ _⟩

/-- No step of another process changes the size of a file. -/
theorem grows_act {step : DirectoryStep} (h : fs.act step = some fs') : fs.Grows fs' := by
  cases step with
  | create path size =>
      obtain ⟨-, h⟩ := Option.ite_none_right_eq_some.mp h
      obtain rfl := Option.some.inj h
      exact grows_create path size
  | rename source target =>
      obtain ⟨-, h⟩ := Option.ite_none_left_eq_some.mp h
      split at h
      · obtain rfl := Option.some.inj h
        exact .refl _
      · obtain rfl := Option.some.inj h
        exact ⟨Nat.le_refl _, fun _ _ => rfl⟩
  | link source target =>
      obtain ⟨-, h⟩ := Option.ite_none_right_eq_some.mp h
      obtain rfl := Option.some.inj h
      exact ⟨Nat.le_refl _, fun _ _ => rfl⟩
  | unlink path =>
      obtain ⟨-, h⟩ := Option.ite_none_right_eq_some.mp h
      obtain rfl := Option.some.inj h
      exact ⟨Nat.le_refl _, fun _ _ => rfl⟩

end FileSystem

/-- A file, and its size when it was opened. -/
structure Opened where
  file : Nat
  size : FileSize

/-- The files, and what this process holds. -/
structure Host where
  files : FileSystem
  descriptors : Nat → Option Opened
  /-- What is mapped at an address. -/
  mappings : Nat → Option Opened
  /-- The files that were found by looking up a path. -/
  lookups : List Nat

namespace Host

variable (w : Host)

/-- The new descriptor is for a file that a path names. -/
def openFile (file fd : Nat) : Host :=
  { w with
    descriptors := Function.update w.descriptors fd (some ⟨file, w.files.sizes file⟩)
    lookups := w.lookups ++ [file] }

/-- A call that succeeds. -/
def succeed (w : Host) (r : Reply) : SysCall → Option Host
  | .open path flag _ =>
      if (w.descriptors r.descriptor).isSome then none
      else
        match w.files.entries path with
        | some file => some (w.openFile file r.descriptor)
        | none =>
            if flag.create then
              some ({ w with files := w.files.create path ⟨0, by decide⟩ }.openFile w.files.next
                r.descriptor)
            else none
  | .close fd => some { w with descriptors := Function.update w.descriptors fd none }
  | .stat path =>
      match w.files.entries path with
      | some file =>
          if r.stat.st_size = (w.files.sizes file).1 then some { w with lookups := w.lookups ++ [file] }
          else none
      | none => none
  -- looks at files only; none of the helpers makes this call
  | .fstatat _ _ _ => some w
  | .truncate path size =>
      match w.files.entries path with
      | some file =>
          if h : 0 ≤ size.toInt then some { w with files := w.files.resize file ⟨size, h⟩ } else none
      | none => none
  | .ftruncate fd size =>
      match w.descriptors fd with
      | some opened =>
          if h : 0 ≤ size.toInt then some { w with files := w.files.resize opened.file ⟨size, h⟩ }
          else none
      | none => none
  | .fcntlGetPath fd => if (w.descriptors fd).isSome then some w else none
  | .mmap size _ fd =>
      match w.descriptors fd with
      | some opened =>
          if size = 0 ∨ (w.mappings r.address).isSome then none
          else some { w with mappings := Function.update w.mappings r.address (some opened) }
      | none => none
  | .munmap buf _ => some { w with mappings := Function.update w.mappings buf none }
  | .handler _ _ _ => some w

/-- A call with its answer. Any call may fail, and changes nothing then; only a `close` that fails
has closed the descriptor all the same. -/
def answer (w : Host) (c : SysCall) (r : Reply) : Option Host :=
  if r.failure.isSome then
    match c with
    | .close fd => some { w with descriptors := Function.update w.descriptors fd none }
    | _ => some w
  else w.succeed r c

/-- This process among others. -/
def surroundings : Surroundings Host DirectoryStep SysCall Reply where
  again := Reply.again
  act w step := (w.files.act step).map fun files => { w with files }
  answer := answer

/-- What the other processes may do to it. -/
structure Left (w w' : Host) : Prop where
  files : w.files.Grows w'.files
  descriptors : w'.descriptors = w.descriptors
  mappings : w'.mappings = w.mappings
  lookups : w'.lookups = w.lookups

theorem relies_left : Relies surroundings Left where
  refl w := ⟨.refl _, rfl, rfl, rfl⟩
  trans h h' := ⟨h.files.trans h'.files, h'.descriptors.trans h.descriptors,
    h'.mappings.trans h.mappings, h'.lookups.trans h.lookups⟩
  act h := by
    obtain ⟨files, hfiles, rfl⟩ := Option.map_eq_some_iff.mp h
    exact ⟨FileSystem.grows_act hfiles, rfl, rfl, rfl⟩

/-- A call that fails and is no `close` changes nothing. -/
theorem answer_failure {w w' : Host} {c : SysCall} {r : Reply} {failure : Failure}
    (hr : r.failure = some failure) (hclose : ∀ fd, c ≠ .close fd) (h : w.answer c r = some w') :
    w' = w := by
  unfold answer at h
  rw [hr, Option.isSome_some, if_pos rfl] at h
  cases c with
  | close fd => exact absurd rfl (hclose fd)
  | _ => exact (Option.some.inj h).symm

theorem answer_success {w w' : Host} {c : SysCall} {r : Reply} (hr : r.failure = none)
    (h : w.answer c r = some w') : w.succeed r c = some w' := by
  unfold answer at h
  rwa [hr, Option.isSome_none, if_neg (by simp)] at h

end Host

end NPFoundation
