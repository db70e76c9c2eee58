import NPFoundation.Sys.FileSystem
import NPFoundation.Sys.EarlierErrors

/-!
# One path, two lookups

`mmapReadOnly` asks for the size of a path and then opens the path; `mmapReadWrite` opens
the path and then asks for its size. The size is meant to be that of the file behind the
descriptor, but in between another process can let the path name another file. As long as
the second lookup finds a file of the same length as the first, all is well, and that is
the only thing that matters about the other processes.
-/

namespace NPFoundation

open Effects Transition

namespace Host

/-- The second time a path is looked up, the file that is found has the length of the first. -/
def FindsSameLength (w : Host) (path : String) : Prop :=
  ∀ first second, w.lookups = [first] → w.files.entries path = some second →
    w.files.sizes second = w.files.sizes first

/-- The condition on a call. -/
def SameLength (w : Host) : SysCall → Prop
  | .open path _ _ => w.FindsSameLength path
  | .stat path => w.FindsSameLength path
  | _ => True

/-- A file that is not empty keeps its size. -/
structure KeepsNonEmpty (w w' : Host) : Prop where
  next_le : w.files.next ≤ w'.files.next
  sizes_eq : ∀ file, file < w.files.next → (w.files.sizes file).1 ≠ 0 →
    w'.files.sizes file = w.files.sizes file

theorem keepsNonEmpty_of_grows {w w' : Host} (h : w.files.Grows w'.files) : w.KeepsNonEmpty w' :=
  ⟨h.next_le, fun file hfile _ => h.sizes_eq file hfile⟩

/-- What is done with files and mappings only makes them more. -/
structure Kept (w w' : Host) : Prop where
  files : w.files.Grows w'.files
  mappings : w'.mappings = w.mappings

variable {w w' w'' : Host} {α β : Type} {p : SysProg α}

theorem Kept.trans (h : w.Kept w') (h' : w'.Kept w'') : w.Kept w'' :=
  ⟨h.files.trans h'.files, h'.mappings.trans h.mappings⟩

theorem Left.kept (h : w.Left w') : w.Kept w' := ⟨h.files, h.mappings⟩

/-- A program that gives what it should in every interleaving. -/
def Gives (p : SysProg α) (w : Host) (Q : α → Host → Prop) : Prop :=
  Secure surroundings Left SameLength KeepsNonEmpty Q p w

theorem gives_bind {f : α → SysProg β} {Q : β → Host → Prop}
    (h : Gives p w fun a w => Gives (f a) w Q) : Gives (p >>= f) w Q :=
  secure_bind relies_left h

theorem Gives.mono {Q Q' : α → Host → Prop} (h : Gives p w Q) (hQ : ∀ a w, Q a w → Q' a w) :
    Gives p w Q' :=
  Secure.mono h hQ

theorem gives_pure {a : α} {Q : α → Host → Prop} (h : ∀ w', w.Left w' → Q a w') :
    Gives (pure a) w Q := h

/-- A call that is no `close`: what is known if it fails, and if it succeeds. -/
theorem gives_call {c : SysCall} {retried : Bool} {g : Reply → α} {Q : α → Host → Prop}
    (hclose : ∀ fd, c ≠ .close fd)
    (hfail : ∀ r w' failure, w.Left w' → r.failure = some failure → Q (g r) w')
    (hok : ∀ r w₁ w₂, w.Left w₁ → w₁.SameLength c → r.failure = none →
      w₁.succeed r c = some w₂ → w₁.KeepsNonEmpty w₂ ∧ ∀ w', w₂.Left w' → Q (g r) w') :
    Gives (.call c retried fun r => pure (g r)) w Q := by
  intro w₁ hw₁ hcond r w₂ hr
  cases hf : r.failure with
  | some failure =>
      obtain rfl := answer_failure hf hclose hr
      refine ⟨keepsNonEmpty_of_grows (.refl _), ?_⟩
      split
      · exact relies_left.refl _
      · intro w' hw'
        exact hfail r w' failure (relies_left.trans hw₁ hw') hf
  | none =>
      obtain ⟨hkeeps, hq⟩ := hok r w₁ w₂ hw₁ hcond hf (answer_success hf hr)
      refine ⟨hkeeps, ?_⟩
      have hfinal : surroundings.again r = false := by
        change r.again = false
        rw [Reply.again, hf]
      rw [hfinal, Bool.and_false, if_neg (by simp)]
      exact hq

/-! ## Calls that leave files and mappings alone -/

/-- Opening without creating, closing, asking for the path of a descriptor. -/
def harmless : SysCall → Bool → Bool
  | .open _ flag _, _ => !flag.create
  | .close _, retried => !retried
  | .fcntlGetPath _, _ => true
  | _, _ => false

def OnlyHarmless : SysProg α → Prop
  | .ret _ => True
  | .call c retried next => harmless c retried = true ∧ ∀ r, OnlyHarmless (next r)

theorem onlyHarmless_bind {f : α → SysProg β} (hp : OnlyHarmless p)
    (hf : ∀ a, OnlyHarmless (f a)) : OnlyHarmless (p >>= f) := by
  change OnlyHarmless (p.bind f)
  induction p with
  | ret a => exact hf a
  | call c retried next ih => exact ⟨hp.1, fun r => ih r (hp.2 r)⟩

theorem answer_harmless {c : SysCall} {retried : Bool} {r : Reply}
    (hc : harmless c retried = true) (h : w.answer c r = some w') :
    w'.files = w.files ∧ w'.mappings = w.mappings := by
  unfold answer at h
  cases c with
  | «open» path flag other =>
      have hcreate : flag.create = false := by simpa [harmless] using hc
      split at h
      · obtain rfl := Option.some.inj h
        exact ⟨rfl, rfl⟩
      · obtain ⟨-, h⟩ := Option.ite_none_left_eq_some.mp h
        cases hfile : w.files.entries path with
        | none =>
            rw [hfile, hcreate] at h
            exact absurd h (by simp)
        | some file =>
            rw [hfile] at h
            obtain rfl := Option.some.inj h
            exact ⟨rfl, rfl⟩
  | close fd =>
      split at h <;>
      · obtain rfl := Option.some.inj h
        exact ⟨rfl, rfl⟩
  | fcntlGetPath fd =>
      split at h
      · obtain rfl := Option.some.inj h
        exact ⟨rfl, rfl⟩
      · obtain ⟨-, h⟩ := Option.ite_none_right_eq_some.mp h
        obtain rfl := Option.some.inj h
        exact ⟨rfl, rfl⟩
  | _ => exact absurd hc (by simp [harmless])

theorem gives_kept (hp : OnlyHarmless p) : Gives p w fun _ w' => w.Kept w' := by
  induction p generalizing w with
  | ret a => exact fun w' hw' => hw'.kept
  | call c retried next ih =>
      intro w₁ hw₁ _ r w₂ hr
      obtain ⟨hfiles, hmappings⟩ := answer_harmless hp.1 hr
      have hgrows : w₁.files.Grows w₂.files := by
        rw [hfiles]
        exact .refl _
      refine ⟨keepsNonEmpty_of_grows hgrows, ?_⟩
      split
      · -- only a failed call is made again, and `close` is not
        rename_i hagain
        obtain ⟨hretried, hagain⟩ := (Bool.and_eq_true _ _).mp hagain
        cases hf : r.failure with
        | none =>
            have hno : r.again = false := by rw [Reply.again, hf]
            exact absurd hagain (by simp [surroundings, hno])
        | some failure =>
            have hclose : ∀ fd, c ≠ .close fd := by
              rintro fd rfl
              exact absurd hp.1 (by simp [harmless, hretried])
            obtain rfl := answer_failure hf hclose hr
            exact relies_left.refl _
      · refine Secure.mono (ih r (hp.2 r)) fun _ w' hkept => ?_
        exact hw₁.kept.trans (Kept.trans ⟨hgrows, hmappings⟩ hkept)

/-! ## The calls that look up a path -/

/-- A lookup found a file. -/
structure Found (w w' : Host) (file : Nat) : Prop where
  files : w.files.Grows w'.files
  lookups : w'.lookups = w.lookups ++ [file]
  file_lt : file < w'.files.next
  same : ∀ first, w.lookups = [first] → first < w.files.next →
    w'.files.sizes file = w'.files.sizes first

theorem Found.left {w₁ w₂ : Host} {file : Nat} (hw₁ : w.Left w₁) (h : w₁.Found w₂ file)
    (hw' : w₂.Left w') : w.Found w' file where
  files := (hw₁.files.trans h.files).trans hw'.files
  lookups := by rw [hw'.lookups, h.lookups, hw₁.lookups]
  file_lt := Nat.lt_of_lt_of_le h.file_lt hw'.files.next_le
  same := by
    intro first hfirst hlt
    have hlt₁ : first < w₁.files.next := Nat.lt_of_lt_of_le hlt hw₁.files.next_le
    have hlt₂ : first < w₂.files.next := Nat.lt_of_lt_of_le hlt₁ h.files.next_le
    rw [hw'.files.sizes_eq file h.file_lt, hw'.files.sizes_eq first hlt₂]
    exact h.same first (hw₁.lookups.trans hfirst) hlt₁

theorem gives_stat (d : Diagnostics) (path : String) (w : Host) :
    Gives (Sys.stat d path) w fun v w' => v.1.hasError = true ∨
      ∃ file, w.Found w' file ∧ w'.descriptors = w.descriptors
        ∧ (w'.files.sizes file).1 = v.2.st_size := by
  refine gives_call (by simp) ?_ ?_
  · intro r w' failure _ hf
    rw [hf, Diagnostics.hasError_report, Option.isSome_some, Bool.or_true]
    exact .inl rfl
  · intro r w₁ w₂ hw₁ hcond hf hr
    simp only [succeed] at hr
    cases hfile : w₁.files.entries path with
    | none =>
        rw [hfile] at hr
        exact absurd hr (by simp)
    | some file =>
        rw [hfile] at hr
        obtain ⟨hsize, hr⟩ := Option.ite_none_right_eq_some.mp hr
        obtain rfl := Option.some.inj hr
        have hfound : w₁.Found { w₁ with lookups := w₁.lookups ++ [file] } file :=
          ⟨.refl _, rfl, w₁.files.entries_lt hfile, fun first hfirst _ =>
            hcond first file hfirst hfile⟩
        refine ⟨keepsNonEmpty_of_grows hfound.files, fun w' hw' => .inr ⟨file, ?_, ?_, ?_⟩⟩
        · exact Found.left hw₁ hfound hw'
        · exact hw'.descriptors.trans hw₁.descriptors
        · rw [hw'.files.sizes_eq file (w₁.files.entries_lt hfile)]
          exact hsize.symm

theorem gives_openPath (d : Diagnostics) (path : String) (flag : OpenFlag) (other : Nat)
    (hflag : flag.create = false ∨ w.lookups = []) :
    Gives (Sys.openPath d path flag other) w fun v w' => v.2 = none ∨
      ∃ fd file, v.2 = some fd ∧ w.Found w' file
        ∧ w'.descriptors fd = some ⟨file, w'.files.sizes file⟩ := by
  refine gives_call (by simp) ?_ ?_
  · intro r w' failure _ hf
    rw [hf]
    exact .inl rfl
  · intro r w₁ w₂ hw₁ hcond hf hr
    -- what is known about the world once it is known which file was opened
    have hopened : ∀ file, w₁.Found w₂ file →
        w₂.descriptors r.descriptor = some ⟨file, w₂.files.sizes file⟩ →
        w₁.KeepsNonEmpty w₂ ∧ ∀ w', w₂.Left w' →
          (if r.failure.isSome then none else some r.descriptor) = none ∨
          ∃ fd file, (if r.failure.isSome then none else some r.descriptor) = some fd
            ∧ w.Found w' file ∧ w'.descriptors fd = some ⟨file, w'.files.sizes file⟩ := by
      intro file hfound hdescriptor
      refine ⟨keepsNonEmpty_of_grows hfound.files, fun w' hw' => .inr ⟨r.descriptor, file, ?_, ?_, ?_⟩⟩
      · rw [hf]
        rfl
      · exact Found.left hw₁ hfound hw'
      · rw [hw'.descriptors, hw'.files.sizes_eq file hfound.file_lt]
        exact hdescriptor
    simp only [succeed] at hr
    obtain ⟨-, hr⟩ := Option.ite_none_left_eq_some.mp hr
    cases hfile : w₁.files.entries path with
    | some file =>
        rw [hfile] at hr
        obtain rfl := Option.some.inj hr
        refine hopened file ⟨.refl _, rfl, w₁.files.entries_lt hfile, ?_⟩ (Function.update_self ..)
        exact fun first hfirst _ => hcond first file hfirst hfile
    | none =>
        rw [hfile] at hr
        obtain ⟨hcreate, hr⟩ := Option.ite_none_right_eq_some.mp hr
        obtain rfl := Option.some.inj hr
        refine hopened w₁.files.next ⟨FileSystem.grows_create path _, rfl, Nat.lt_succ_self _, ?_⟩
          (Function.update_self ..)
        -- a path that is created has not been looked up before
        intro first hfirst _
        rcases hflag with hflag | hflag
        · exact absurd hcreate (by simp [hflag])
        · rw [hw₁.lookups, hflag] at hfirst
          exact absurd hfirst (by simp)

/-! ## The mapping -/

/-- A mapping of a file that has this size. -/
structure MappedAt (w : Host) (address : Nat) (opened : Opened) (size : BitVec 64) : Prop where
  mapping : w.mappings address = some opened
  file_lt : opened.file < w.files.next
  size_eq : (w.files.sizes opened.file).1 = size

variable {address fd : Nat} {opened : Opened} {mappedSize : BitVec 64}

theorem MappedAt.kept (h : w.MappedAt address opened mappedSize) (hw : w.Kept w') :
    w'.MappedAt address opened mappedSize where
  mapping := by rw [hw.mappings, h.mapping]
  file_lt := Nat.lt_of_lt_of_le h.file_lt hw.files.next_le
  size_eq := by rw [hw.files.sizes_eq opened.file h.file_lt, h.size_eq]

/-- What is left to be done after the mapping is there. -/
theorem onlyHarmless_close (d : Diagnostics) (fd : Nat) : OnlyHarmless (Sys.close d fd) :=
  ⟨rfl, fun _ => trivial⟩

theorem onlyHarmless_resolveRealerPath (path : String) (realerPath : Bool) :
    OnlyHarmless (Sys.resolveRealerPath path realerPath) := by
  cases realerPath with
  | false => trivial
  | true =>
      refine onlyHarmless_bind (onlyHarmless_bind ⟨rfl, fun _ => trivial⟩ ?_) fun _ => trivial
      rintro ⟨d, fd⟩
      cases fd with
      | none => trivial
      | some fd =>
          refine onlyHarmless_bind ⟨rfl, fun _ => trivial⟩ fun r => ?_
          exact onlyHarmless_bind (onlyHarmless_close _ fd) fun _ => trivial

/-- The mapping that is returned is of the file behind the descriptor, and the size is its size. -/
theorem gives_mapDescriptor {d : Diagnostics} {path : String} {size realerPath shared : Bool}
    (hfd : w.descriptors fd = some opened) (hlt : opened.file < w.files.next)
    (hsize : (w.files.sizes opened.file).1 = mappedSize) :
    Gives (Sys.mapDescriptor d path size realerPath mappedSize shared fd) w fun v w' =>
      ∀ address, v.2.mapping = some address →
        w'.MappedAt address opened mappedSize ∧ ∀ n, v.2.size = some n → n = mappedSize := by
  refine gives_bind (gives_call (Q := fun r w' => Gives _ w' _) (by simp) ?_ ?_)
  · intro r w' failure _ hf
    rw [hf, Option.isSome_some, if_pos rfl]
    refine gives_bind ((gives_kept (onlyHarmless_close _ fd)).mono fun _ _ _ => gives_pure ?_)
    exact fun _ _ address hnone => absurd hnone (by simp [Sys.Mapped.null])
  · intro r w₁ w₂ hw₁ _ hf hr
    simp only [succeed, hw₁.descriptors, hfd] at hr
    obtain ⟨-, hr⟩ := Option.ite_none_left_eq_some.mp hr
    obtain rfl := Option.some.inj hr
    refine ⟨keepsNonEmpty_of_grows (.refl _), fun w' hw' => ?_⟩
    have hmapped : w'.MappedAt r.address opened mappedSize := by
      refine MappedAt.kept ⟨Function.update_self .., ?_, ?_⟩ hw'.kept
      · exact Nat.lt_of_lt_of_le hlt hw₁.files.next_le
      · rw [← hsize]
        exact congrArg Subtype.val (hw₁.files.sizes_eq _ hlt)
    rw [hf, Option.isSome_none, if_neg (by simp)]
    -- the path is resolved and the descriptor closed
    refine gives_bind ((gives_kept (onlyHarmless_resolveRealerPath path realerPath)).mono ?_)
    intro resolved w₃ hw₃
    refine gives_bind ((gives_kept (onlyHarmless_close d fd)).mono ?_)
    intro d' w₄ hw₄
    refine gives_pure fun w₅ hw₅ address haddress => ⟨?_, ?_⟩
    · obtain rfl := Option.some.inj haddress
      exact ((hmapped.kept hw₃).kept hw₄).kept hw₅.kept
    · intro n hn
      cases size with
      | false => exact absurd hn (by simp)
      | true => exact (Option.some.inj hn).symm

theorem gives_ftruncate {d : Diagnostics} (hfd : w.descriptors fd = some opened)
    (hlt : opened.file < w.files.next) (hempty : (w.files.sizes opened.file).1 = 0) :
    Gives (Sys.ftruncate d fd 4096) w fun d' w' => d'.hasError = true ∨
      (w'.descriptors fd = some opened ∧ opened.file < w'.files.next
        ∧ (w'.files.sizes opened.file).1 = 4096) := by
  refine gives_call (by simp) ?_ ?_
  · intro r w' failure _ hf
    rw [hf, Diagnostics.hasError_report, Option.isSome_some, Bool.or_true]
    exact .inl rfl
  · intro r w₁ w₂ hw₁ _ hf hr
    have hlt₁ : opened.file < w₁.files.next := Nat.lt_of_lt_of_le hlt hw₁.files.next_le
    simp only [succeed, hw₁.descriptors, hfd] at hr
    rw [dif_pos (by decide)] at hr
    obtain rfl := Option.some.inj hr
    refine ⟨⟨Nat.le_refl _, ?_⟩, fun w' hw' => .inr ⟨?_, ?_, ?_⟩⟩
    · -- the one file that changes is empty
      intro file hfile hne
      refine Function.update_of_ne ?_ _ _
      rintro rfl
      rw [hw₁.files.sizes_eq _ hlt] at hne
      exact hne hempty
    · rw [hw'.descriptors]
      exact hw₁.descriptors ▸ hfd
    · exact Nat.lt_of_lt_of_le hlt₁ hw'.files.next_le
    · rw [hw'.files.sizes_eq _ hlt₁]
      exact congrArg Subtype.val (Function.update_self opened.file _ w₁.files.sizes)

/-! ## The helpers -/

/-- If there is a mapping, the size that is reported is that of the file that is mapped, and the
one that is expected for it. -/
def Reports (expected : Opened → BitVec 64) (v : Sys.Mapped) (w : Host) : Prop :=
  ∀ address, v.mapping = some address → ∃ opened, w.mappings address = some opened
    ∧ ∀ n, v.size = some n → n = (w.files.sizes opened.file).1 ∧ n = expected opened

theorem reports_null {expected : Opened → BitVec 64} {v : Sys.Mapped} (h : v.mapping = none) :
    w.Reports expected v := by
  intro address haddress
  rw [h] at haddress
  exact absurd haddress (by simp)

/-- A mapping of the file behind a descriptor whose size is known. -/
theorem reports_mapDescriptor {expected : Opened → BitVec 64} {d : Diagnostics} {path : String}
    {size realerPath shared : Bool} (hfd : w.descriptors fd = some opened)
    (hlt : opened.file < w.files.next) (hsize : (w.files.sizes opened.file).1 = mappedSize)
    (hexpected : mappedSize = expected opened) :
    Gives (Sys.mapDescriptor d path size realerPath mappedSize shared fd) w fun v w' =>
      w'.Reports expected v.2 := by
  refine (gives_mapDescriptor hfd hlt hsize).mono ?_
  intro v w' h address haddress
  obtain ⟨hmapped, hn⟩ := h address haddress
  refine ⟨opened, hmapped.mapping, fun n hsome => ?_⟩
  rw [hn n hsome, hmapped.size_eq]
  exact ⟨rfl, hexpected⟩

/-- For reading, the size of the file when it was opened. -/
theorem gives_mmapReadOnly (d : Diagnostics) (path : String) (size realerPath : Bool)
    (hw : w.lookups = []) :
    Gives (Sys.mmapReadOnly d path size realerPath) w fun v w' =>
      w'.Reports (fun opened => opened.size.1) v.2 := by
  rw [Sys.mmapReadOnly_eq]
  refine gives_bind ((gives_stat d path w).mono ?_)
  rintro ⟨d, statbuf⟩ w₁ hstat
  unfold Sys.mapUnlessError
  split
  · exact gives_pure fun _ _ => reports_null rfl
  · rename_i hno
    split
    · exact gives_pure fun _ _ => reports_null rfl
    · obtain ⟨first, hfirst, -, hsize⟩ := hstat.resolve_left hno
      have hlookups : w₁.lookups = [first] := by rw [hfirst.lookups, hw, List.nil_append]
      refine gives_bind ((gives_openPath d path .readOnly 0 (.inl rfl)).mono ?_)
      rintro ⟨d, fd⟩ w₂ hopen
      rcases hopen with hnone | ⟨fd', second, hfd, hsecond, hdescriptor⟩
      · rw [show fd = none from hnone]
        exact gives_pure fun _ _ => reports_null rfl
      · rw [show fd = some fd' from hfd]
        -- the second file is as long as the first, whose length was asked for
        have hlength : (w₂.files.sizes second).1 = statbuf.st_size := by
          rw [hsecond.same first hlookups hfirst.file_lt,
            hsecond.files.sizes_eq first hfirst.file_lt]
          exact hsize
        exact reports_mapDescriptor hdescriptor hsecond.file_lt hlength hlength.symm

/-- For writing, an empty file is given a page. -/
def pageIfEmpty (opened : Opened) : BitVec 64 :=
  if opened.size.1 = 0 then 4096 else opened.size.1

theorem gives_mmapReadWrite (d : Diagnostics) (path : String) (size realerPath : Bool)
    (hw : w.lookups = []) :
    Gives (Sys.mmapReadWrite d path size realerPath) w fun v w' =>
      w'.Reports pageIfEmpty v.2 := by
  rw [Sys.mmapReadWrite_eq]
  refine gives_bind ((gives_openPath d path ⟨true, true, false⟩ 0o666 (.inr hw)).mono ?_)
  rintro ⟨d, fd⟩ w₁ hopen
  rcases hopen with hnone | ⟨fd', first, hfd, hfirst, hdescriptor⟩
  · rw [show fd = none from hnone]
    exact gives_pure fun _ _ => reports_null rfl
  · rw [show fd = some fd' from hfd]
    have hlookups : w₁.lookups = [first] := by rw [hfirst.lookups, hw, List.nil_append]
    refine gives_bind ((gives_stat d path w₁).mono ?_)
    rintro ⟨d, statbuf⟩ w₂ hstat
    unfold Sys.truncateUnlessError
    split
    · refine gives_bind ((gives_kept (onlyHarmless_close _ _)).mono fun _ _ _ => ?_)
      exact gives_pure fun _ _ => reports_null rfl
    · rename_i hno
      obtain ⟨second, hsecond, hsame, hsize⟩ := hstat.resolve_left hno
      have hfd₂ : w₂.descriptors fd' = some ⟨first, w₁.files.sizes first⟩ := by
        rw [hsame]
        exact hdescriptor
      have hkeep : w₂.files.sizes first = w₁.files.sizes first :=
        hsecond.files.sizes_eq first hfirst.file_lt
      have hlt : first < w₂.files.next :=
        Nat.lt_of_lt_of_le hfirst.file_lt hsecond.files.next_le
      have hlength : (w₂.files.sizes first).1 = statbuf.st_size := by
        rw [← hsecond.same first hlookups hfirst.file_lt]
        exact hsize
      unfold Sys.truncateAndMap
      split
      · -- the file behind the descriptor is empty
        rename_i hle
        have hempty : (w₂.files.sizes first).1 = 0 := by
          have hnonneg := (w₂.files.sizes first).2
          rw [hlength] at hnonneg ⊢
          exact BitVec.toInt_inj.mp (le_antisymm hle hnonneg)
        refine gives_bind ((gives_ftruncate hfd₂ hlt hempty).mono ?_)
        intro d w₃ htruncate
        split
        · refine gives_bind ((gives_kept (onlyHarmless_close _ _)).mono fun _ _ _ => ?_)
          exact gives_pure fun _ _ => reports_null rfl
        · rename_i hno
          rcases htruncate with herror | ⟨hfd₃, hlt₃, hsize₃⟩
          · exact absurd herror hno
          · refine reports_mapDescriptor hfd₃ hlt₃ hsize₃ ?_
            rw [pageIfEmpty, if_pos (by rw [← hkeep]; exact hempty)]
      · rename_i hpos
        refine reports_mapDescriptor hfd₂ hlt hlength ?_
        have hne : (w₁.files.sizes first).1 ≠ 0 := by
          rw [← hkeep, hlength]
          rintro hzero
          rw [hzero] at hpos
          exact hpos (by decide)
        rw [pageIfEmpty, if_neg hne, ← hkeep]
        exact hlength.symm

/-- When the call is made, nothing has been looked up for it. -/
def atCall (files : FileSystem) (descriptors mappings : Nat → Option Opened) : Host :=
  ⟨files, descriptors, mappings, []⟩

/-- In every interleaving in which the second lookup finds a file of the same length as the first,
the size that is reported with a mapping is that of the file that is mapped, and no turn changes
the size of a file that is not empty. -/
theorem reported_size_of_mapped_file (files : FileSystem)
    (descriptors mappings : Nat → Option Opened) (d : Diagnostics) (path : String)
    (size realerPath : Bool) (ts : List (Turn DirectoryStep Reply))
    (m : Midway Host SysCall Reply (Diagnostics × Sys.Mapped)) :
    (Along (Midway.turn surroundings) (Midway.Meets SameLength)
        ⟨atCall files descriptors mappings, Sys.mmapReadOnly d path size realerPath⟩ ts →
      run (Midway.turn surroundings)
        ⟨atCall files descriptors mappings, Sys.mmapReadOnly d path size realerPath⟩ ts = some m →
      ∀ v, m.rest = .ret v → m.world.Reports (fun opened => opened.size.1) v.2)
    ∧ (Along (Midway.turn surroundings) (Midway.Meets SameLength)
        ⟨atCall files descriptors mappings, Sys.mmapReadWrite d path size realerPath⟩ ts →
      run (Midway.turn surroundings)
        ⟨atCall files descriptors mappings, Sys.mmapReadWrite d path size realerPath⟩ ts = some m →
      (∀ v, m.rest = .ret v → m.world.Reports pageIfEmpty v.2)
      ∧ ∀ t m', m.Meets SameLength t → m.turn surroundings t = some m' →
          m.world.KeepsNonEmpty m'.world) := by
  have hothers : ∀ {w w' : Host}, w.Left w' → w.KeepsNonEmpty w' :=
    fun h => keepsNonEmpty_of_grows h.files
  refine ⟨fun hmeets hrun => ?_, fun hmeets hrun => ?_⟩
  · exact (secure_run relies_left hothers (gives_mmapReadOnly d path size realerPath rfl)
      hmeets hrun).1
  · exact secure_run relies_left hothers (gives_mmapReadWrite d path size realerPath rfl)
      hmeets hrun

/-! ### A path that names another file in between -/

/-- Two files: `a` is one byte long, `b` is empty. -/
def twoFiles : FileSystem where
  entries path := if path = "a" then some 0 else if path = "b" then some 1 else none
  sizes file := ⟨if file = 0 then 1 else 0, by split <;> decide⟩
  next := 2
  entries_lt := by
    intro path file h
    split at h
    · exact Option.some.inj h ▸ by decide
    · split at h
      · exact Option.some.inj h ▸ by decide
      · exact absurd h (by simp)

/-- Nothing is open and nothing is mapped. -/
def fresh : Host := atCall twoFiles (fun _ => none) fun _ => none

/-- Between the two lookups another file of one byte is renamed to `a`. -/
def replaced : List (Turn DirectoryStep Reply) :=
  [.reply (Sys.granted 1), .others (.create "c" ⟨1, by decide⟩), .others (.rename "c" "a"),
    .reply (Sys.granted 1), .reply (Sys.granted 1), .reply (Sys.granted 1)]

/-- The file that is mapped is not the one that was looked up first, and the size is right. -/
theorem reported_size_replaced :
    (∃ m v, run (Midway.turn surroundings) ⟨fresh, Sys.mmapReadOnly .quiet "a" true false⟩ replaced
        = some m
      ∧ m.rest = .ret v ∧ v.2.size = some 1 ∧ m.world.Reports (fun opened => opened.size.1) v.2)
    ∧ ∃ m v, run (Midway.turn surroundings) ⟨fresh, Sys.mmapReadWrite .quiet "a" true false⟩
        replaced = some m
      ∧ m.rest = .ret v ∧ v.2.size = some 1 ∧ m.world.Reports pageIfEmpty v.2 := by
  -- whichever lookup comes first
  have hfirst : ∀ w : Host, w.lookups = [] → w.FindsSameLength "a" := by
    intro w hnone first second hlookups
    rw [hnone] at hlookups
    exact absurd hlookups (by simp)
  -- the second one finds the file that was renamed, which is as long
  have hsecond : ∀ w : Host, w.lookups = [0] → w.files.entries "a" = some 2 →
      w.files.sizes 2 = w.files.sizes 0 → w.FindsSameLength "a" := by
    intro w hlookups hentry hsizes first second hfirst hfound
    obtain rfl : 0 = first := (List.cons.inj (hlookups.symm.trans hfirst)).1
    obtain rfl : 2 = second := Option.some.inj (hentry.symm.trans hfound)
    exact hsizes
  refine ⟨⟨_, _, rfl, rfl, rfl, ?_⟩, _, _, rfl, rfl, rfl, ?_⟩
  · refine (reported_size_of_mapped_file twoFiles (fun _ => none) (fun _ => none) .quiet "a" true
      false replaced _).1 ?_ rfl _ rfl
    refine (along_cons rfl).mpr ⟨hfirst _ rfl, (along_cons rfl).mpr ⟨trivial, (along_cons rfl).mpr
      ⟨trivial, (along_cons rfl).mpr ⟨?_, (along_cons rfl).mpr ⟨?_, (along_cons rfl).mpr
        ⟨?_, trivial⟩⟩⟩⟩⟩⟩
    · exact hsecond _ rfl rfl rfl
    · trivial
    · trivial
  · refine ((reported_size_of_mapped_file twoFiles (fun _ => none) (fun _ => none) .quiet "a" true
      false replaced _).2 ?_ rfl).1 _ rfl
    refine (along_cons rfl).mpr ⟨hfirst _ rfl, (along_cons rfl).mpr ⟨trivial, (along_cons rfl).mpr
      ⟨trivial, (along_cons rfl).mpr ⟨?_, (along_cons rfl).mpr ⟨?_, (along_cons rfl).mpr
        ⟨?_, trivial⟩⟩⟩⟩⟩⟩
    · exact hsecond _ rfl rfl rfl
    · trivial
    · trivial

/-- `b` is renamed to `a` between the two lookups. What is mapped for reading is empty and reported
to have one byte; and what is mapped for writing had one byte when it was opened, and is taken for
empty. -/
theorem reported_size_of_another_file :
    (∃ m v, run (Midway.turn surroundings) ⟨fresh, Sys.mmapReadOnly .quiet "a" true false⟩
        [.reply (Sys.granted 1), .others (.rename "b" "a"), .reply (Sys.granted 1),
          .reply (Sys.granted 1), .reply (Sys.granted 1)] = some m
      ∧ m.rest = .ret v ∧ ¬ m.world.Reports (fun opened => opened.size.1) v.2)
    ∧ ∃ m m', run (Midway.turn surroundings) ⟨fresh, Sys.mmapReadWrite .quiet "a" true false⟩
        [.reply (Sys.granted 0), .others (.rename "b" "a"), .reply (Sys.granted 0)] = some m
      ∧ m.turn surroundings (.reply (Sys.granted 0)) = some m'
      ∧ ¬ m.world.KeepsNonEmpty m'.world := by
  refine ⟨⟨_, _, rfl, rfl, fun h => ?_⟩, _, _, rfl, rfl, fun h => ?_⟩
  · obtain ⟨opened, hopened, hsize⟩ := h 4096 rfl
    obtain rfl := Option.some.inj hopened
    exact absurd (hsize 1 rfl).1 (by decide)
  · exact absurd (h.sizes_eq 0 (by decide) (by decide)) (by decide)

end Host

end NPFoundation
