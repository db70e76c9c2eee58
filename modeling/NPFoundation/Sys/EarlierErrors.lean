import NPFoundation.Sys.Sys

/-!
# Errors from before the call

A `Diagnostics` collects errors over a sequence of calls, to be looked at once in the end.
So what a call does should not depend on the errors that were there before it. The `mmap`
helpers look whether their own `stat` or `ftruncate` went well by asking for *any* error,
and take an old one for a new one: they give up, and nothing tells why.

What they do is compared on two `Diagnostics` that differ in the errors only. The answer
of the first calls, which is found by `settle`, tells whether the two runs are alike.
-/

namespace NPFoundation

open Effects

/-! ## What is reported -/

theorem message_nonempty (failure : Failure) (what : String) :
    (failure.message what).isEmpty = false := by
  unfold Failure.message
  rw [Bool.eq_false_iff, ne_eq, String.isEmpty_iff]
  simp

namespace Diagnostics

variable {d d' : Diagnostics} {what : String} {failure : Option Failure}

/-- The error for a failed call. -/
def reported (what : String) (failure : Option Failure) : List Message :=
  (failure.map fun failure => ⟨.error, failure.message what⟩).toList

theorem report_errors (d : Diagnostics) (what : String) (failure : Option Failure) :
    (d.report what failure).errors = d.errors ++ reported what failure := by
  cases failure with
  | none => exact (List.append_nil _).symm
  | some failure =>
      simp [report, error, appendFormatted, message_nonempty, append, reported]

/-- The same stream and the same prefix. -/
structure SameStream (d d' : Diagnostics) : Prop where
  stream : d.stream = d'.stream
  prefixText : d.prefixText = d'.prefixText

theorem SameStream.report (h : d.SameStream d') (what : String) (failure : Option Failure) :
    (d.report what failure).SameStream (d'.report what failure) := by
  cases failure with
  | none => exact h
  | some failure =>
      simp only [Diagnostics.report, error, appendFormatted, message_nonempty, append]
      exact ⟨by simp [h.stream, line, h.prefixText], h.prefixText⟩

/-- The call added an error. -/
def Reported (d after : Diagnostics) : Prop := ∃ new, new ≠ [] ∧ after.errors = d.errors ++ new

theorem hasError_report (d : Diagnostics) (what : String) (failure : Option Failure) :
    (d.report what failure).hasError = (d.hasError || failure.isSome) := by
  rw [hasError, report_errors, hasError]
  cases failure <;> cases d.errors <;> rfl

/-- Errors are only added. -/
def Extends (d after : Diagnostics) : Prop := ∃ new, after.errors = d.errors ++ new

theorem extends_report (d : Diagnostics) (what : String) (failure : Option Failure) :
    d.Extends (d.report what failure) := ⟨_, report_errors d what failure⟩

theorem reported_report {failure : Failure} : d.Reported (d.report what (some failure)) :=
  ⟨_, by simp [reported], report_errors d what _⟩

theorem Reported.extends {after : Diagnostics} (h : d.Reported d') (h' : d'.Extends after) :
    d.Reported after := by
  obtain ⟨new, hne, hnew⟩ := h
  obtain ⟨more, hmore⟩ := h'
  exact ⟨new ++ more, by simp [hne], by rw [hmore, hnew, List.append_assoc]⟩

theorem Extends.reported {after : Diagnostics} (h : d.Extends d') (h' : d'.Reported after) :
    d.Reported after := by
  obtain ⟨new, hnew⟩ := h
  obtain ⟨more, hne, hmore⟩ := h'
  exact ⟨new ++ more, by simp [hne], by rw [hmore, hnew, List.append_assoc]⟩

theorem SameStream.eq_of_noError (h : d.SameStream d') (hd : d.hasError = false)
    (hd' : d'.hasError = false) : d = d' := by
  have hempty : ∀ {d : Diagnostics}, d.hasError = false → d.errors = [] := by
    intro d hno
    simpa [hasError] using hno
  obtain ⟨stream, prefixText, errors⟩ := d
  obtain ⟨stream', prefixText', errors'⟩ := d'
  obtain rfl : stream = stream' := h.stream
  obtain rfl : prefixText = prefixText' := h.prefixText
  obtain rfl : errors = [] := hempty hd
  obtain rfl : errors' = [] := hempty hd'
  rfl

theorem not_reported_self (d : Diagnostics) : ¬ d.Reported d := by
  rintro ⟨new, hne, hnew⟩
  exact hne (List.append_right_eq_self.mp hnew.symm)

end Diagnostics

open Diagnostics

/-- Two runs of a helper on two `Diagnostics` cannot be told apart. -/
structure Alike (d₁ d₂ : Diagnostics) (trace₁ trace₂ : List (SysCall × Reply))
    (after₁ after₂ : Diagnostics) : Prop where
  calls : trace₁ = trace₂
  errors : ∃ new, after₁.errors = d₁.errors ++ new ∧ after₂.errors = d₂.errors ++ new
  stream : after₁.SameStream after₂

/-- Nothing was reported, or the same thing. -/
theorem alike_report {d₁ d₂ : Diagnostics} (h : d₁.SameStream d₂)
    (trace : List (SysCall × Reply)) (what : String) (failure : Option Failure) :
    Alike d₁ d₂ trace trace (d₁.report what failure) (d₂.report what failure) :=
  ⟨rfl, ⟨_, report_errors d₁ what failure, report_errors d₂ what failure⟩, h.report what failure⟩

/-- Without errors before the call there is nothing to tell apart. -/
theorem alike_of_noError {d : Diagnostics} (h : d.hasError = false)
    (trace : List (SysCall × Reply)) (after : Diagnostics) : Alike d d trace trace after after := by
  have hempty : d.errors = [] := by simpa [hasError] using h
  refine ⟨rfl, ⟨after.errors, ?_, ?_⟩, ⟨rfl, rfl⟩⟩ <;> rw [hempty, List.nil_append]

namespace Sys

variable {d d₁ d₂ : Diagnostics} {path : String} {size realerPath : Bool} {fd : Nat}
  {rs rest : List Reply} {r : Reply} {mappedSize : BitVec 64} {shared : Bool}

/-! ## What is returned without a mapping is explained by an error -/

theorem close_extends : Yields Reply.again (close d fd) d.Extends :=
  yields_bind (yields_call fun _ => yields_pure (yields_pure (extends_report d _ _)))

theorem openPath_explained (path : String) (flag : OpenFlag) (other : Nat) :
    Yields Reply.again (openPath d path flag other) fun v =>
      d.Extends v.1 ∧ (v.2 = none → d.Reported v.1) := by
  refine yields_bind (yields_call fun r => yields_pure (yields_pure ?_))
  refine ⟨extends_report d _ _, fun hnone => ?_⟩
  cases hf : r.failure with
  | none =>
      rw [hf] at hnone
      exact absurd hnone (by simp)
  | some failure => exact reported_report

theorem mapDescriptor_explained :
    Yields Reply.again (mapDescriptor d path size realerPath mappedSize shared fd) fun v =>
      v.2.mapping = none → d.Reported v.1 := by
  refine yields_bind (yields_call fun r => yields_pure ?_)
  split
  · rename_i hf
    obtain ⟨failure, hfailure⟩ := Option.isSome_iff_exists.mp hf
    rw [hfailure]
    refine yields_bind (close_extends.mono fun d' hextends => yields_pure fun _ => ?_)
    exact reported_report.extends hextends
  · refine yields_bind (fun _ _ _ => ?_)
    refine yields_bind (fun _ _ _ => ?_)
    exact yields_pure fun hnone => absurd hnone (by simp)

/-- `mmapReadOnly` from the `open` on. -/
def openAndMap (diag : Diagnostics) (path : String) (size realerPath : Bool)
    (mappedSize : BitVec 64) : SysProg (Diagnostics × Mapped) := do
  let (diag, fd) ← openPath diag path .readOnly 0
  match fd with
  | none => return (diag, .null)
  | some fd => mapDescriptor diag path size realerPath mappedSize false fd

theorem openAndMap_explained :
    Yields Reply.again (openAndMap d path size realerPath mappedSize) fun v =>
      v.2.mapping = none → d.Reported v.1 := by
  refine yields_bind ((openPath_explained path _ _).mono ?_)
  rintro ⟨d', fd⟩ ⟨hextends, hreported⟩
  cases fd with
  | none => exact yields_pure fun _ => hreported rfl
  | some fd => exact mapDescriptor_explained.mono fun v hv hnone => hextends.reported (hv hnone)

/-- `mmapReadWrite` from the look at the size on. -/
def truncateAndMap (diag : Diagnostics) (path : String) (size realerPath : Bool) (statbuf : Stat)
    (fd : Nat) : SysProg (Diagnostics × Mapped) := do
  if statbuf.st_size.toInt ≤ 0 then
    let diag ← ftruncate diag fd 4096
    if diag.hasError then
      let diag ← close diag fd
      return (diag, .null)
    else mapDescriptor diag path size realerPath 4096 true fd
  else mapDescriptor diag path size realerPath statbuf.st_size true fd

theorem truncateAndMap_explained {statbuf : Stat} (hd : d.hasError = false) :
    Yields Reply.again (truncateAndMap d path size realerPath statbuf fd) fun v =>
      v.2.mapping = none → d.Reported v.1 := by
  unfold truncateAndMap
  split
  · refine yields_bind (yields_bind (yields_call fun r => yields_pure (yields_pure ?_)))
    cases hf : r.failure with
    | none =>
        -- no error before the call and none from it
        have hno : (d.report "ftruncate()" none).hasError = false := hd
        rw [hno]
        exact mapDescriptor_explained
    | some failure =>
        rw [hasError_report, Option.isSome_some, Bool.or_true]
        refine yields_bind (close_extends.mono fun d' hextends => yields_pure fun _ => ?_)
        exact reported_report.extends hextends
  · exact mapDescriptor_explained

/-! ## The first calls of a run -/

/-- A retried call with each reply up to the one that settles it. -/
def attempts (c : SysCall) (rs : List Reply) (r : Reply) : List (SysCall × Reply) :=
  (rs.takeWhile Reply.again ++ [r]).map fun r => (c, r)

variable {α β : Type}

/-- A wrapper around one retried call, and what comes after it. -/
theorem run_wrapper {c : SysCall} {g : Reply → α} {f : α → SysProg β} {rs : List Reply}
    {ran : Ran SysCall Reply β}
    (h : ((retried c >>= fun r => pure (g r)) >>= f).run Reply.again rs = some ran) :
    ∃ r rest, settle Reply.again rs = some (r, rest)
      ∧ ∃ ran', (f (g r)).run Reply.again rest = some ran' ∧ ran = ran'.prepend (attempts c rs r) := by
  change (Prog.call c true fun r => f (g r)).run Reply.again rs = some ran at h
  rw [run_retried] at h
  obtain ⟨⟨r, rest⟩, hr, h⟩ := Option.bind_eq_some_iff.mp h
  obtain ⟨ran', hran', rfl⟩ := Option.map_eq_some_iff.mp h
  exact ⟨r, rest, hr, ran', hran', rfl⟩

/-- Two of them with the same replies go on after the same one. -/
theorem run_wrapper_both {c : SysCall} {g₁ g₂ : Reply → α} {f₁ f₂ : α → SysProg β}
    {rs : List Reply} {ran₁ ran₂ : Ran SysCall Reply β}
    (h₁ : ((retried c >>= fun r => pure (g₁ r)) >>= f₁).run Reply.again rs = some ran₁)
    (h₂ : ((retried c >>= fun r => pure (g₂ r)) >>= f₂).run Reply.again rs = some ran₂) :
    ∃ r rest, settle Reply.again rs = some (r, rest)
      ∧ ∃ ran₁' ran₂', (f₁ (g₁ r)).run Reply.again rest = some ran₁'
        ∧ (f₂ (g₂ r)).run Reply.again rest = some ran₂'
        ∧ ran₁ = ran₁'.prepend (attempts c rs r) ∧ ran₂ = ran₂'.prepend (attempts c rs r) := by
  obtain ⟨r, rest, hr, ran₁', hrest₁, rfl⟩ := run_wrapper h₁
  obtain ⟨r', rest', hr', ran₂', hrest₂, rfl⟩ := run_wrapper h₂
  obtain ⟨rfl, rfl⟩ := Prod.mk.inj (Option.some.inj (hr.symm.trans hr'))
  exact ⟨r, rest, hr, ran₁', ran₂', hrest₁, hrest₂, rfl, rfl⟩

/-- The reply that settles a call is the only one. -/
theorem forall_settled {P : Reply → List Reply → Prop} (hr : settle Reply.again rs = some (r, rest)) :
    (∀ r' rest', settle Reply.again rs = some (r', rest') → P r' rest') ↔ P r rest := by
  refine ⟨fun hall => hall r rest hr, fun hone r' rest' hr' => ?_⟩
  obtain ⟨rfl, rfl⟩ := Prod.mk.inj (Option.some.inj (hr.symm.trans hr'))
  exact hone

/-- `mmapReadOnly` from the first look at the errors on. -/
def mapUnlessError (diag : Diagnostics) (path : String) (size realerPath : Bool) (statbuf : Stat) :
    SysProg (Diagnostics × Mapped) :=
  if diag.hasError then return (diag, .null)
  else if statbuf.st_size.toInt ≤ 0 then
    return (diag, { Mapped.null with size := if size then some 0 else none })
  else openAndMap diag path size realerPath statbuf.st_size

/-- `mmapReadWrite` from the first look at the errors on. -/
def truncateUnlessError (diag : Diagnostics) (path : String) (size realerPath : Bool)
    (statbuf : Stat) (fd : Nat) : SysProg (Diagnostics × Mapped) := do
  if diag.hasError then
    let diag ← close diag fd
    return (diag, .null)
  else truncateAndMap diag path size realerPath statbuf fd

theorem mmapReadOnly_eq (d : Diagnostics) : mmapReadOnly d path size realerPath
    = stat d path >>= fun v => mapUnlessError v.1 path size realerPath v.2 := rfl

/-- `mmapReadWrite` from the `stat` on. -/
def statAndMap (diag : Diagnostics) (path : String) (size realerPath : Bool) (fd : Option Nat) :
    SysProg (Diagnostics × Mapped) :=
  match fd with
  | none => return (diag, .null)
  | some fd => stat diag path >>= fun v => truncateUnlessError v.1 path size realerPath v.2 fd

theorem mmapReadWrite_eq (d : Diagnostics) : mmapReadWrite d path size realerPath
    = openPath d path ⟨true, true, false⟩ 0o666 >>=
        fun v => statAndMap v.1 path size realerPath v.2 := rfl

/-- The error of a `close`. -/
def closeFailure (r : Reply) : Option Failure :=
  r.failure.filter fun failure => failure.errno != EINTR

theorem run_closeAndNull {ran : Ran SysCall Reply (Diagnostics × Mapped)}
    (h : (close d fd >>= fun diag => pure (diag, Mapped.null)).run Reply.again rs = some ran) :
    ∃ r rest, rs = r :: rest
      ∧ ran = ⟨(d.report "close()" (closeFailure r), .null), [(.close fd, r)], rest⟩ := by
  cases rs with
  | nil => exact absurd h (by simp [close, once, bind, Prog.bind, Prog.run])
  | cons r rest =>
      refine ⟨r, rest, rfl, (Option.some.inj ?_).symm⟩
      rw [← h]
      cases rest <;> rfl

/-! ## When two runs cannot be told apart -/

/-- Without a mapping there is a new error, or the file was found empty. -/
def Explained (empty : Prop) (d : Diagnostics) (ran : Ran SysCall Reply (Diagnostics × Mapped)) :
    Prop :=
  ran.value.2.mapping = none → d.Reported ran.value.1 ∨ empty

/-- The errors in two `Diagnostics` had no influence. -/
structure Undisturbed (empty : Prop) (d₁ d₂ : Diagnostics)
    (ran₁ ran₂ : Ran SysCall Reply (Diagnostics × Mapped)) : Prop where
  alike : Alike d₁ d₂ ran₁.trace ran₂.trace ran₁.value.1 ran₂.value.1
  mapped : ran₁.value.2 = ran₂.value.2
  explained₁ : Explained empty d₁ ran₁
  explained₂ : Explained empty d₂ ran₂

variable {empty : Prop} {ran ran₁ ran₂ : Ran SysCall Reply (Diagnostics × Mapped)} {statbuf : Stat}

theorem undisturbed_prepend (t : List (SysCall × Reply)) :
    Undisturbed empty d₁ d₂ (ran₁.prepend t) (ran₂.prepend t)
      ↔ Undisturbed empty d₁ d₂ ran₁ ran₂ := by
  constructor
  · intro h
    exact ⟨⟨List.append_cancel_left h.alike.calls, h.alike.errors, h.alike.stream⟩, h.mapped,
      h.explained₁, h.explained₂⟩
  · intro h
    exact ⟨⟨congrArg (t ++ ·) h.alike.calls, h.alike.errors, h.alike.stream⟩, h.mapped,
      h.explained₁, h.explained₂⟩

theorem undisturbed_of_noError (h : d.hasError = false) (hran : Explained empty d ran) :
    Undisturbed empty d d ran ran :=
  ⟨alike_of_noError h _ _, rfl, hran, hran⟩

theorem run_mapUnlessError_error (hd : d.hasError = true) :
    (mapUnlessError d path size realerPath statbuf).run Reply.again rs
      = some ⟨(d, .null), [], rs⟩ := by
  rw [mapUnlessError, if_pos hd]
  exact run_pure _ _

theorem run_mapUnlessError_empty (hd : d.hasError = false) (hempty : statbuf.st_size.toInt ≤ 0) :
    (mapUnlessError d path size realerPath statbuf).run Reply.again rs
      = some ⟨(d, { Mapped.null with size := if size then some 0 else none }), [], rs⟩ := by
  rw [mapUnlessError, hd, if_neg (by simp), if_pos hempty]
  exact run_pure _ _

/-- An old error and a file that is not empty: no mapping, and nothing says why. -/
theorem not_explained_of_error (hd : d.hasError = true) (hempty : ¬ empty)
    (h : (mapUnlessError d path size realerPath statbuf).run Reply.again rs = some ran) :
    ¬ Explained empty d ran := by
  rw [run_mapUnlessError_error hd] at h
  obtain rfl := Option.some.inj h
  intro hexplained
  rcases hexplained rfl with hreported | hempty'
  · exact not_reported_self d hreported
  · exact hempty hempty'

theorem mapUnlessError_undisturbed_iff (h : d₁.SameStream d₂)
    (h₁ : (mapUnlessError d₁ path size realerPath statbuf).run Reply.again rs = some ran₁)
    (h₂ : (mapUnlessError d₂ path size realerPath statbuf).run Reply.again rs = some ran₂) :
    Undisturbed (statbuf.st_size.toInt ≤ 0) d₁ d₂ ran₁ ran₂
      ↔ (d₁.hasError = false ∧ d₂.hasError = false)
        ∨ (statbuf.st_size.toInt ≤ 0 ∧ (size = false ∨ d₁.hasError = d₂.hasError)) := by
  by_cases hno : d₁.hasError = false ∧ d₂.hasError = false
  · -- the two `Diagnostics` are the same
    obtain rfl := h.eq_of_noError hno.1 hno.2
    obtain rfl := Option.some.inj (h₁.symm.trans h₂)
    refine iff_of_true (undisturbed_of_noError hno.1 fun hnone => ?_) (.inl hno)
    by_cases hempty : statbuf.st_size.toInt ≤ 0
    · exact .inr hempty
    · rw [mapUnlessError, hno.1, if_neg (by simp), if_neg hempty] at h₁
      exact .inl (openAndMap_explained rs ran₁ h₁ hnone)
  · by_cases hempty : statbuf.st_size.toInt ≤ 0
    · have hrun : ∀ {d : Diagnostics} {ran},
          (mapUnlessError d path size realerPath statbuf).run Reply.again rs = some ran →
          ran = ⟨(d, { Mapped.null with
            size := if d.hasError = false ∧ size = true then some 0 else none }), [], rs⟩ := by
        intro d ran hran
        cases hd : d.hasError with
        | true =>
            rw [run_mapUnlessError_error hd] at hran
            exact (Option.some.inj hran).symm
        | false =>
            rw [run_mapUnlessError_empty hd hempty] at hran
            rw [← Option.some.inj hran]
            simp
      obtain rfl := hrun h₁
      obtain rfl := hrun h₂
      constructor
      · intro hu
        refine .inr ⟨hempty, ?_⟩
        have hsize := congrArg Mapped.size hu.mapped
        cases hs : size <;> cases hd₁ : d₁.hasError <;> cases hd₂ : d₂.hasError <;>
          simp_all
      · intro hcond
        have hsame : size = false ∨ d₁.hasError = d₂.hasError := by
          rcases hcond with hcond | hcond
          · exact absurd hcond hno
          · exact hcond.2
        refine ⟨alike_report h [] "" none, ?_, fun _ => .inr hempty, fun _ => .inr hempty⟩
        rcases hsame with hsame | hsame <;> simp [hsame]
    · -- one of them gives up for no reason
      refine iff_of_false (fun hu => ?_) (fun hcond => ?_)
      · rw [not_and_or, Bool.not_eq_false, Bool.not_eq_false] at hno
        rcases hno with hd | hd
        · exact not_explained_of_error hd hempty h₁ hu.explained₁
        · exact not_explained_of_error hd hempty h₂ hu.explained₂
      · rcases hcond with hcond | hcond
        · exact hno hcond
        · exact hempty hcond.1

/-- The first `stat` found an empty file. -/
def FoundEmpty (rs : List Reply) : Prop :=
  ∃ r rest, settle Reply.again rs = some (r, rest) ∧ r.failure = none ∧ r.stat.st_size.toInt ≤ 0

/-- When `mmapReadOnly` does the same on both: `stat` fails, there are no errors, or the file is
empty and nothing is said about its size or both keep silent. -/
def ReadOnlyUnaffected (d₁ d₂ : Diagnostics) (size : Bool) (rs : List Reply) : Prop :=
  ∀ r rest, settle Reply.again rs = some (r, rest) →
    r.failure.isSome = true
    ∨ (d₁.hasError = false ∧ d₂.hasError = false)
    ∨ (r.stat.st_size.toInt ≤ 0 ∧ (size = false ∨ d₁.hasError = d₂.hasError))

theorem mmapReadOnly_undisturbed_iff (h : d₁.SameStream d₂)
    (h₁ : (mmapReadOnly d₁ path size realerPath).run Reply.again rs = some ran₁)
    (h₂ : (mmapReadOnly d₂ path size realerPath).run Reply.again rs = some ran₂) :
    Undisturbed (FoundEmpty rs) d₁ d₂ ran₁ ran₂ ↔ ReadOnlyUnaffected d₁ d₂ size rs := by
  rw [mmapReadOnly_eq] at h₁ h₂
  have hboth := run_wrapper_both h₁ h₂
  clear h₁ h₂
  obtain ⟨r, rest, hr, ran₁, ran₂, h₁, h₂, rfl, rfl⟩ := hboth
  dsimp only at h₁ h₂
  rw [undisturbed_prepend]
  rw [ReadOnlyUnaffected, forall_settled hr]
  cases hf : r.failure with
  | some failure =>
      -- both report the same and stop
      refine iff_of_true ?_ (.inl rfl)
      rw [hf] at h₁ h₂
      have herror : ∀ d : Diagnostics, (d.report "stat()" (some failure)).hasError = true := by
        intro d
        rw [hasError_report, Option.isSome_some, Bool.or_true]
      rw [run_mapUnlessError_error (herror _)] at h₁ h₂
      obtain rfl := Option.some.inj h₁
      obtain rfl := Option.some.inj h₂
      exact ⟨alike_report h [] "stat()" (some failure), rfl, fun _ => .inl reported_report,
        fun _ => .inl reported_report⟩
  | none =>
      rw [hf] at h₁ h₂
      have hempty : FoundEmpty rs = (r.stat.st_size.toInt ≤ 0) := by
        refine propext ⟨?_, fun hle => ⟨r, rest, hr, hf, hle⟩⟩
        rintro ⟨r', rest', hr', -, hle⟩
        obtain ⟨rfl, rfl⟩ := Prod.mk.inj (Option.some.inj (hr.symm.trans hr'))
        exact hle
      rw [hempty, mapUnlessError_undisturbed_iff h h₁ h₂]
      simp

/-! ## With a handler -/

/-- `withMmapReadOnly` from the mapping on. -/
def showMapping (v : Diagnostics × Mapped) : SysProg Diagnostics :=
  match v.2.mapping with
  | none => return v.1
  | some mapping => do
      let _ ← once (.handler mapping (v.2.size.getD 0) (v.2.realerPath.getD ""))
      munmap v.1 mapping (v.2.size.getD 0)

theorem withMmapReadOnly_eq (d : Diagnostics) : withMmapReadOnly d path
    = stat d path >>= fun v => mapUnlessError v.1 path true true v.2 >>= showMapping := rfl

/-- Nothing is shown where nothing was mapped. -/
theorem run_showMapping_none (hd : d.hasError = true ∨ statbuf.st_size.toInt ≤ 0) :
    (mapUnlessError d path true true statbuf >>= showMapping).run Reply.again rs
      = some ⟨d, [], rs⟩ := by
  rw [run_bind]
  cases herror : d.hasError with
  | true =>
      rw [run_mapUnlessError_error herror, Option.bind_some]
      exact congrArg (Option.map _) (run_pure d rs)
  | false =>
      have hempty : statbuf.st_size.toInt ≤ 0 := by
        rcases hd with hd | hd
        · exact absurd hd (by simp [herror])
        · exact hd
      rw [run_mapUnlessError_empty herror hempty, Option.bind_some]
      exact congrArg (Option.map _) (run_pure d rs)

/-- A file that is not empty is opened next, unless there is an error. -/
theorem trace_showMapping {ran : Ran SysCall Reply Diagnostics} (hsize : ¬ statbuf.st_size.toInt ≤ 0)
    (h : (mapUnlessError d path true true statbuf >>= showMapping).run Reply.again rs = some ran) :
    ran.trace = [] ↔ d.hasError = true := by
  cases hd : d.hasError with
  | true =>
      rw [run_showMapping_none (.inl hd)] at h
      obtain rfl := Option.some.inj h
      exact iff_of_true rfl rfl
  | false =>
      rw [mapUnlessError, hd, if_neg (by simp), if_neg hsize] at h
      obtain ⟨r, rest, htrace⟩ := run_call_head h
      exact iff_of_false (by rw [htrace]; exact List.cons_ne_nil _ _) (by simp)

/-- When `withMmapReadOnly` does the same on both. -/
def WithUnaffected (d₁ d₂ : Diagnostics) (rs : List Reply) : Prop :=
  ∀ r rest, settle Reply.again rs = some (r, rest) →
    r.failure.isSome = true ∨ r.stat.st_size.toInt ≤ 0 ∨ d₁.hasError = d₂.hasError

theorem withMmapReadOnly_alike_iff {ran₁ ran₂ : Ran SysCall Reply Diagnostics}
    (h : d₁.SameStream d₂)
    (h₁ : (withMmapReadOnly d₁ path).run Reply.again rs = some ran₁)
    (h₂ : (withMmapReadOnly d₂ path).run Reply.again rs = some ran₂) :
    Alike d₁ d₂ ran₁.trace ran₂.trace ran₁.value ran₂.value ↔ WithUnaffected d₁ d₂ rs := by
  rw [withMmapReadOnly_eq] at h₁ h₂
  have hboth := run_wrapper_both h₁ h₂
  clear h₁ h₂
  obtain ⟨r, rest, hr, ran₁, ran₂, h₁, h₂, rfl, rfl⟩ := hboth
  dsimp only at h₁ h₂
  rw [WithUnaffected, forall_settled hr]
  -- where both stop after the `stat`, they are alike
  have hstop : (∀ d : Diagnostics, d = d₁ ∨ d = d₂ →
      (d.report "stat()" r.failure).hasError = true ∨ r.stat.st_size.toInt ≤ 0) →
      Alike d₁ d₂ (ran₁.prepend (attempts (.stat path) rs r)).trace
        (ran₂.prepend (attempts (.stat path) rs r)).trace ran₁.value ran₂.value := by
    intro hboth
    rw [run_showMapping_none (hboth d₁ (.inl rfl))] at h₁
    rw [run_showMapping_none (hboth d₂ (.inr rfl))] at h₂
    obtain rfl := Option.some.inj h₁
    obtain rfl := Option.some.inj h₂
    exact alike_report h _ _ _
  cases hf : r.failure with
  | some failure =>
      refine iff_of_true (hstop fun d _ => .inl ?_) (.inl rfl)
      rw [hf, hasError_report, Option.isSome_some, Bool.or_true]
  | none =>
      rw [hf] at h₁ h₂ hstop
      by_cases hsize : r.stat.st_size.toInt ≤ 0
      · exact iff_of_true (hstop fun d _ => .inr hsize) (.inr (.inl hsize))
      · by_cases heq : d₁.hasError = d₂.hasError
        · refine iff_of_true ?_ (.inr (.inr heq))
          cases hd₁ : d₁.hasError with
          | true =>
              refine hstop fun d hd => .inl ?_
              rcases hd with rfl | rfl
              · exact hd₁
              · exact heq.symm.trans hd₁
          | false =>
              obtain rfl := h.eq_of_noError hd₁ (heq.symm.trans hd₁)
              obtain rfl := Option.some.inj (h₁.symm.trans h₂)
              exact alike_of_noError hd₁ _ _
        · -- one stops, the other opens the file
          refine iff_of_false (fun halike => ?_) (by simp [hsize, heq])
          have hcalls : ran₁.trace = ran₂.trace := List.append_cancel_left halike.calls
          have hstops := trace_showMapping hsize h₁
          rw [hcalls, trace_showMapping hsize h₂] at hstops
          exact heq (Bool.eq_iff_iff.mpr hstops.symm)

/-! ## For writing -/

/-- Both close the descriptor and give up. -/
theorem closeAndNull_alike {t : List (SysCall × Reply)} {d₁' d₂' : Diagnostics}
    (h : Alike d₁ d₂ t t d₁' d₂')
    (h₁ : (close d₁' fd >>= fun diag => pure (diag, Mapped.null)).run Reply.again rs = some ran₁)
    (h₂ : (close d₂' fd >>= fun diag => pure (diag, Mapped.null)).run Reply.again rs = some ran₂) :
    Alike d₁ d₂ ran₁.trace ran₂.trace ran₁.value.1 ran₂.value.1
      ∧ ran₁.value.2 = ran₂.value.2 := by
  obtain ⟨r, rest, rfl, rfl⟩ := run_closeAndNull h₁
  obtain ⟨r', rest', hr', rfl⟩ := run_closeAndNull h₂
  obtain ⟨rfl, rfl⟩ := List.cons.inj hr'
  obtain ⟨new, hnew₁, hnew₂⟩ := h.errors
  refine ⟨⟨rfl, ⟨new ++ reported "close()" (closeFailure r), ?_, ?_⟩, h.stream.report _ _⟩, rfl⟩
  · rw [report_errors, hnew₁, List.append_assoc]
  · rw [report_errors, hnew₂, List.append_assoc]

/-- The descriptor is closed, and that fails. -/
def CloseFails (rs : List Reply) : Prop := ∃ r rest, rs = r :: rest ∧ (closeFailure r).isSome = true

theorem closeAndNull_reported_iff
    (h : (close d fd >>= fun diag => pure (diag, Mapped.null)).run Reply.again rs = some ran) :
    d.Reported ran.value.1 ↔ CloseFails rs := by
  obtain ⟨r, rest, rfl, rfl⟩ := run_closeAndNull h
  have hfails : CloseFails (r :: rest) ↔ (closeFailure r).isSome = true := by
    refine ⟨?_, fun h => ⟨r, rest, rfl, h⟩⟩
    rintro ⟨r', rest', heq, h⟩
    rw [(List.cons.inj heq).1]
    exact h
  rw [hfails]
  cases closeFailure r with
  | none => exact iff_of_false (not_reported_self d) (by simp)
  | some failure => exact iff_of_true reported_report rfl

/-- What comes after a successful `stat` begins with a `close` just when there was an error. -/
theorem trace_truncateUnlessError
    (h : (truncateUnlessError d path size realerPath statbuf fd).run Reply.again rs = some ran) :
    (∃ r rest, ran.trace = (.close fd, r) :: rest) ↔ d.hasError = true := by
  unfold truncateUnlessError at h
  cases hd : d.hasError with
  | true =>
      rw [if_pos hd] at h
      obtain ⟨r, rest, rfl, rfl⟩ := run_closeAndNull h
      exact iff_of_true ⟨r, [], rfl⟩ rfl
  | false =>
      rw [hd, if_neg (by simp)] at h
      refine iff_of_false ?_ (by simp)
      rintro ⟨r, rest, htrace⟩
      unfold truncateAndMap at h
      split at h
      · obtain ⟨r', rest', htrace'⟩ := run_call_head h
        rw [htrace] at htrace'
        simp at htrace'
      · obtain ⟨r', rest', htrace'⟩ := run_call_head h
        rw [htrace] at htrace'
        simp at htrace'

theorem truncateUnlessError_undisturbed_iff (h : d₁.SameStream d₂)
    (h₁ : (truncateUnlessError d₁ path size realerPath statbuf fd).run Reply.again rs = some ran₁)
    (h₂ : (truncateUnlessError d₂ path size realerPath statbuf fd).run Reply.again rs = some ran₂) :
    Undisturbed False d₁ d₂ ran₁ ran₂
      ↔ (d₁.hasError = false ∧ d₂.hasError = false)
        ∨ (d₁.hasError = true ∧ d₂.hasError = true ∧ CloseFails rs) := by
  by_cases heq : d₁.hasError = d₂.hasError
  · cases hd₁ : d₁.hasError with
    | true =>
        have hd₂ : d₂.hasError = true := heq.symm.trans hd₁
        rw [truncateUnlessError, if_pos hd₁] at h₁
        rw [truncateUnlessError, if_pos hd₂] at h₂
        obtain ⟨halike, hmapped⟩ := closeAndNull_alike (alike_report h [] "" none) h₁ h₂
        have hnull : ran₁.value.2.mapping = none := by
          obtain ⟨r, rest, -, rfl⟩ := run_closeAndNull h₁
          rfl
        constructor
        · intro hu
          rcases hu.explained₁ hnull with hreported | hfalse
          · exact .inr ⟨rfl, hd₂, (closeAndNull_reported_iff h₁).mp hreported⟩
          · exact hfalse.elim
        · rintro (⟨hfalse, -⟩ | ⟨-, -, hclose⟩)
          · exact absurd hfalse (by simp)
          · exact ⟨halike, hmapped, fun _ => .inl ((closeAndNull_reported_iff h₁).mpr hclose),
              fun _ => .inl ((closeAndNull_reported_iff h₂).mpr hclose)⟩
    | false =>
        have hd₂ : d₂.hasError = false := heq.symm.trans hd₁
        obtain rfl := h.eq_of_noError hd₁ hd₂
        obtain rfl := Option.some.inj (h₁.symm.trans h₂)
        refine iff_of_true (undisturbed_of_noError hd₁ fun hnone => .inl ?_) (.inl ⟨rfl, hd₂⟩)
        rw [truncateUnlessError, hd₁, if_neg (by simp)] at h₁
        exact truncateAndMap_explained hd₁ rs ran₁ h₁ hnone
  · -- one closes the descriptor, the other goes on with it
    refine iff_of_false (fun hu => ?_) (fun hcond => ?_)
    · have hstops := trace_truncateUnlessError h₁
      rw [hu.alike.calls, trace_truncateUnlessError h₂] at hstops
      exact heq (Bool.eq_iff_iff.mpr hstops.symm)
    · rcases hcond with hcond | hcond
      · exact heq (hcond.1.trans hcond.2.symm)
      · exact heq (hcond.1.trans hcond.2.1.symm)

/-- When `mmapReadWrite` does the same on both and says why it gave up: `open` or `stat` fails, there
are no errors, or both have some and at least the `close` goes wrong. -/
def ReadWriteUnaffected (d₁ d₂ : Diagnostics) (rs : List Reply) : Prop :=
  ∀ r rest, settle Reply.again rs = some (r, rest) →
    r.failure.isSome = true ∨ ∀ r' rest', settle Reply.again rest = some (r', rest') →
      r'.failure.isSome = true
      ∨ (d₁.hasError = false ∧ d₂.hasError = false)
      ∨ (d₁.hasError = true ∧ d₂.hasError = true ∧ CloseFails rest')

/-- After a `stat` that failed, both report it and close the descriptor. -/
theorem truncateUnlessError_undisturbed {failure : Failure} (h : d₁.SameStream d₂)
    (h₁ : (truncateUnlessError (d₁.report "stat()" (some failure)) path size realerPath statbuf
      fd).run Reply.again rs = some ran₁)
    (h₂ : (truncateUnlessError (d₂.report "stat()" (some failure)) path size realerPath statbuf
      fd).run Reply.again rs = some ran₂) : Undisturbed False d₁ d₂ ran₁ ran₂ := by
  have herror : ∀ d : Diagnostics, (d.report "stat()" (some failure)).hasError = true := by
    intro d
    rw [hasError_report, Option.isSome_some, Bool.or_true]
  rw [truncateUnlessError, if_pos (herror _)] at h₁ h₂
  obtain ⟨halike, hmapped⟩ := closeAndNull_alike (alike_report h [] "stat()" (some failure)) h₁ h₂
  have hexplained : ∀ {d : Diagnostics} {ran : Ran SysCall Reply (Diagnostics × Mapped)},
      (close (d.report "stat()" (some failure)) fd >>= fun diag => pure (diag, Mapped.null)).run
        Reply.again rs = some ran → Explained False d ran := by
    intro d ran hran _
    obtain ⟨r, rest, -, rfl⟩ := run_closeAndNull hran
    exact .inl (reported_report.extends (extends_report _ _ _))
  exact ⟨halike, hmapped, hexplained h₁, hexplained h₂⟩

theorem mmapReadWrite_undisturbed_iff (h : d₁.SameStream d₂)
    (h₁ : (mmapReadWrite d₁ path size realerPath).run Reply.again rs = some ran₁)
    (h₂ : (mmapReadWrite d₂ path size realerPath).run Reply.again rs = some ran₂) :
    Undisturbed False d₁ d₂ ran₁ ran₂ ↔ ReadWriteUnaffected d₁ d₂ rs := by
  rw [mmapReadWrite_eq] at h₁ h₂
  have hboth := run_wrapper_both h₁ h₂
  clear h₁ h₂
  obtain ⟨r, rest, hr, ran₁, ran₂, h₁, h₂, rfl, rfl⟩ := hboth
  dsimp only at h₁ h₂
  rw [undisturbed_prepend, ReadWriteUnaffected, forall_settled hr]
  cases hf : r.failure with
  | some failure =>
      refine iff_of_true ?_ (.inl rfl)
      rw [hf] at h₁ h₂
      obtain rfl := Option.some.inj ((run_pure _ _).symm.trans h₁)
      obtain rfl := Option.some.inj ((run_pure _ _).symm.trans h₂)
      exact ⟨alike_report h [] "open()" (some failure), rfl, fun _ => .inl reported_report,
        fun _ => .inl reported_report⟩
  | none =>
      -- the descriptor is open: the same again for the `stat`
      rw [hf] at h₁ h₂
      have hboth := run_wrapper_both h₁ h₂
      clear h₁ h₂
      obtain ⟨st, rest', hst, ran₁, ran₂, h₁, h₂, rfl, rfl⟩ := hboth
      dsimp only at h₁ h₂
      rw [undisturbed_prepend, forall_settled hst]
      cases hf' : st.failure with
      | some failure =>
          rw [hf'] at h₁ h₂
          exact iff_of_true (truncateUnlessError_undisturbed h h₁ h₂) (.inr (.inl rfl))
      | none =>
          rw [hf'] at h₁ h₂
          rw [truncateUnlessError_undisturbed_iff h h₁ h₂]
          simp

/-- Exactly when the errors from before the call have no influence on what the helpers do. -/
theorem helpers_unaffected_iff (path : String) (size realerPath : Bool) {d₁ d₂ : Diagnostics}
    (h : d₁.SameStream d₂) (rs : List Reply) :
    (∀ ran₁ ran₂, (mmapReadOnly d₁ path size realerPath).run Reply.again rs = some ran₁ →
      (mmapReadOnly d₂ path size realerPath).run Reply.again rs = some ran₂ →
      (Undisturbed (FoundEmpty rs) d₁ d₂ ran₁ ran₂ ↔ ReadOnlyUnaffected d₁ d₂ size rs))
    ∧ (∀ ran₁ ran₂, (mmapReadWrite d₁ path size realerPath).run Reply.again rs = some ran₁ →
      (mmapReadWrite d₂ path size realerPath).run Reply.again rs = some ran₂ →
      (Undisturbed False d₁ d₂ ran₁ ran₂ ↔ ReadWriteUnaffected d₁ d₂ rs))
    ∧ (∀ ran₁ ran₂, (withMmapReadOnly d₁ path).run Reply.again rs = some ran₁ →
      (withMmapReadOnly d₂ path).run Reply.again rs = some ran₂ →
      (Alike d₁ d₂ ran₁.trace ran₂.trace ran₁.value ran₂.value ↔ WithUnaffected d₁ d₂ rs)) :=
  ⟨fun _ _ h₁ h₂ => mmapReadOnly_undisturbed_iff h h₁ h₂,
    fun _ _ h₁ h₂ => mmapReadWrite_undisturbed_iff h h₁ h₂,
    fun _ _ h₁ h₂ => withMmapReadOnly_alike_iff h h₁ h₂⟩

/-- An earlier call failed. -/
def noted : Diagnostics :=
  { Diagnostics.quiet with errors := [⟨.error, "open() failed with errno=2, No such file"⟩] }

/-- Every call goes well, and `stat` finds `n` bytes. -/
def granted (n : BitVec 64) : Reply := ⟨none, 3, ⟨n, .regular⟩, "/a", 4096⟩

/-- A file of no bytes, and one caller who has an error already: nobody asks for the size. -/
theorem helpers_unaffected_empty : ∃ ran₁ ran₂,
    (mmapReadOnly noted "a" false true).run Reply.again [granted 0] = some ran₁
    ∧ (mmapReadOnly .quiet "a" false true).run Reply.again [granted 0] = some ran₂
    ∧ Undisturbed (FoundEmpty [granted 0]) noted .quiet ran₁ ran₂ := by
  have hsame : noted.SameStream .quiet := ⟨rfl, rfl⟩
  refine ⟨_, _, rfl, rfl, ?_⟩
  refine ((helpers_unaffected_iff "a" false true hsame [granted 0]).1 _ _ rfl rfl).mpr ?_
  intro r rest hr
  obtain ⟨rfl, rfl⟩ := Prod.mk.inj (Option.some.inj hr)
  exact .inr (.inr ⟨by decide, .inl rfl⟩)

/-- A file of one byte, and one caller who has an error already. -/
theorem earlier_error_disturbs : ∃ ran₁ ran₂ ran₃ ran₄ ran₅ ran₆,
    let rs := List.replicate 9 (granted 1)
    (mmapReadOnly noted "a" true true).run Reply.again rs = some ran₁
    ∧ (mmapReadOnly .quiet "a" true true).run Reply.again rs = some ran₂
    ∧ ¬ Undisturbed (FoundEmpty rs) noted .quiet ran₁ ran₂
    ∧ (mmapReadWrite noted "a" true true).run Reply.again rs = some ran₃
    ∧ (mmapReadWrite .quiet "a" true true).run Reply.again rs = some ran₄
    ∧ ¬ Undisturbed False noted .quiet ran₃ ran₄
    ∧ (withMmapReadOnly noted "a").run Reply.again rs = some ran₅
    ∧ (withMmapReadOnly .quiet "a").run Reply.again rs = some ran₆
    ∧ ¬ Alike noted .quiet ran₅.trace ran₆.trace ran₅.value ran₆.value := by
  refine ⟨_, _, _, _, _, _, rfl, rfl, ?_, rfl, rfl, ?_, rfl, rfl, ?_⟩
  · intro hu
    exact absurd hu.alike.calls (by decide)
  · intro hu
    exact absurd hu.alike.calls (by decide)
  · intro halike
    exact absurd halike.calls (by decide)

end Sys

end NPFoundation
