import NPFoundation.Sys.ErrorChannel

/-!
# Checking once at the end

Whoever makes a sequence of calls with one `Diagnostics` may look at it after each call and stop at
the first error, or only once at the end. `assertNoError` is such a look: it prints what was
collected and aborts the process.

The two see the same failures. The careful one makes the first calls of the other, with the same
answers, and leaves out the rest.
-/

namespace NPFoundation

open Effects

/-! ## `assertNoError` -/

/-- A process after an assertion: what was written to its streams, and whether it is still there. -/
structure Asserted where
  diag : Diagnostics
  stderr : String
  aborted : Bool
  deriving DecidableEq, Repr

namespace Diagnostics

variable (diag : Diagnostics)

/-- The line for an error. -/
def assertLine (message : Message) : String :=
  (if diag.prefixText = "" then "" else "[" ++ cString diag.prefixText ++ "] ")
    ++ "assertNoError: " ++ cString message.text ++ "\n"

/-- A line for each error. -/
def assertLines : String := String.join (diag.errors.map diag.assertLine)

/-- `assertNoError()`. What is printed goes to the stream, or else to standard error. -/
def assertNoError (stderr : String) : Asserted :=
  if diag.noError then ⟨diag, stderr, false⟩
  else
    match diag.stream with
    | some out => ⟨{ diag with stream := some (out ++ diag.assertLines) }, stderr, true⟩
    | none => ⟨diag, stderr ++ diag.assertLines, true⟩

/-- The process goes on as it was, or it is aborted after all errors were printed. -/
theorem assertNoError_cases (stderr : String) :
    (diag.errors = [] ∧ diag.assertNoError stderr = ⟨diag, stderr, false⟩)
      ∨ (diag.errors ≠ [] ∧ (diag.assertNoError stderr).aborted = true) := by
  unfold assertNoError noError
  cases herrors : diag.errors with
  | nil => exact .inl ⟨rfl, rfl⟩
  | cons error errors =>
      refine .inr ⟨by simp, ?_⟩
      cases diag.stream with
      | none => rfl
      | some out => rfl

theorem aborted_iff (stderr : String) :
    (diag.assertNoError stderr).aborted = true ↔ diag.errors ≠ [] := by
  rcases diag.assertNoError_cases stderr with ⟨hnone, heq⟩ | ⟨hsome, haborted⟩
  · rw [heq]
    exact iff_of_false (by simp) (not_not_intro hnone)
  · exact iff_of_true haborted hsome

theorem hasError_iff : diag.hasError = true ↔ diag.errors ≠ [] := by
  simp [hasError]

end Diagnostics

namespace Sys

/-! ## Checking after each call -/

/-- The calls one after the other, up to the first after which there is an error. -/
def checked (diag : Diagnostics) : List Wrapper → SysProg Diagnostics
  | [] => return diag
  | w :: ws => do
      let diag ← w.call diag
      if diag.hasError then return diag else checked diag ws

variable {diag : Diagnostics} {ws : List Wrapper} {rs : List Reply}
  {ran ran' : Ran SysCall Reply Diagnostics}

/-- Errors are only added. -/
theorem sequence_errors (hran : (sequence diag ws).run Reply.again rs = some ran) :
    ∃ failed, definitiveFailures ran.trace = some failed
      ∧ ran.value.errors = diag.errors ++ failed := by
  have hstart : Told diag.errors .start diag := ⟨rfl, (List.append_nil _).symm⟩
  obtain ⟨s, hs, hplace, herrors⟩ := sequence_told hstart ws rs ran hran
  refine ⟨s.errors, ?_, herrors⟩
  rw [definitiveFailures, hs, Option.bind_some, if_pos hplace]

/-- The run that stops at the first error is the beginning of the other. -/
structure StopsEarly (ran' ran : Ran SysCall Reply Diagnostics) : Prop where
  trace : ran'.trace <+: ran.trace
  errors : ran'.value.errors <+: ran.value.errors
  hasError : ran'.value.hasError = ran.value.hasError
  same : ran.value.hasError = false → ran' = ran

theorem StopsEarly.refl (ran : Ran SysCall Reply Diagnostics) : StopsEarly ran ran :=
  ⟨List.prefix_refl _, List.prefix_refl _, rfl, fun _ => rfl⟩

theorem StopsEarly.prepend (h : StopsEarly ran' ran) (trace : List (SysCall × Reply)) :
    StopsEarly (ran'.prepend trace) (ran.prepend trace) where
  trace := (List.prefix_append_right_inj trace).mpr h.trace
  errors := h.errors
  hasError := h.hasError
  same := fun hno => by rw [h.same hno]

/-- **On the same answers.** -/
theorem checked_stops (hran : (sequence diag ws).run Reply.again rs = some ran) :
    ∃ ran', (checked diag ws).run Reply.again rs = some ran' ∧ StopsEarly ran' ran := by
  induction ws generalizing diag rs ran with
  | nil => exact ⟨ran, hran, .refl ran⟩
  | cons w ws ih =>
      rw [sequence, run_bind] at hran
      obtain ⟨ran₁, hran₁, hrest⟩ := Option.bind_eq_some_iff.mp hran
      obtain ⟨ran₂, hran₂, rfl⟩ := Option.map_eq_some_iff.mp hrest
      rw [checked, run_bind, hran₁, Option.bind_some]
      by_cases herror : ran₁.value.hasError = true
      · -- it stops here, and what comes later does not take the error back
        rw [if_pos herror, run_pure]
        obtain ⟨failed, -, herrors⟩ := sequence_errors hran₂
        have hlate : ran₂.value.hasError = true := by
          rw [Diagnostics.hasError_iff] at herror ⊢
          rw [herrors]
          exact List.append_ne_nil_of_left_ne_nil herror failed
        refine ⟨_, rfl, ⟨?_, ⟨failed, herrors.symm⟩, herror.trans hlate.symm, fun hno => ?_⟩⟩
        · exact (List.prefix_append_right_inj ran₁.trace).mpr List.nil_prefix
        · exact absurd (hlate.symm.trans hno) (by simp)
      · rw [if_neg herror]
        obtain ⟨ran', hran', hstops⟩ := ih hran₂
        exact ⟨ran'.prepend ran₁.trace, by rw [hran']; rfl, hstops.prepend ran₁.trace⟩

/-- **One check at the end is enough.** For every sequence of calls with one `Diagnostics`, on all
answers of the system: `assertNoError` at the end aborts exactly when there was an error before or
some call failed for good. An attempt that is made again, an interrupted `close` and the calls made
only to resolve `realerPath` do not count as failed. A process that checks after each call, and
stops at the first error, aborts exactly then too. It makes the first of the same system calls and
collects the first of the same errors; when nothing fails the two do the same. -/
theorem check_once_suffices (diag : Diagnostics) (ws : List Wrapper) (stderr : String)
    (rs : List Reply) (ran : Ran SysCall Reply Diagnostics)
    (hran : (sequence diag ws).run Reply.again rs = some ran) :
    ∃ failed ran', definitiveFailures ran.trace = some failed
      ∧ ((ran.value.assertNoError stderr).aborted = true ↔ diag.errors ≠ [] ∨ failed ≠ [])
      ∧ (checked diag ws).run Reply.again rs = some ran'
      ∧ (ran'.value.assertNoError stderr).aborted = (ran.value.assertNoError stderr).aborted
      ∧ ran'.trace <+: ran.trace ∧ ran'.value.errors <+: ran.value.errors
      ∧ ((ran.value.assertNoError stderr).aborted = false → ran' = ran) := by
  obtain ⟨failed, hfailed, herrors⟩ := sequence_errors hran
  obtain ⟨ran', hran', hstops⟩ := checked_stops hran
  have haborted : ∀ diag : Diagnostics, (diag.assertNoError stderr).aborted = diag.hasError := by
    intro diag
    rw [Bool.eq_iff_iff, diag.aborted_iff, diag.hasError_iff]
  refine ⟨failed, ran', hfailed, ?_, hran', ?_, hstops.trace, hstops.errors, fun hno => ?_⟩
  · rw [Diagnostics.aborted_iff, herrors, ne_eq, List.append_eq_nil_iff, not_and_or]
  · rw [haborted, haborted, hstops.hasError]
  · exact hstops.same ((haborted _).symm.trans hno)

/-- A reply that is a failure. -/
def refusal (errno : Nat) (text : String) : Reply := ⟨some ⟨errno, text⟩, 0, ⟨0, .other⟩, "", 0⟩

/-- Two calls that fail: the careful process does not make the second. -/
theorem check_once_suffices_refused :
    ∃ ran ran', (sequence .quiet [.truncate "a" 4, .munmap 8 4096]).run Reply.again
        [refusal 2 "No such file or directory", refusal 22 "Invalid argument"] = some ran
      ∧ (checked .quiet [.truncate "a" 4, .munmap 8 4096]).run Reply.again
        [refusal 2 "No such file or directory", refusal 22 "Invalid argument"] = some ran'
      ∧ (ran'.value.assertNoError "").aborted = (ran.value.assertNoError "").aborted
      ∧ ran'.trace <+: ran.trace ∧ ran.trace.length = 2 ∧ ran'.trace.length = 1 := by
  obtain ⟨ran, hran, hlength⟩ : ∃ ran,
      (sequence .quiet [.truncate "a" 4, .munmap 8 4096]).run Reply.again
        [refusal 2 "No such file or directory", refusal 22 "Invalid argument"] = some ran
      ∧ ran.trace.length = 2 := ⟨_, rfl, rfl⟩
  obtain ⟨failed, ran', -, -, hran', haborted, htrace, -⟩ :=
    check_once_suffices .quiet [.truncate "a" 4, .munmap 8 4096] "" _ ran hran
  have hchecked : ((checked .quiet [.truncate "a" 4, .munmap 8 4096]).run Reply.again
      [refusal 2 "No such file or directory", refusal 22 "Invalid argument"]).map
        (fun ran => ran.trace.length) = some 1 := rfl
  rw [hran'] at hchecked
  exact ⟨ran, ran', hran, hran', haborted, htrace, hlength, Option.some.inj hchecked⟩

end Sys

end NPFoundation
