import NPFoundation.Dispatch.TimerProof

/-!
# A timer at rest

Whatever order the libdispatch calls are executed in, they add up. Once every call has
returned, nothing is owed, and `Balance` says the rest: the source is suspended once if the
flag says so and not at all otherwise, and it was cancelled once or never. After a cancel
the flags do not change any more, so no later call owes anything, and the source ends up
with its suspends and resumes even: it can be released.
-/

namespace NPFoundation.Timer

open Transition Tally DispatchCall

variable {τ : Type} [DecidableEq τ] [Fintype τ] {w w' : World τ} {t : τ} {c : Call}

/-- No call is in progress. -/
def World.Quiescent (w : World τ) : Prop := ∀ t, w.inFlight t = []

omit [DecidableEq τ] in
theorem Quiescent.owed (h : w.Quiescent) (d : DispatchCall) : w.owed d = 0 := by
  refine total_eq_zero.mpr fun t => ?_
  rw [h t]
  rfl

theorem balance_run {as : List (Action τ)} (h : run step (World.init τ) as = some w) : Balance w :=
  run_invariant balance_step balance_init h

/-! ## After a cancel -/

theorem update_cancelled {n : NPTimer} (h : n.isCancelled = true) (c : Call) :
    n.update c = (n, []) := by
  cases c with
  | timerResume => simp [NPTimer.update, NPTimer.resume, h]
  | timerSuspend => simp [NPTimer.update, NPTimer.suspend, h]
  | timerCancel => simp [NPTimer.update, NPTimer.cancel, h]

/-- No update makes a cancelled timer a suspended one. -/
def NPTimer.Sane (n : NPTimer) : Prop := n.isCancelled = true → n.isSuspended = false

theorem update_sane {n : NPTimer} (h : n.Sane) (c : Call) : (n.update c).1.Sane := by
  cases hn : n.isCancelled with
  | true =>
      rw [update_cancelled hn]
      exact h
  | false =>
      intro hafter
      cases c with
      | timerResume =>
          simp only [NPTimer.update, NPTimer.resume] at hafter ⊢
          split at hafter <;> simp_all
      | timerSuspend =>
          simp only [NPTimer.update, NPTimer.suspend] at hafter ⊢
          split at hafter <;> simp_all
      | timerCancel => simp [NPTimer.update, NPTimer.cancel, hn]

omit [Fintype τ] in
theorem step_sane {a : Action τ} (hw : w.timer.Sane) (h : step w a = some w') : w'.timer.Sane := by
  obtain ⟨t, c, -, -, rfl⟩ | ⟨t, d, rest, -, -, rfl⟩ := step_cases h
  · exact update_sane hw c
  · cases d <;> exact hw

omit [Fintype τ] in
/-- A cancelled timer stays cancelled. -/
theorem step_cancelled {a : Action τ} (hw : w.timer.isCancelled = true) (h : step w a = some w') :
    w'.timer.isCancelled = true := by
  obtain ⟨t, c, -, -, rfl⟩ | ⟨t, d, rest, -, -, rfl⟩ := step_cases h
  · simp only [update_cancelled hw, hw]
  · cases d <;> exact hw

omit [Fintype τ] in
/-- The update of a cancel, whatever it found. -/
theorem step_cancel (h : step w (.call t .timerCancel) = some w') : w'.timer.isCancelled = true := by
  obtain ⟨t', c, hact, -, rfl⟩ | ⟨t', d, rest, hact, -, -⟩ := step_cases h
  · obtain ⟨-, rfl⟩ := Action.call.inj hact
    simp only [NPTimer.update, NPTimer.cancel]
    split
    · rfl
    · rename_i hcancelled
      simpa using hcancelled
  · exact absurd hact (by simp)

/-- **Suspends and resumes balance out.** In every state of every run: if no call is in progress,
the executed `dispatch_suspend`s exceed the `dispatch_resume`s by one if the timer is suspended
and by nothing otherwise, and the source was cancelled once if the timer is cancelled and never
otherwise. Once a cancel has updated the flags, no call that updates them later has any
libdispatch call to execute, and every state at rest is even. -/
theorem timer_balances_at_rest (as : List (Action τ)) (w : World τ)
    (hrun : run step (World.init τ) as = some w) :
    (w.Quiescent → w.suspendCount = (if w.timer.isSuspended then 1 else 0)
      ∧ w.cancels = if w.timer.isCancelled then 1 else 0)
    ∧ ∀ pre t post, as = pre ++ .call t .timerCancel :: post →
      (∀ t' c w', step w (.call t' c) = some w' → w'.timer = w.timer ∧ w'.inFlight t' = [])
      ∧ (w.Quiescent → w.suspendCount = 0) := by
  have hbalance := balance_run hrun
  have hrest : w.Quiescent → w.suspendCount = (if w.timer.isSuspended then 1 else 0)
      ∧ w.cancels = if w.timer.isCancelled then 1 else 0 := by
    intro hquiet
    have hsuspends := hbalance.suspends
    have hcancels := hbalance.cancels
    rw [Quiescent.owed hquiet, Quiescent.owed hquiet] at hsuspends
    rw [Quiescent.owed hquiet] at hcancels
    refine ⟨?_, hcancels⟩
    unfold World.suspendCount
    cases hflag : w.timer.isSuspended with
    | true =>
        rw [NPTimer.suspended, hflag, if_pos rfl] at hsuspends
        rw [if_pos rfl]
        omega
    | false =>
        rw [NPTimer.suspended, hflag, if_neg (by simp)] at hsuspends
        rw [if_neg (by simp)]
        omega
  refine ⟨hrest, fun pre t post has => ?_⟩
  -- the cancel was executed somewhere in the run, and everything after it keeps the flag
  have hcancelled : w.timer.isCancelled = true := by
    rw [has] at hrun
    obtain ⟨w₁, -, hafter⟩ := run_append_some.mp hrun
    obtain ⟨w₂, hcancel, hpost⟩ := run_cons_some.mp hafter
    exact run_invariant step_cancelled (step_cancel hcancel) hpost
  have hsane : w.timer.Sane :=
    run_invariant step_sane (fun h => absurd h (by simp [World.init, NPTimer.init])) hrun
  refine ⟨fun t' c w' hstep => ?_, fun hquiet => ?_⟩
  · obtain ⟨t₁, c₁, hact, -, rfl⟩ | ⟨t₁, d, rest, hact, -, -⟩ := step_cases hstep
    · obtain ⟨rfl, rfl⟩ := Action.call.inj hact
      rw [update_cancelled hcancelled]
      exact ⟨rfl, Function.update_self _ _ _⟩
    · exact absurd hact (by simp)
  · rw [(hrest hquiet).1, hsane hcancelled]
    rfl

/-- A suspend that is still on its way when the timer is cancelled, and a call after that. -/
theorem timer_balances_at_rest_cancelled :
    ∃ w, run step (World.init (Fin 3)) [.call 0 .timerSuspend, .call 1 .timerCancel, .exec 1,
        .exec 1, .call 2 .timerSuspend, .exec 0] = some w
      ∧ w.Quiescent ∧ w.suspendCount = 0 ∧ w.cancels = 1 := by
  obtain ⟨w, hrun⟩ : ∃ w, run step (World.init (Fin 3)) [.call 0 .timerSuspend, .call 1 .timerCancel,
      .exec 1, .exec 1, .call 2 .timerSuspend, .exec 0] = some w := ⟨_, rfl⟩
  have hquiet : w.Quiescent := by
    rw [← Option.some.inj hrun]
    unfold World.Quiescent
    decide
  have hflags : w.timer.isCancelled = true := by rw [← Option.some.inj hrun]; rfl
  have hthm := timer_balances_at_rest _ w hrun
  refine ⟨w, hrun, hquiet, (hthm.2 [.call 0 .timerSuspend] 1 _ rfl).2 hquiet, ?_⟩
  rw [(hthm.1 hquiet).2, hflags]
  rfl

end NPFoundation.Timer
