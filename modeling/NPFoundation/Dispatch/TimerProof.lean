import NPFoundation.Dispatch.Timer
import NPFoundation.Lib.Tally

/-!
# When a timer is over-resumed

Every flag update that sets `_isSuspended` leaves one `dispatch_suspend` owed, and
every one that clears it leaves one `dispatch_resume` owed. That is `Balance`: what
has been executed, plus what is still owed, differs by exactly the flag.

The balance says nothing about *order*. A `resume:` that clears the flag while the
matching `dispatch_suspend` is still owed can reach libdispatch first, and then it
resumes a source whose suspend count is zero. This file shows that this is the only
way to go wrong: if every update that clears the flag finds no `dispatch_suspend`
owed, no resume ever finds the count at zero; and the moment one does not, some
schedule of the calls already in flight traps.
-/

namespace NPFoundation.Timer

open Transition Tally DispatchCall

variable {τ : Type} [DecidableEq τ]

/-! ## What one step does -/

/-- Everything a step can do. -/
theorem step_cases {w w' : World τ} {a : Action τ} (h : step w a = some w') :
    (∃ t c, a = .call t c ∧ w.inFlight t = [] ∧
      w' = { w with
        timer := (w.timer.update c).1
        inFlight := Function.update w.inFlight t (w.timer.update c).2 }) ∨
    (∃ t d rest, a = .exec t ∧ w.inFlight t = d :: rest ∧
      w' = { w.execute d with inFlight := Function.update w.inFlight t rest }) := by
  cases a with
  | call t c =>
      simp only [step] at h
      split at h
      · rename_i hidle
        exact Or.inl ⟨t, c, rfl, hidle, (Option.some.inj h).symm⟩
      · exact absurd h (by simp)
  | exec t =>
      simp only [step] at h
      split at h
      · exact absurd h (by simp)
      · rename_i d rest hfl
        exact Or.inr ⟨t, d, rest, rfl, hfl, (Option.some.inj h).symm⟩

/-- What a flag update leaves owed: nothing, one suspend, one resume, or a cancellation
with or without the resume that balances an earlier suspend. -/
inductive Owes : List DispatchCall → Prop where
  | nothing : Owes []
  | suspend : Owes [dispatchSuspend]
  | resume : Owes [dispatchResume]
  | cancel : Owes [dispatchSourceCancel]
  | cancelSuspended : Owes [dispatchSourceCancel, dispatchResume]

theorem update_owes (n : NPTimer) (c : Call) : Owes (n.update c).2 := by
  obtain ⟨cancelled, suspended⟩ := n
  cases c <;> cases cancelled <;> cases suspended <;> constructor

theorem Owes.tail {d : DispatchCall} {rest : List DispatchCall} (h : Owes (d :: rest)) :
    Owes rest := by
  cases h <;> constructor

/-- The flag as the number of suspends it stands for. -/
def NPTimer.suspended (n : NPTimer) : Nat := if n.isSuspended then 1 else 0

/-- The flag as the number of cancellations it stands for. -/
def NPTimer.cancelled (n : NPTimer) : Nat := if n.isCancelled then 1 else 0

/-- A flag update owes exactly the calls by which it changes the flags. -/
theorem update_balance (n : NPTimer) (c : Call) :
    n.suspended + (n.update c).2.count dispatchSuspend
        = (n.update c).1.suspended + (n.update c).2.count dispatchResume
      ∧ n.cancelled + (n.update c).2.count dispatchSourceCancel = (n.update c).1.cancelled := by
  obtain ⟨cancelled, suspended⟩ := n
  cases c <;> cases cancelled <;> cases suspended <;> exact ⟨rfl, rfl⟩

theorem owes_update {w : World τ} (h : ∀ t, Owes (w.inFlight t)) {t : τ}
    {ds : List DispatchCall} (hds : Owes ds) (t' : τ) :
    Owes (Function.update w.inFlight t ds t') := by
  by_cases ht : t' = t
  · subst ht; rw [Function.update_self]; exact hds
  · rw [Function.update_of_ne ht]; exact h t'

/-! ## The balance -/

variable [Fintype τ]

/-- How many calls of `d` are owed by all threads together. -/
def World.owed (w : World τ) (d : DispatchCall) : Nat := total (List.count d) w.inFlight

/-- What is executed plus what is owed is what the flags say. -/
structure Balance (w : World τ) : Prop where
  /-- Suspends outnumber resumes by the flag. -/
  suspends : w.suspends + w.owed dispatchSuspend
    = w.resumes + w.owed dispatchResume + w.timer.suspended
  /-- A cancelled timer has been, or is about to be, cancelled once. -/
  cancels : w.cancels + w.owed dispatchSourceCancel = w.timer.cancelled
  /-- Every thread owes what some flag update left it with, or a tail of that. -/
  owes : ∀ t, Owes (w.inFlight t)

omit [DecidableEq τ] in
theorem balance_init : Balance (World.init τ) := by
  have h : ∀ d, (World.init τ).owed d = 0 := fun d => total_eq_zero.mpr fun _ => rfl
  refine ⟨?_, ?_, fun _ => Owes.nothing⟩
  · rw [h, h]; rfl
  · rw [h]; rfl

/-- Handing a thread `ds` in place of what it owed. -/
theorem owed_update (w : World τ) (t : τ) (ds : List DispatchCall) (d : DispatchCall) :
    total (List.count d) (Function.update w.inFlight t ds) + (w.inFlight t).count d
      = w.owed d + ds.count d :=
  total_update (List.count d) w.inFlight t ds

theorem balance_step {w w' : World τ} {a : Action τ} (hb : Balance w)
    (h : step w a = some w') : Balance w' := by
  have hsusp := hb.suspends
  have hcanc := hb.cancels
  obtain ⟨t, c, -, hidle, rfl⟩ | ⟨t, d, rest, -, hfl, rfl⟩ := step_cases h
  · -- the lock-protected update: flags and debts change together
    have hs := owed_update w t (w.timer.update c).2 dispatchSuspend
    have hr := owed_update w t (w.timer.update c).2 dispatchResume
    have hc := owed_update w t (w.timer.update c).2 dispatchSourceCancel
    obtain ⟨hu, hk⟩ := update_balance w.timer c
    simp only [hidle, List.count_nil] at hs hr hc
    refine ⟨?_, ?_, owes_update hb.owes (update_owes _ _)⟩
    · simp only [World.owed] at hs hr hsusp ⊢; omega
    · simp only [World.owed] at hc hcanc ⊢; omega
  · -- one debt is paid: it moves from owed to executed
    have hs := owed_update w t rest dispatchSuspend
    have hr := owed_update w t rest dispatchResume
    have hc := owed_update w t rest dispatchSourceCancel
    have hrest : Owes rest := Owes.tail (hfl ▸ hb.owes t)
    rw [hfl] at hs hr hc
    refine ⟨?_, ?_, owes_update hb.owes hrest⟩
    · cases d <;> simp [World.owed, World.execute] at hs hr hsusp ⊢ <;> omega
    · cases d <;> simp [World.owed, World.execute] at hc hcanc ⊢ <;> omega

/-! ## Runs that keep resumes behind their suspends -/

/-- No thread has a `dispatch_suspend` left to execute. -/
def World.SuspendsDone (w : World τ) : Prop := ∀ t, dispatchSuspend ∉ w.inFlight t

/-- An update that takes the timer out of the suspended state does so only once the
`dispatch_suspend` that put it there has been executed. -/
def World.ResumesInOrder (w : World τ) : Action τ → Prop
  | .call _ .timerResume | .call _ .timerCancel =>
      w.timer.isCancelled = false → w.timer.isSuspended = true → w.SuspendsDone
  | .call _ .timerSuspend => True
  | .exec _ => True

/-- Every resume still owed is covered by a suspend already executed. -/
structure Covered (w : World τ) : Prop where
  balance : Balance w
  covered : w.resumes + w.owed dispatchResume ≤ w.suspends
  quiet : w.overResumed = false

omit [DecidableEq τ] in
theorem covered_init : Covered (World.init τ) := by
  have hb : Balance (World.init τ) := balance_init
  have h : (World.init τ).owed dispatchResume = 0 := total_eq_zero.mpr fun _ => rfl
  exact ⟨hb, by rw [h]; exact Nat.le_refl _, rfl⟩

/-- A flag update that leaves a resume owed found the timer suspended and not cancelled. -/
theorem update_resume_owed {n : NPTimer} {c : Call}
    (h : (n.update c).2.count dispatchResume ≠ 0) :
    n.isCancelled = false ∧ n.isSuspended = true ∧ c ≠ .timerSuspend
      ∧ (n.update c).2.count dispatchResume = 1 := by
  obtain ⟨cancelled, suspended⟩ := n
  cases c <;> cases cancelled <;> cases suspended <;>
    simp_all [NPTimer.update, NPTimer.resume, NPTimer.suspend, NPTimer.cancel]

omit [DecidableEq τ] in
theorem SuspendsDone.owed {w : World τ} (h : w.SuspendsDone) : w.owed dispatchSuspend = 0 :=
  total_eq_zero.mpr fun t => List.count_eq_zero.mpr (h t)

theorem covered_step {w w' : World τ} {a : Action τ} (hc : w.ResumesInOrder a)
    (hw : Covered w) (h : step w a = some w') : Covered w' := by
  refine ⟨balance_step hw.balance h, ?_, ?_⟩
  · have hcov := hw.covered
    obtain ⟨t, c, rfl, hidle, rfl⟩ | ⟨t, d, rest, rfl, hfl, rfl⟩ := step_cases h
    · have hr := owed_update w t (w.timer.update c).2 dispatchResume
      simp only [hidle, List.count_nil] at hr
      by_cases hz : (w.timer.update c).2.count dispatchResume = 0
      · simp only [World.owed] at hr hcov ⊢; omega
      · -- the flag was set and every suspend has been executed, so one more is covered
        obtain ⟨h1, h2, h3, h4⟩ := update_resume_owed hz
        have hdone : w.owed dispatchSuspend = 0 := by
          refine SuspendsDone.owed ?_
          cases c with
          | timerResume => exact hc h1 h2
          | timerSuspend => exact absurd rfl h3
          | timerCancel => exact hc h1 h2
        have hb := hw.balance.suspends
        have hset : w.timer.suspended = 1 := by simp [NPTimer.suspended, h2]
        simp only [World.owed] at hr hcov hb hdone ⊢
        omega
    · have hr := owed_update w t rest dispatchResume
      rw [hfl] at hr
      cases d <;> simp [World.owed, World.execute] at hr hcov ⊢ <;> omega
  · obtain ⟨t, c, rfl, hidle, rfl⟩ | ⟨t, d, rest, rfl, hfl, rfl⟩ := step_cases h
    · exact hw.quiet
    · cases d with
      | dispatchSuspend => exact hw.quiet
      | dispatchSourceCancel => exact hw.quiet
      | dispatchResume =>
          -- the resume about to run is itself one of the covered ones
          have hpos : 1 ≤ w.owed dispatchResume := by
            have hle : (w.inFlight t).count dispatchResume ≤ w.owed dispatchResume :=
              weight_le_total (List.count dispatchResume) w.inFlight t
            rw [hfl, List.count_cons_self] at hle
            omega
          have hcov := hw.covered
          have hne : w.suspendCount ≠ 0 := by unfold World.suspendCount; omega
          show (w.overResumed || decide (w.suspendCount = 0)) = false
          rw [hw.quiet, decide_eq_false hne]; rfl

/-! ## And the first update that does not, traps on some schedule -/

/-- A thread that owes a resume can be driven to the point where the resume is next. -/
theorem reach_resume {w : World τ} (hw : ∀ t, Owes (w.inFlight t)) {t : τ}
    (ht : 0 < (w.inFlight t).count dispatchResume) :
    ∃ as w', run step w as = some w' ∧ w'.inFlight t = [dispatchResume]
      ∧ (∀ t, Owes (w'.inFlight t)) ∧ w'.suspends = w.suspends ∧ w'.resumes = w.resumes
      ∧ w'.owed dispatchResume = w.owed dispatchResume := by
  have hshape := hw t
  generalize hfl : w.inFlight t = ds at hshape ht
  cases hshape with
  | nothing => simp at ht
  | suspend => simp at ht
  | cancel => simp at ht
  | resume => exact ⟨[], w, rfl, hfl, hw, rfl, rfl, rfl⟩
  | cancelSuspended =>
      refine ⟨[.exec t], { w.execute dispatchSourceCancel with
        inFlight := Function.update w.inFlight t [dispatchResume] }, ?_, ?_, ?_, rfl, rfl, ?_⟩
      · simp [run_cons, step, hfl]
      · exact Function.update_self ..
      · exact owes_update hw Owes.resume
      · have hr := owed_update w t [dispatchResume] dispatchResume
        rw [hfl] at hr
        simp only [World.owed] at hr ⊢
        simpa using hr

/-- When more resumes are owed than suspends are outstanding, executing them one after the
other finds the count at zero. -/
theorem exists_overResume : ∀ (n : Nat) {w : World τ}, (∀ t, Owes (w.inFlight t)) →
    w.suspends = w.resumes + n → n < w.owed dispatchResume →
    ∃ as w', run step w as = some w' ∧ w'.overResumed = true := by
  intro n
  induction n with
  | zero =>
      intro w hw hcount howed
      obtain ⟨t, ht⟩ := exists_of_total_pos howed
      obtain ⟨as, w₁, h₁, hfl, -, hs, hr, -⟩ := reach_resume hw ht
      refine ⟨as ++ [.exec t], _, run_snoc.mpr ⟨w₁, h₁, by simp only [step, hfl]; rfl⟩, ?_⟩
      have hz : w₁.suspendCount = 0 := by unfold World.suspendCount; omega
      show (w₁.overResumed || decide (w₁.suspendCount = 0)) = true
      rw [decide_eq_true hz, Bool.or_true]
  | succ n ih =>
      intro w hw hcount howed
      obtain ⟨t, ht⟩ := exists_of_total_pos (Nat.lt_of_le_of_lt (Nat.zero_le _) howed)
      obtain ⟨as, w₁, h₁, hfl, hw₁, hs, hr, ho⟩ := reach_resume hw ht
      -- one resume is executed: the outstanding count and the debt drop together
      have hexec : step w₁ (.exec t) = some { w₁.execute dispatchResume with
          inFlight := Function.update w₁.inFlight t [] } := by simp only [step, hfl]
      have hdebt := owed_update w₁ t [] dispatchResume
      rw [hfl] at hdebt
      simp only [List.count_nil, List.count_cons_self] at hdebt
      obtain ⟨bs, w₂, h₂, htrap⟩ := ih (w := { w₁.execute dispatchResume with
          inFlight := Function.update w₁.inFlight t [] })
        (owes_update hw₁ Owes.nothing)
        (by simp only [World.execute]; omega)
        (by simp only [World.owed] at hdebt howed ho ⊢; omega)
      exact ⟨(as ++ [.exec t]) ++ bs, w₂,
        run_append_some.mpr ⟨_, run_snoc.mpr ⟨w₁, h₁, hexec⟩, h₂⟩, htrap⟩

theorem out_of_order_traps {w w' : World τ} {a : Action τ} (hw : Covered w)
    (hn : ¬ w.ResumesInOrder a) (h : step w a = some w') :
    ∃ as w'', run step w' as = some w'' ∧ w''.overResumed = true := by
  have hb' := balance_step hw.balance h
  obtain ⟨t, c, rfl, hidle, rfl⟩ | ⟨t, d, rest, rfl, -, -⟩ := step_cases h
  · -- what `hn` says: the flag was set, and a suspend is still owed by another thread
    have hflags : w.timer.isCancelled = false ∧ w.timer.isSuspended = true
        ∧ ¬ w.SuspendsDone ∧ c ≠ .timerSuspend := by
      cases c with
      | timerSuspend => exact absurd trivial hn
      | timerResume => simpa [World.ResumesInOrder] using hn
      | timerCancel => simpa [World.ResumesInOrder] using hn
    obtain ⟨h1, h2, h3, h4⟩ := hflags
    have hclear : (w.timer.update c).1.suspended = 0
        ∧ (w.timer.update c).2.count dispatchSuspend = 0 := by
      cases c with
      | timerSuspend => exact absurd rfl h4
      | timerResume =>
          simp [NPTimer.update, NPTimer.resume, h1, h2, NPTimer.suspended]
      | timerCancel =>
          simp [NPTimer.update, NPTimer.cancel, h1, h2, NPTimer.suspended]
    have howed : 0 < w.owed dispatchSuspend := by
      rcases Nat.eq_zero_or_pos (w.owed dispatchSuspend) with hz | hp
      · exact absurd (fun t => List.count_eq_zero.mp (total_eq_zero.mp hz t)) h3
      · exact hp
    have hs := owed_update w t (w.timer.update c).2 dispatchSuspend
    have hsusp := hb'.suspends
    have hcov := hw.covered
    have hbal := hw.balance.suspends
    have hset : w.timer.suspended = 1 := by simp [NPTimer.suspended, h2]
    simp only [hidle, List.count_nil, World.owed, hclear.1, hclear.2] at hs hsusp hcov howed hbal
    refine exists_overResume (w.suspends - w.resumes) hb'.owes ?_ ?_
    · show w.suspends = w.resumes + (w.suspends - w.resumes); omega
    · simp only [World.owed]; omega
  · exact absurd trivial hn

/-- A timer is never over-resumed when every update that clears `_isSuspended` finds the
`dispatch_suspend` behind the flag executed; and from the first update that does not, some
schedule of the calls in flight resumes a source whose suspend count is zero. -/
theorem overResumed_only_out_of_order :
    (∀ (as : List (Action τ)) (w : World τ),
      Along step World.ResumesInOrder (World.init τ) as →
      run step (World.init τ) as = some w → w.overResumed = false) ∧
    (∀ (as : List (Action τ)) (w : World τ) (a : Action τ) (w' : World τ),
      Along step World.ResumesInOrder (World.init τ) as →
      run step (World.init τ) as = some w → step w a = some w' → ¬ w.ResumesInOrder a →
      ∃ bs w'', run step w' bs = some w'' ∧ w''.overResumed = true) := by
  have hcov : ∀ {as : List (Action τ)} {w : World τ},
      Along step World.ResumesInOrder (World.init τ) as →
      run step (World.init τ) as = some w → Covered w :=
    fun hc hr => run_invariant_along covered_step hc covered_init hr
  exact ⟨fun _ _ hc hr => (hcov hc hr).quiet,
    fun _ _ _ _ hc hr hs hn => out_of_order_traps (hcov hc hr) hn hs⟩

/-- Both halves on two threads: a suspend that is executed before it is resumed, and one
that is resumed while it is still owed. -/
theorem overResumed_two_threads :
    (∃ w, run step (World.init (Fin 2))
        [.call 0 .timerSuspend, .exec 0, .call 1 .timerResume, .exec 1] = some w
      ∧ w.overResumed = false) ∧
    (∃ w w', run step (World.init (Fin 2)) [.call 0 .timerSuspend] = some w
      ∧ step w (.call 1 .timerResume) = some w'
      ∧ ∃ bs w'', run step w' bs = some w'' ∧ w''.overResumed = true) := by
  have hthm := overResumed_only_out_of_order (τ := Fin 2)
  refine ⟨⟨_, rfl, hthm.1 [.call 0 .timerSuspend, .exec 0, .call 1 .timerResume, .exec 1] _ ?_ rfl⟩,
    ⟨_, _, rfl, rfl,
    hthm.2 [.call 0 .timerSuspend] _ (.call 1 .timerResume) _ ?_ rfl rfl ?_⟩⟩
  · refine ⟨trivial, fun w h => ?_⟩
    obtain rfl := Option.some.inj h
    refine ⟨trivial, fun w h => ?_⟩
    obtain rfl := Option.some.inj h
    refine ⟨fun _ _ => by unfold World.SuspendsDone; decide, fun w h => ?_⟩
    obtain rfl := Option.some.inj h
    exact ⟨trivial, fun _ _ => trivial⟩
  · exact ⟨trivial, fun _ _ => trivial⟩
  · intro hin
    have hdone : World.SuspendsDone _ := hin rfl rfl
    exact absurd (hdone 0) (by decide)

/-- Two threads suffice: the resume overtakes the `dispatch_suspend` it answers. -/
theorem resume_overtakes_suspend :
    ¬ ∀ (as : List (Action (Fin 2))) (w : World (Fin 2)),
      run step (World.init (Fin 2)) as = some w → w.overResumed = false := by
  intro h
  exact absurd (h [.call 0 .timerSuspend, .call 1 .timerResume, .exec 1] _ rfl) (by decide)

end NPFoundation.Timer
