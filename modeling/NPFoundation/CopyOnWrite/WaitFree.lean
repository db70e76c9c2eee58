import NPFoundation.CopyOnWrite.ThreadsProof

/-!
# No call waits for another

A thread that is held up in the middle of a call holds up nobody: there is no lock in
`CopyOnWriteBacked`, and no loop. So each step of a call brings it nearer to its end, and
`Frame.steps` says how far it is. Other threads change what a step finds, not whether it can
be taken.
-/

namespace NPFoundation.CopyOnWrite.Threads

open Transition Tally

variable {τ ι T : Type} {s s' : System τ ι T} {t : τ} {b : ℕ}

/-! ## How far a call is from its end -/

/-- The steps a call still has after its release. -/
def After.steps : After ι T → ℕ
  | .switch _ _ _ => 2
  | _ => 1

/-- The most steps a thread at this frame still takes before its call returns. -/
def Frame.steps : Frame ι T → ℕ
  | .idle => 0
  | .retain _ _ => 2
  | .construct _ _ _ => 1
  | .compare _ _ => 5
  | .release _ k => k.steps + 3
  | .deleteElement _ k => k.steps + 2
  | .deleteBlock _ k => k.steps + 1
  | .finish k => k.steps
  | .load _ _ => 7
  | .copy _ _ => 6
  | .mutate _ _ => 1
  | .read _ => 1

theorem steps_le (F : Frame ι T) : F.steps ≤ 7 := by
  have hafter : ∀ k : After ι T, k.steps ≤ 2 := fun k => by cases k <;> simp [After.steps]
  cases F with
  | release _ k | deleteElement _ k | deleteBlock _ k | finish k =>
      have := hafter k
      simp only [Frame.steps]
      omega
  | _ => simp [Frame.steps]

theorem steps_eq_zero {F : Frame ι T} (h : F.steps = 0) : F = .idle := by
  have hafter : ∀ k : After ι T, k.steps ≠ 0 := fun k => by cases k <;> simp [After.steps]
  cases F with
  | idle => rfl
  | finish k => exact absurd h (hafter k)
  | _ => simp [Frame.steps] at h

/-! ## Steps -/

theorem fetchAdd_threads (h : s.fetchAdd b = some s') : s'.threads = s.threads := by
  obtain ⟨block, -, rfl⟩ := Option.map_eq_some_iff.mp h
  rfl

variable [DecidableEq τ] [DecidableEq ι]

/-- A step takes its own thread on to a frame that is nearer to the end, and no other thread
anywhere. -/
theorem advance_steps (h : s.advance t = some s') :
    ∃ F, s'.threads = Function.update s.threads t F ∧ F.steps < (s.threads t).steps := by
  unfold System.advance at h
  cases hfr : s.threads t with
  | idle =>
      rw [hfr] at h
      exact absurd h (by simp)
  | retain i j =>
      simp only [hfr] at h
      split at h
      · exact absurd h (by simp)
      · obtain ⟨s₁, hadd, rfl⟩ := Option.map_eq_some_iff.mp h
        exact ⟨_, congrArg (Function.update · t _) (fetchAdd_threads hadd), by simp [Frame.steps]⟩
  | construct i j c =>
      simp only [hfr, Option.some.injEq] at h
      subst h
      exact ⟨_, rfl, by simp [Frame.steps]⟩
  | compare i j =>
      simp only [hfr] at h
      split at h
      · rename_i this other _ _
        split at h
        · cases other with
          | none => exact absurd h (by simp)
          | some c =>
              obtain ⟨s₁, hadd, rfl⟩ := Option.map_eq_some_iff.mp h
              cases this with
              | none =>
                  exact ⟨_, congrArg (Function.update · t _) (fetchAdd_threads hadd),
                    by simp [Frame.steps, After.steps]⟩
              | some c' =>
                  exact ⟨_, congrArg (Function.update · t _) (fetchAdd_threads hadd),
                    by simp [Frame.steps, After.steps]⟩
        · obtain rfl := Option.some.inj h
          exact ⟨_, rfl, by simp [Frame.steps]⟩
      · exact absurd h (by simp)
  | release c k =>
      simp only [hfr] at h
      split at h
      · exact absurd h (by simp)
      · split at h
        · obtain rfl := Option.some.inj h
          exact ⟨_, rfl, by simp [Frame.steps]⟩
        · obtain rfl := Option.some.inj h
          exact ⟨_, rfl, by simp [Frame.steps]⟩
  | deleteElement c k =>
      simp only [hfr] at h
      split at h
      · obtain rfl := Option.some.inj h
        exact ⟨_, rfl, by simp [Frame.steps]⟩
      · exact absurd h (by simp)
  | deleteBlock c k =>
      simp only [hfr] at h
      split at h
      · obtain rfl := Option.some.inj h
        exact ⟨_, rfl, by simp [Frame.steps]⟩
      · exact absurd h (by simp)
  | finish k =>
      simp only [hfr] at h
      cases k with
      | destructed i =>
          obtain rfl := Option.some.inj h
          exact ⟨_, rfl, by simp [Frame.steps, After.steps]⟩
      | assign i j c =>
          obtain rfl := Option.some.inj h
          exact ⟨_, rfl, by simp [Frame.steps, After.steps]⟩
      | moveAssign i j =>
          simp only [System.resume] at h
          split at h
          · obtain rfl := Option.some.inj h
            exact ⟨_, rfl, by simp [Frame.steps, After.steps]⟩
          · exact absurd h (by simp)
      | switch i c f =>
          obtain rfl := Option.some.inj h
          exact ⟨_, rfl, by simp [Frame.steps, After.steps]⟩
  | load i f =>
      simp only [hfr] at h
      split at h
      · exact absurd h (by simp)
      · split at h
        · obtain rfl := Option.some.inj h
          exact ⟨_, rfl, by simp [Frame.steps]⟩
        · obtain rfl := Option.some.inj h
          exact ⟨_, rfl, by simp [Frame.steps]⟩
  | copy i f =>
      simp only [hfr] at h
      split at h
      · obtain rfl := Option.some.inj h
        exact ⟨_, rfl, by simp [Frame.steps, After.steps]⟩
      · exact absurd h (by simp)
  | mutate i f =>
      simp only [hfr] at h
      split at h
      · obtain rfl := Option.some.inj h
        exact ⟨_, rfl, by simp [Frame.steps]⟩
      · exact absurd h (by simp)
  | read i =>
      simp only [hfr] at h
      split at h
      · obtain rfl := Option.some.inj h
        exact ⟨_, rfl, by simp [Frame.steps]⟩
      · exact absurd h (by simp)

/-- Steps of thread `t` within its call. -/
def Action.advances (t : τ) : Action τ ι T → Bool
  | .advance t' => t' = t
  | .call _ _ => false

variable [Fintype τ]

/-- A call is the business of its thread. -/
theorem begin_others {c : Call ι T} {t' : τ} (h : s.step (.call t c) = some s') (ht : t' ≠ t) :
    s'.threads t' = s.threads t' := by
  have hrelease : ∀ this (k : After ι T), (s.releaseIfAny t this k).threads t' = s.threads t' := by
    intro this k
    cases this <;> simp [System.releaseIfAny, System.goto, ht]
  simp only [System.step] at h
  split at h
  · rw [Option.ite_none_right_eq_some] at h
    have hbegin := h.2
    cases c with
    | construct i x =>
        simp only [System.begin] at hbegin
        split at hbegin
        · obtain rfl := Option.some.inj hbegin
          rfl
        · exact absurd hbegin (by simp)
    | copyConstruct i j | copyAssign i j | mutate i f | read i =>
        simp only [System.begin] at hbegin
        split at hbegin
        · obtain rfl := Option.some.inj hbegin
          simp [System.goto, ht]
        · exact absurd hbegin (by simp)
    | moveConstruct i j =>
        simp only [System.begin] at hbegin
        split at hbegin
        · obtain rfl := Option.some.inj hbegin
          rfl
        · exact absurd hbegin (by simp)
    | moveAssign i j =>
        simp only [System.begin] at hbegin
        split at hbegin
        · split at hbegin
          · obtain rfl := Option.some.inj hbegin
            exact hrelease _ _
          · obtain rfl := Option.some.inj hbegin
            rfl
        · exact absurd hbegin (by simp)
    | destruct i =>
        simp only [System.begin] at hbegin
        split at hbegin
        · obtain rfl := Option.some.inj hbegin
          exact hrelease _ _
        · exact absurd hbegin (by simp)
  · exact absurd h (by simp)

/-- What other threads do in between makes no difference. -/
theorem steps_run {as : List (Action τ ι T)} (hown : ∀ c, .call t c ∉ as)
    (hrun : run System.step s as = some s') :
    as.countP (Action.advances t) + (s'.threads t).steps ≤ (s.threads t).steps := by
  induction as generalizing s with
  | nil =>
      obtain rfl := Option.some.inj hrun
      simp
  | cons a as ih =>
      obtain ⟨s₁, hstep, hrest⟩ := run_cons_some.mp hrun
      have hlater := ih (fun c hc => hown c (List.mem_cons_of_mem _ hc)) hrest
      cases a with
      | advance t' =>
          obtain ⟨F, hthreads, hless⟩ := advance_steps hstep
          by_cases ht : t' = t
          · subst ht
            rw [hthreads, Function.update_self] at hlater
            simp only [List.countP_cons, Action.advances, decide_true, if_true]
            omega
          · have ht' : t ≠ t' := fun hc => ht hc.symm
            rw [hthreads, Function.update_of_ne ht'] at hlater
            simpa [List.countP_cons, Action.advances, ht] using hlater
      | call t' c =>
          have ht : t ≠ t' := by
            rintro rfl
            exact hown c List.mem_cons_self
          have hsame := begin_others hstep ht
          rw [hsame] at hlater
          simpa [List.countP_cons, Action.advances] using hlater

/-- **The block is wait-free.** With fewer than `2 ^ 32` handles, in every state that threads on
distinct handles can reach, a thread within a call can take its next step, whatever the others are
in the middle of; and from there until its next call it takes at most `Frame.steps` of them, never
more than seven, however many steps and calls of other threads fall in between. With more handles a
count can wrap, and a block be deleted under the others. -/
theorem calls_are_wait_free [Fintype ι] (hcard : Fintype.card ι < 2 ^ 32) (as : List (Action τ ι T))
    (s : System τ ι T) (hrun : run System.step System.start as = some s) (t : τ)
    (hbusy : s.threads t ≠ .idle) :
    (∃ s', s.step (.advance t) = some s')
      ∧ (s.threads t).steps ≤ 7
      ∧ ∀ (bs : List (Action τ ι T)) (s' : System τ ι T), (∀ c, .call t c ∉ bs) →
          run System.step s bs = some s' →
            bs.countP (Action.advances t) ≤ (s.threads t).steps
              ∧ (bs.countP (Action.advances t) = (s.threads t).steps → s'.threads t = .idle) := by
  obtain ⟨owner, hinv⟩ := run_inv hcard hrun
  obtain ⟨s₁, -, hs₁, -⟩ := advance_inv hinv hcard hbusy
  refine ⟨⟨s₁, hs₁⟩, steps_le _, fun bs s' hown hrun' => ?_⟩
  have hleft := steps_run hown hrun'
  refine ⟨by omega, fun hall => ?_⟩
  exact steps_eq_zero (by omega)

/-- A thread about to copy a shared element, held up by one that releases it. -/
def interruptedMutation (t : τ) (i j : ι) : List (Action τ ι ℕ) :=
  [.call t (.construct i 5), .call t (.copyConstruct j i), .advance t, .advance t,
    .call t (.mutate i (· + 1)), .advance t]

theorem calls_are_wait_free_interrupted :
    ∃ s s' : System (Fin 2) (Fin 2) ℕ,
      run System.step System.start (interruptedMutation 0 0 1) = some s
      ∧ run System.step s [.call 1 (.destruct 1), .advance 1, .advance 0, .advance 1, .advance 0,
          .advance 0, .advance 0, .advance 0, .advance 0] = some s'
      ∧ s'.threads 0 = .idle := by
  obtain ⟨s, hrun⟩ : ∃ s : System (Fin 2) (Fin 2) ℕ,
      run System.step System.start (interruptedMutation 0 0 1) = some s := ⟨_, rfl⟩
  have hbusy : s.threads 0 ≠ .idle ∧ (s.threads 0).steps = 6 := by
    cases hrun
    exact ⟨by simp [System.goto], rfl⟩
  obtain ⟨s', hrun'⟩ : ∃ s' : System (Fin 2) (Fin 2) ℕ,
      run System.step s [.call 1 (.destruct 1), .advance 1, .advance 0, .advance 1, .advance 0,
        .advance 0, .advance 0, .advance 0, .advance 0] = some s' := by
    cases hrun
    exact ⟨_, rfl⟩
  refine ⟨s, s', hrun, hrun', ?_⟩
  refine ((calls_are_wait_free (by decide) _ s hrun 0 hbusy.1).2.2 _ s' (by simp) hrun').2 ?_
  rw [hbusy.2]
  rfl

end NPFoundation.CopyOnWrite.Threads
