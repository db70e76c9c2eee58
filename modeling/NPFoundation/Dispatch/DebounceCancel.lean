import NPFoundation.Dispatch.DebounceSystem
import NPFoundation.Dispatch.DebounceProof

/-!
# What a cancel calls off

A cancel takes effect when its block runs on the private queue, and only on handlers
that run after it. It cannot reach a callback that is already waiting on `on`, one a
handler is about to put there, or a handler that is queued in front of it. So whether
a returning `NPScheduleWorkCancel` has called everything off is a question about the
queues at that moment, and `CalledOff` is the exact answer: as long as nobody signals,
a state with `CalledOff` never starts a callback again, and any other state has a
schedule that does.
-/

namespace NPFoundation.Debounce

open Transition ScheduleCall

/-! ## Running off what is queued -/

/-- Execute the queued blocks one after the other; the flag says whether any dispatched. -/
def State.runOff : State → List Work → State × Bool
  | d, [] => (d, false)
  | d, w :: ws =>
      (((d.execute w).1.runOff ws).1, (d.execute w).2 || ((d.execute w).1.runOff ws).2)

theorem runOff_append (d : State) (ws vs : List Work) :
    d.runOff (ws ++ vs) = (((d.runOff ws).1.runOff vs).1,
      (d.runOff ws).2 || ((d.runOff ws).1.runOff vs).2) := by
  induction ws generalizing d with
  | nil => simp [State.runOff]
  | cons w ws ih => simp [State.runOff, ih, Bool.or_assoc]

theorem runOff_singleton (d : State) (w : Work) : d.runOff [w] = d.execute w := by
  simp [State.runOff]

/-- A block that is not a timer's handler leaves the timer as it is. -/
theorem execute_timers {d : State} {w : Work} {i : Nat} {timer : Timer}
    (hw : w ≠ .onTimer i) (h : d.timers[i]? = some timer) :
    (d.execute w).1.timers[i]? = some timer := by
  cases w with
  | onSignal =>
      obtain ⟨hlt, -⟩ := List.getElem?_eq_some_iff.mp h
      simp only [State.execute, State.onSignal]
      rw [List.getElem?_append_left hlt, h]
  | onCancel => exact h
  | onTimer j =>
      have hij : j ≠ i := fun he => hw (by rw [he])
      simp only [State.execute, State.onTimer]
      split
      · exact h
      · rw [List.getElem?_set_ne hij]; exact h

theorem runOff_timers {ws : List Work} {i : Nat} {timer : Timer} (hws : .onTimer i ∉ ws) :
    ∀ {d : State}, d.timers[i]? = some timer → (d.runOff ws).1.timers[i]? = some timer := by
  induction ws with
  | nil => exact fun h => h
  | cons w ws ih =>
      intro d h
      have hw : w ≠ .onTimer i := fun he => hws (he ▸ List.mem_cons_self)
      exact ih (fun hm => hws (List.mem_cons_of_mem w hm)) (execute_timers hw h)

/-- No armed timer of this state can pass its check. -/
def State.Silent (d : State) : Prop :=
  d.canceled = true ∨ ∀ timer ∈ d.timers, timer.armed = true → timer.current ≠ d.generation

theorem onTimer_silent {d : State} (h : d.Silent) (i : Nat) : (d.onTimer i).1.Silent := by
  obtain ⟨hc, hg, -, -⟩ := onTimer_frame d i
  rcases h with h | h
  · exact Or.inl (hc.trans h)
  · refine Or.inr fun timer hmem harmed => ?_
    rw [hg]
    unfold State.onTimer at hmem
    split at hmem
    · exact h timer hmem harmed
    · rcases List.mem_or_eq_of_mem_set hmem with hold | rfl
      · exact h timer hold harmed
      · exact absurd harmed (by simp)

theorem onTimer_quiet {d : State} (h : d.Silent) {i : Nat} {timer : Timer}
    (ht : d.timers[i]? = some timer) (ha : timer.armed = true) : (d.onTimer i).2 = false := by
  simp only [State.onTimer, ht]
  rcases h with hc | hne
  · rw [hc]; rfl
  · have hcur := hne timer (List.mem_of_getElem? ht) ha
    rw [beq_false_of_ne hcur, Bool.and_false]

theorem due_armed {q : QueueState} {i : Nat} {now : ℚ} (h : q.due i now = true) :
    ∃ timer, q.state.timers[i]? = some timer ∧ timer.armed = true := by
  unfold QueueState.due at h
  split at h
  · rename_i timer deadline ht _
    exact ⟨timer, ht, (Bool.and_eq_true_iff.mp h).1⟩
  · exact absurd h (by simp)

/-! ## Called off, and staying called off -/

variable {τ : Type}

/-- What is queued on the private queue, run off from the present state. -/
def System.runOff (s : System τ) : State × Bool := s.blocks.state.runOff s.queue

/-- Nothing in the system can start a callback any more unless somebody signals. -/
structure CalledOff (s : System τ) : Prop where
  /-- No callback is waiting on `on`, and none is being handed to it. -/
  on : s.on = 0
  dispatching : s.dispatching = false
  /-- No handler waiting on the private queue passes its check. -/
  queued : s.runOff.2 = false
  /-- Once the queue has run off, no armed timer passes its check either. -/
  armed : s.runOff.1.Silent
  /-- No signal call is on its way to the private queue. -/
  callers : ∀ t, s.callers t ≠ .calling scheduleWorkSignal

variable [DecidableEq τ] {delayInSeconds : ℚ}

/-- Everything a step can do. -/
inductive StepsTo (delayInSeconds : ℚ) (s : System τ) : Action τ → System τ → Prop where
  | call {t : τ} (c : ScheduleCall) : s.callers t = .idle →
      StepsTo delayInSeconds s (.call t c)
        { s with callers := Function.update s.callers t (.calling c) }
  | enqueue {t : τ} {c : ScheduleCall} : s.callers t = .calling c →
      StepsTo delayInSeconds s (.enqueue t)
        { s with
          callers := Function.update s.callers t (.returning c)
          queue := s.queue ++ [c.work] }
  | ret {t : τ} {c : ScheduleCall} : s.callers t = .returning c →
      StepsTo delayInSeconds s (.ret t) { s with callers := Function.update s.callers t .idle }
  | tick {d : ℚ} : StepsTo delayInSeconds s (.tick d) { s with clock := s.clock + d }
  | fire {i : Nat} : s.blocks.due i s.clock = true → .onTimer i ∉ s.queue →
      StepsTo delayInSeconds s (.fire i) { s with queue := s.queue ++ [.onTimer i] }
  | runQueue {w : Work} {ws : List Work} : s.queue = w :: ws →
      StepsTo delayInSeconds s .runQueue
        { s with
          blocks := s.execute delayInSeconds w
          queue := ws
          dispatching := (s.blocks.state.execute w).2 }
  | dispatch : s.dispatching = true →
      StepsTo delayInSeconds s .dispatch { s with dispatching := false, on := s.on + 1 }
  | start : 0 < s.on →
      StepsTo delayInSeconds s .start { s with on := s.on - 1, started := s.started + 1 }

theorem stepsTo_of_step {s s' : System τ} {a : Action τ}
    (h : step delayInSeconds s a = some s') : StepsTo delayInSeconds s a s' := by
  cases a with
  | call t c =>
      simp only [step] at h
      split at h
      · rename_i hidle; obtain rfl := Option.some.inj h; exact .call c hidle
      · exact absurd h (by simp)
  | enqueue t =>
      simp only [step] at h
      split at h
      · rename_i c hc; obtain rfl := Option.some.inj h; exact .enqueue hc
      · exact absurd h (by simp)
  | ret t =>
      simp only [step] at h
      split at h
      · rename_i c hc; obtain rfl := Option.some.inj h; exact .ret hc
      · exact absurd h (by simp)
  | tick d =>
      simp only [step] at h
      split at h
      · obtain rfl := Option.some.inj h; exact .tick
      · exact absurd h (by simp)
  | fire i =>
      simp only [step] at h
      split at h
      · rename_i hf; obtain rfl := Option.some.inj h; exact .fire hf.1 hf.2
      · exact absurd h (by simp)
  | runQueue =>
      simp only [step] at h
      split at h
      · rename_i w ws _ hq; obtain rfl := Option.some.inj h; exact .runQueue hq
      · exact absurd h (by simp)
  | dispatch =>
      simp only [step] at h
      split at h
      · rename_i hd; obtain rfl := Option.some.inj h; exact .dispatch hd
      · exact absurd h (by simp)
  | start =>
      simp only [step] at h
      split at h
      · rename_i hon; obtain rfl := Option.some.inj h; exact .start hon
      · exact absurd h (by simp)

theorem update_calling {callers : τ → Phase} {t : τ} {p : Phase}
    (hp : p ≠ .calling scheduleWorkSignal) (h : ∀ t, callers t ≠ .calling scheduleWorkSignal) :
    ∀ t', Function.update callers t p t' ≠ .calling scheduleWorkSignal := by
  intro t'
  by_cases ht : t' = t
  · subst ht; rw [Function.update_self]; exact hp
  · rw [Function.update_of_ne ht]; exact h t'

/-- A called-off system stays called off, and starts nothing, while nobody signals. -/
theorem calledOff_step {s s' : System τ} {a : Action τ} (ha : ¬ a.IsSignal)
    (h : CalledOff s) (hs : step delayInSeconds s a = some s') :
    CalledOff s' ∧ s'.started = s.started := by
  obtain ⟨hon, hdis, hq, harm, hcall⟩ := h
  cases stepsTo_of_step hs with
  | call c _ =>
      have hc : c ≠ scheduleWorkSignal := by rintro rfl; exact ha trivial
      exact ⟨⟨hon, hdis, hq, harm, update_calling (by simpa using hc) hcall⟩, rfl⟩
  | @enqueue t c hphase =>
      have hc : c = scheduleWorkCancel := by
        cases c with
        | scheduleWorkSignal => exact absurd hphase (hcall t)
        | scheduleWorkCancel => rfl
      subst hc
      have hrun : s.blocks.state.runOff (s.queue ++ [.onCancel])
          = (s.runOff.1.onCancel, s.runOff.2) := by
        rw [runOff_append, runOff_singleton]; simp [State.execute, System.runOff]
      refine ⟨⟨hon, hdis, ?_, ?_, update_calling (by simp) hcall⟩, rfl⟩
      · exact (congrArg Prod.snd hrun).trans hq
      · exact Or.inl (congrArg (fun r => r.1.canceled) hrun)
  | ret _ => exact ⟨⟨hon, hdis, hq, harm, update_calling (by simp) hcall⟩, rfl⟩
  | tick => exact ⟨⟨hon, hdis, hq, harm, hcall⟩, rfl⟩
  | @fire i hdue hnot =>
      -- the timer is still armed when the queue in front of its handler has run off
      obtain ⟨timer, ht, harmed⟩ := due_armed hdue
      have ht' : s.runOff.1.timers[i]? = some timer := runOff_timers hnot ht
      have hrun : s.blocks.state.runOff (s.queue ++ [.onTimer i])
          = ((s.runOff.1.onTimer i).1, s.runOff.2 || (s.runOff.1.onTimer i).2) := by
        rw [runOff_append, runOff_singleton]; rfl
      refine ⟨⟨hon, hdis, ?_, ?_, hcall⟩, rfl⟩
      · refine (congrArg Prod.snd hrun).trans ?_
        show (s.runOff.2 || (s.runOff.1.onTimer i).2) = false
        rw [hq, onTimer_quiet harm ht' harmed]; rfl
      · show (s.blocks.state.runOff (s.queue ++ [.onTimer i])).1.Silent
        rw [hrun]; exact onTimer_silent harm i
  | runQueue hqueue =>
      simp only [System.runOff, hqueue, State.runOff, Bool.or_eq_false_iff] at hq harm
      exact ⟨⟨hon, hq.1, hq.2, harm, hcall⟩, rfl⟩
  | dispatch hd => rw [hdis] at hd; exact absurd hd (by simp)
  | start hpos => omega

theorem calledOff_run {s s' : System τ} {as : List (Action τ)} (has : ∀ a ∈ as, ¬ a.IsSignal)
    (h : CalledOff s) (hrun : run (step delayInSeconds) s as = some s') :
    s'.started = s.started := by
  have hkeep : CalledOff s' ∧ s'.started = s.started := by
    refine run_invariant_along (I := fun s₁ => CalledOff s₁ ∧ s₁.started = s.started) ?_
      (along_of_forall s has) ⟨h, rfl⟩ hrun
    rintro s₁ a s₂ ha ⟨hoff, hst⟩ hs
    obtain ⟨hoff', hst'⟩ := calledOff_step ha hoff hs
    exact ⟨hoff', hst'.trans hst⟩
  exact hkeep.2

/-! ## The private queue, seen from inside

The blocks the system executes on the private queue form a run of `queueStep`, so
everything `debounce_fires_iff_undisturbed` says about such runs holds of the system.
-/

theorem due_mono {q : QueueState} {i : Nat} {now now' : ℚ} (h : q.due i now = true)
    (hle : now ≤ now') : q.due i now' = true := by
  unfold QueueState.due at h ⊢
  split at h
  · simp only [Bool.and_eq_true, decide_eq_true_eq] at h ⊢
    exact ⟨h.1, le_trans h.2 hle⟩
  · exact absurd h (by simp)

omit [DecidableEq τ] in
/-- A block that is not the timer's handler leaves it due. -/
theorem execute_due {s : System τ} {w : Work} {i : Nat} {now : ℚ} (hw : w ≠ .onTimer i)
    (h : s.blocks.due i now = true) : (s.execute delayInSeconds w).due i now = true := by
  unfold QueueState.due at h ⊢
  split at h
  · rename_i timer deadline ht hd
    have ht' : (s.execute delayInSeconds w).state.timers[i]? = some timer := execute_timers hw ht
    have hd' : (s.execute delayInSeconds w).deadlines[i]? = some deadline := by
      cases w with
      | onSignal =>
          obtain ⟨hlt, -⟩ := List.getElem?_eq_some_iff.mp hd
          simp only [System.execute]
          rw [List.getElem?_append_left hlt, hd]
      | onCancel => exact hd
      | onTimer j => exact hd
    rw [ht', hd']; exact h
  · exact absurd h (by simp)

/-- Handlers wait on the private queue at most once each, and only once their timer is due. -/
structure HandlersDue (s : System τ) : Prop where
  due : ∀ i, .onTimer i ∈ s.queue → s.blocks.due i s.clock = true
  once : ∀ i, s.queue.count (.onTimer i) ≤ 1

/-- The history of the private queue grows by the blocks it executes. -/
theorem queue_history_step {s s' : System τ} {a : Action τ} {es : List Event}
    (h : HandlersDue s) (hes : run (queueStep delayInSeconds) QueueState.init es = some s.blocks)
    (hs : step delayInSeconds s a = some s') :
    HandlersDue s' ∧ run (queueStep delayInSeconds) QueueState.init (es ++ (s.executes a).toList)
      = some s'.blocks := by
  -- but for `runQueue` nothing is executed
  have hsame : es ++ (none : Option Event).toList = es := List.append_nil es
  cases stepsTo_of_step hs with
  | call _ _ | ret _ | dispatch _ | start _ => exact ⟨⟨h.due, h.once⟩, hsame.symm ▸ hes⟩
  | @tick d =>
      refine ⟨⟨fun i hi => due_mono (h.due i hi) ?_, h.once⟩, hsame.symm ▸ hes⟩
      have hd : 0 ≤ d := by
        by_contra hneg
        simp [step, hneg] at hs
      show s.clock ≤ s.clock + d
      linarith
  | @enqueue t c _ =>
      have hne : ∀ i, c.work ≠ .onTimer i := by intro i; cases c <;> simp [ScheduleCall.work]
      refine ⟨⟨fun i hi => ?_, fun i => ?_⟩, hsame.symm ▸ hes⟩
      · rcases List.mem_append.mp hi with hi | hi
        · exact h.due i hi
        · exact absurd (List.mem_singleton.mp hi).symm (hne i)
      · rw [List.count_append, List.count_singleton, if_neg (by simpa using hne i)]
        exact h.once i
  | @fire j hdue hnot =>
      refine ⟨⟨fun i hi => ?_, fun i => ?_⟩, hsame.symm ▸ hes⟩
      · rcases List.mem_append.mp hi with hi | hi
        · exact h.due i hi
        · obtain rfl : i = j := by simpa using hi
          exact hdue
      · rw [List.count_append, List.count_singleton]
        have hone := h.once i
        by_cases hij : j = i
        · subst hij
          rw [List.count_eq_zero.mpr hnot]; simp
        · rw [if_neg (by simpa using hij)]; exact hone
  | @runQueue w ws hq =>
      have hmem : ∀ i, .onTimer i ∈ ws → w ≠ .onTimer i := by
        rintro i hi rfl
        have hone := h.once i
        rw [hq, List.count_cons_self] at hone
        have := List.count_pos_iff.mpr hi
        omega
      have hhead : (s.executes .runQueue).toList = [⟨w, s.clock⟩] := by
        rw [System.executes, hq]
        rfl
      rw [hhead]
      refine ⟨⟨fun i hi => ?_, fun i => ?_⟩, run_snoc.mpr ⟨s.blocks, hes, ?_⟩⟩
      · exact execute_due (hmem i hi) (h.due i (by rw [hq]; exact List.mem_cons_of_mem w hi))
      · have hone := h.once i
        rw [hq] at hone
        exact Nat.le_trans List.count_le_count_cons hone
      · cases w with
        | onSignal => rfl
        | onCancel => rfl
        | onTimer i =>
            have hdue := h.due i (by rw [hq]; exact List.mem_cons_self)
            simp only [queueStep, hdue, if_true]; rfl

/-- **Every run of the system executes a run of the private queue.** -/
theorem queue_history {as : List (Action τ)} {s : System τ}
    (h : run (step delayInSeconds) (System.init τ) as = some s) :
    HandlersDue s
      ∧ run (queueStep delayInSeconds) QueueState.init (executed delayInSeconds as)
        = some s.blocks := by
  induction as using List.reverseRecOn generalizing s with
  | nil =>
      obtain rfl := Option.some.inj h
      exact ⟨⟨fun i hi => absurd hi (by simp [System.init]), fun i => by simp [System.init]⟩, rfl⟩
  | append_singleton as a ih =>
      obtain ⟨s₁, hbefore, hlast⟩ := run_snoc.mp h
      obtain ⟨hdue, hes⟩ := ih hbefore
      rw [executed, observed_snoc hbefore]
      exact queue_history_step hdue hes hlast

/-! ## Anything else has a schedule that starts a callback -/

/-- Every timer has a deadline. -/
def Scheduled (s : System τ) : Prop := s.blocks.deadlines.length = s.blocks.state.timers.length

omit [DecidableEq τ] in
theorem execute_scheduled {s : System τ} (h : Scheduled s) (w : Work) :
    (s.execute delayInSeconds w).deadlines.length
      = (s.execute delayInSeconds w).state.timers.length := by
  unfold Scheduled at h
  cases w with
  | onSignal => simp [System.execute, State.execute, State.onSignal, h]
  | onCancel => exact h
  | onTimer i => exact h.trans (onTimer_frame s.blocks.state i).2.2.1.symm

theorem scheduled_step {s s' : System τ} {a : Action τ} (h : Scheduled s)
    (hs : step delayInSeconds s a = some s') : Scheduled s' := by
  cases stepsTo_of_step hs with
  | runQueue _ => exact execute_scheduled h _
  | call _ _ | enqueue _ | ret _ | tick | fire _ _ | dispatch _ | start _ => exact h

/-- What a schedule without signal calls can bring about. -/
def CanReach (delayInSeconds : ℚ) (s : System τ) (P : System τ → Prop) : Prop :=
  ∃ as s', (∀ a ∈ as, ¬ a.IsSignal) ∧ run (step delayInSeconds) s as = some s' ∧ P s'

theorem CanReach.done {s : System τ} {P : System τ → Prop} (h : P s) :
    CanReach delayInSeconds s P := ⟨[], s, by simp, rfl, h⟩

theorem CanReach.step {s s' : System τ} {a : Action τ} {P : System τ → Prop}
    (hs : step delayInSeconds s a = some s') (ha : ¬ a.IsSignal)
    (h : CanReach delayInSeconds s' P) : CanReach delayInSeconds s P := by
  obtain ⟨as, s'', has, hrun, hp⟩ := h
  exact ⟨a :: as, s'', List.forall_mem_cons.mpr ⟨ha, has⟩, run_cons_some.mpr ⟨s', hs, hrun⟩, hp⟩

theorem step_dispatch {s : System τ} (h : s.dispatching = true) :
    step delayInSeconds s .dispatch = some { s with dispatching := false, on := s.on + 1 } := by
  simp [step, h]

theorem step_runQueue {s : System τ} {w : Work} {ws : List Work} (hd : s.dispatching = false)
    (hq : s.queue = w :: ws) :
    step delayInSeconds s .runQueue = some { s with
      blocks := s.execute delayInSeconds w
      queue := ws
      dispatching := (s.blocks.state.execute w).2 } := by
  simp [step, hd, hq]

/-- The private queue can always be run off, with every callback on the way put on `on`. -/
theorem canReach_runOff {P : System τ → Prop} : ∀ (ws : List Work) {s : System τ},
    s.queue = ws → Scheduled s →
    (∀ s', s'.queue = [] → s'.dispatching = false → s'.blocks.state = (s.blocks.state.runOff ws).1 →
      Scheduled s' → s'.started = s.started →
      (s'.on = 0 → s.on = 0 ∧ s.dispatching = false ∧ (s.blocks.state.runOff ws).2 = false) →
      CanReach delayInSeconds s' P) →
    CanReach delayInSeconds s P := by
  intro ws
  induction ws with
  | nil =>
      intro s hq hsch hP
      cases hd : s.dispatching with
      | false => exact hP s hq hd rfl hsch rfl fun h => ⟨h, hd, rfl⟩
      | true =>
          refine CanReach.step (step_dispatch hd) (fun h => h) ?_
          exact hP _ hq rfl rfl hsch rfl fun h => absurd h (by simp)
  | cons w ws ih =>
      intro s hq hsch hP
      -- one block of the queue, from a state in which no dispatch is pending
      have key : ∀ s₁ : System τ, s₁.dispatching = false → s₁.queue = w :: ws →
          s₁.blocks = s.blocks → s₁.started = s.started →
          (s₁.on = 0 → s.on = 0 ∧ s.dispatching = false) → CanReach delayInSeconds s₁ P := by
        intro s₁ hd₁ hq₁ hb₁ hst₁ hon₁
        have hsch₁ : Scheduled s₁ := by unfold Scheduled; rw [hb₁]; exact hsch
        refine CanReach.step (step_runQueue hd₁ hq₁) (fun h => h) ?_
        refine ih rfl (execute_scheduled hsch₁ w) ?_
        intro s' h1 h2 h3 h4 h5 h6
        refine hP s' h1 h2 ?_ h4 (h5.trans hst₁) ?_
        · rw [h3]; simp only [System.execute, hb₁, State.runOff]
        · intro hz
          obtain ⟨h7, h8, h9⟩ := h6 hz
          obtain ⟨h10, h11⟩ := hon₁ h7
          simp only [System.execute, hb₁] at h8 h9
          exact ⟨h10, h11, by simp only [State.runOff, h8, h9, Bool.or_false]⟩
      cases hd : s.dispatching with
      | false => exact key s hd hq rfl rfl fun h => ⟨h, hd⟩
      | true =>
          refine CanReach.step (step_dispatch hd) (fun h => h) ?_
          exact key _ rfl hq rfl rfl fun h => absurd h (by simp)

/-- A callback has started since `s`. -/
def StartsAfter (s s' : System τ) : Prop := s.started < s'.started

theorem canReach_start {s₀ s : System τ} (hs : s.started = s₀.started) (hon : 0 < s.on) :
    CanReach delayInSeconds s (StartsAfter s₀) := by
  have hstep : step delayInSeconds s .start
      = some { s with on := s.on - 1, started := s.started + 1 } := by simp [step, hon]
  refine CanReach.step hstep (fun h => h) (CanReach.done ?_)
  show s₀.started < s.started + 1
  omega

/-- With the queue run off, an armed timer that passes its check can be brought to fire. -/
theorem canReach_fire {s₀ s : System τ} (hst : s.started = s₀.started) (hq : s.queue = [])
    (hsch : Scheduled s) (hn : ¬ s.blocks.state.Silent) :
    CanReach delayInSeconds s (StartsAfter s₀) := by
  obtain ⟨hc, timer, hmem, harm, hcur⟩ : s.blocks.state.canceled = false ∧
      ∃ timer ∈ s.blocks.state.timers, timer.armed = true
        ∧ timer.current = s.blocks.state.generation := by
    simpa [State.Silent] using hn
  obtain ⟨i, hi⟩ := List.mem_iff_getElem?.mp hmem
  obtain ⟨hlt, -⟩ := List.getElem?_eq_some_iff.mp hi
  obtain ⟨deadline, hdl⟩ : ∃ deadline, s.blocks.deadlines[i]? = some deadline :=
    ⟨_, List.getElem?_eq_getElem (by rw [hsch]; exact hlt)⟩
  have hwait : deadline ≤ s.clock + max 0 (deadline - s.clock) := by
    have := le_max_right 0 (deadline - s.clock)
    linarith
  -- wait for the deadline, let the timer fire, run its handler, dispatch and start
  have htick : step delayInSeconds s (.tick (max 0 (deadline - s.clock)))
      = some { s with clock := s.clock + max 0 (deadline - s.clock) } := by simp [step]
  have hfire : step delayInSeconds { s with clock := s.clock + max 0 (deadline - s.clock) }
      (.fire i) = some { s with
        clock := s.clock + max 0 (deadline - s.clock), queue := [.onTimer i] } := by
    simp [step, QueueState.due, hi, hdl, harm, hq, hwait]
  refine CanReach.step htick (fun h => h) (CanReach.step hfire (fun h => h) ?_)
  refine canReach_runOff [.onTimer i] rfl hsch ?_
  intro s' _ _ _ _ hst' hon'
  refine canReach_start (hst'.trans hst) (Nat.pos_of_ne_zero fun hz => ?_)
  have hquiet := (hon' hz).2.2
  rw [runOff_singleton] at hquiet
  simp [State.execute, State.onTimer, hi, hc, hcur] at hquiet

theorem canReach_of_pending {s₀ s : System τ} (hst : s.started = s₀.started) (hsch : Scheduled s)
    (hn : ¬ (s.on = 0 ∧ s.dispatching = false ∧ s.runOff.2 = false ∧ s.runOff.1.Silent)) :
    CanReach delayInSeconds s (StartsAfter s₀) := by
  refine canReach_runOff s.queue rfl hsch ?_
  intro s' hq' _ hb' hsch' hst' hon'
  rcases Nat.eq_zero_or_pos s'.on with hz | hp
  · obtain ⟨h1, h2, h3⟩ := hon' hz
    refine canReach_fire (hst'.trans hst) hq' hsch' fun hsil => hn ⟨h1, h2, h3, ?_⟩
    rw [hb'] at hsil; exact hsil
  · exact canReach_start (hst'.trans hst) hp

/-- A signal call that has begun can still get its callback started. -/
theorem canReach_of_calling {s : System τ} (hsch : Scheduled s) {t : τ}
    (ht : s.callers t = .calling scheduleWorkSignal) :
    CanReach delayInSeconds s (StartsAfter s) := by
  have henq : step delayInSeconds s (.enqueue t) = some { s with
      callers := Function.update s.callers t (.returning scheduleWorkSignal)
      queue := s.queue ++ [.onSignal] } := by simp only [step, ht]; rfl
  refine CanReach.step henq (fun h => h) (canReach_of_pending rfl hsch ?_)
  rintro ⟨-, -, -, hsil⟩
  simp only [System.runOff, runOff_append, runOff_singleton] at hsil
  simp only [State.Silent, State.execute, State.onSignal, List.mem_append, List.mem_singleton,
    Bool.false_eq_true, false_or] at hsil
  exact hsil _ (Or.inr rfl) rfl rfl

theorem canReach_of_not_calledOff {s : System τ} (hsch : Scheduled s) (hn : ¬ CalledOff s) :
    CanReach delayInSeconds s (StartsAfter s) := by
  by_cases hcall : ∀ t, s.callers t ≠ .calling scheduleWorkSignal
  · exact canReach_of_pending rfl hsch fun ⟨h1, h2, h3, h4⟩ => hn ⟨h1, h2, h3, h4, hcall⟩
  · simp only [ne_eq, not_forall, not_not] at hcall
    obtain ⟨t, ht⟩ := hcall
    exact canReach_of_calling hsch ht

/-! ## The cancel call -/

/-- Thread `t` is inside a cancel call that no signal call overlaps; once its block is queued,
running off the private queue ends cancelled. -/
def CancelUnderWay (t : τ) (s : System τ) : Prop :=
  (∀ t', s.callers t' ≠ .calling scheduleWorkSignal) ∧
    (s.callers t = .calling scheduleWorkCancel ∨
      s.callers t = .returning scheduleWorkCancel ∧ s.runOff.1.canceled = true)

theorem cancelUnderWay_step {t : τ} {s s' : System τ} {a : Action τ}
    (ha : ¬ a.IsSignal ∧ a ≠ .ret t) (h : CancelUnderWay t s)
    (hs : step delayInSeconds s a = some s') : CancelUnderWay t s' := by
  obtain ⟨hcall, hphase⟩ := h
  obtain ⟨hsig, hret⟩ := ha
  cases stepsTo_of_step hs with
  | @call t' c hidle =>
      have hc : c ≠ scheduleWorkSignal := by rintro rfl; exact hsig trivial
      have htt : t ≠ t' := by
        rintro rfl
        rcases hphase with hp | ⟨hp, -⟩ <;> rw [hidle] at hp <;> exact absurd hp (by simp)
      refine ⟨update_calling (by simpa using hc) hcall, ?_⟩
      simp only [Function.update_of_ne htt]
      exact hphase
  | @enqueue t' c hc =>
      have hcancel : c = scheduleWorkCancel := by
        cases c with
        | scheduleWorkSignal => exact absurd hc (hcall t')
        | scheduleWorkCancel => rfl
      subst hcancel
      have hend : (s.blocks.state.runOff (s.queue ++ [.onCancel])).1.canceled = true := by
        rw [runOff_append, runOff_singleton]; rfl
      refine ⟨update_calling (by simp) hcall, ?_⟩
      by_cases htt : t = t'
      · subst htt; exact Or.inr ⟨Function.update_self .., hend⟩
      · simp only [Function.update_of_ne htt]
        exact hphase.imp id fun ⟨hp, _⟩ => ⟨hp, hend⟩
  | @ret t' c _ =>
      have htt : t ≠ t' := by rintro rfl; exact hret rfl
      refine ⟨update_calling (by simp) hcall, ?_⟩
      simp only [Function.update_of_ne htt]
      exact hphase
  | @fire i _ _ =>
      refine ⟨hcall, hphase.imp id fun ⟨hp, hc⟩ => ⟨hp, ?_⟩⟩
      show (s.blocks.state.runOff (s.queue ++ [.onTimer i])).1.canceled = true
      rw [runOff_append, runOff_singleton]
      exact (onTimer_frame _ i).1.trans hc
  | runQueue hqueue =>
      simp only [System.runOff, hqueue, State.runOff] at hphase
      exact ⟨hcall, hphase⟩
  | tick | dispatch _ | start _ => exact ⟨hcall, hphase⟩

/-- A state is called off exactly when no schedule without signal calls starts a callback. -/
theorem calledOff_iff {s : System τ} (hsch : Scheduled s) :
    (∀ post s', (∀ a ∈ post, ¬ a.IsSignal) → run (step delayInSeconds) s post = some s' →
      s'.started = s.started) ↔ CalledOff s := by
  constructor
  · intro h
    by_contra hn
    have hreach : CanReach delayInSeconds s (StartsAfter s) := canReach_of_not_calledOff hsch hn
    obtain ⟨post, s', hpost, hrun, hstart⟩ := hreach
    have := h post s' hpost hrun
    unfold StartsAfter at hstart
    omega
  · intro h post s' hpost hrun
    exact calledOff_run hpost h hrun

/-- **What a cancel calls off.** Take any run in which thread `t` begins a cancel, nobody begins a
signal after that, and the cancel returns. No callback starts after that moment, whatever happens
as long as nobody signals, exactly when the state at that moment is `CalledOff`. If no signal call
was under way when the cancel began, that means: no callback is waiting on `on` or being handed to
it, and no handler waiting on the private queue passes its check. -/
theorem cancel_calls_off_iff {pre mid : List (Action τ)} {t : τ} {s₀ s : System τ}
    (hpre : run (step delayInSeconds) (System.init τ) pre = some s₀)
    (hrun : run (step delayInSeconds) s₀ (.call t scheduleWorkCancel :: (mid ++ [.ret t])) = some s)
    (hmid : ∀ a ∈ mid, ¬ a.IsSignal ∧ a ≠ .ret t) :
    ((∀ post s', (∀ a ∈ post, ¬ a.IsSignal) → run (step delayInSeconds) s post = some s' →
      s'.started = s.started) ↔ CalledOff s) ∧
    ((∀ t', s₀.callers t' ≠ .calling scheduleWorkSignal) →
      (CalledOff s ↔ s.on = 0 ∧ s.dispatching = false ∧ s.runOff.2 = false)) := by
  have hinit : Scheduled (System.init τ) := rfl
  have hsch₀ : Scheduled s₀ := run_invariant scheduled_step hinit hpre
  refine ⟨calledOff_iff (run_invariant scheduled_step hsch₀ hrun), fun hcall => ?_⟩
  obtain ⟨s₁, h₁, h₂⟩ := run_cons_some.mp hrun
  obtain ⟨s₂, h₃, h₄⟩ := run_snoc.mp h₂
  have hway₁ : CancelUnderWay t s₁ := by
    cases stepsTo_of_step h₁ with
    | call c _ => exact ⟨update_calling (by simp) hcall, Or.inl (Function.update_self ..)⟩
  have hway : CancelUnderWay t s₂ :=
    run_invariant_along cancelUnderWay_step (along_of_forall s₁ hmid) hway₁ h₃
  refine ⟨fun h => ⟨h.on, h.dispatching, h.queued⟩, fun ⟨hon, hdis, hq⟩ => ?_⟩
  cases stepsTo_of_step h₄ with
  | ret hphase =>
      obtain ⟨hcall₂, hp⟩ := hway
      rcases hp with hp | ⟨-, hend⟩
      · rw [hphase] at hp; exact absurd hp (by simp)
      · exact ⟨hon, hdis, hq, Or.inl hend, update_calling (by simp) hcall₂⟩

/-- The signal has been executed and its timer is armed when the cancel comes. -/
theorem cancel_calls_off_armed_timer :
    ∃ s, run (step 1) (System.init (Fin 1))
        [.call 0 scheduleWorkSignal, .enqueue 0, .ret 0, .runQueue,
          .call 0 scheduleWorkCancel, .enqueue 0, .ret 0] = some s
      ∧ ∀ post s', (∀ a ∈ post, ¬ a.IsSignal) → run (step 1) s post = some s' →
        s'.started = s.started := by
  have hthm := @cancel_calls_off_iff (Fin 1) _ 1
    [.call 0 scheduleWorkSignal, .enqueue 0, .ret 0, .runQueue] [.enqueue 0] 0 _ _ rfl rfl
    (by simp [Action.IsSignal])
  exact ⟨_, rfl, hthm.1.mpr ((hthm.2 (by decide)).mpr ⟨rfl, rfl, rfl⟩)⟩

/-- The callback is already waiting on `on` when the cancel is called; it still runs. -/
theorem cancel_misses_waiting_callback :
    ¬ ∀ (pre mid post : List (Action (Fin 1))) (t : Fin 1) (s₀ s s' : System (Fin 1)),
      run (step 0) (System.init (Fin 1)) pre = some s₀ →
      run (step 0) s₀ (.call t scheduleWorkCancel :: (mid ++ [.ret t])) = some s →
      (∀ a ∈ mid, ¬ a.IsSignal ∧ a ≠ .ret t) → (∀ a ∈ post, ¬ a.IsSignal) →
      s.started = 0 → run (step 0) s post = some s' → s'.started = 0 := by
  intro h
  obtain ⟨s₀, h₀⟩ : ∃ s₀, run (step 0) (System.init (Fin 1))
      [.call 0 scheduleWorkSignal, .enqueue 0, .ret 0, .runQueue, .fire 0, .runQueue, .dispatch]
        = some s₀ := Option.isSome_iff_exists.mp (by decide +kernel)
  have hon : s₀.on = 1 ∧ s₀.started = 0 ∧ s₀.callers 0 = .idle := by
    have hmap : (run (step 0) (System.init (Fin 1))
        [.call 0 scheduleWorkSignal, .enqueue 0, .ret 0, .runQueue, .fire 0, .runQueue, .dispatch]).map
          (fun s => (s.on, s.started, s.callers 0)) = some (1, 0, .idle) := by decide +kernel
    rw [h₀] at hmap
    simpa using hmap
  obtain ⟨hw, hz, hidle⟩ := hon
  have hcancel : run (step 0) s₀ (.call 0 scheduleWorkCancel :: ([.enqueue 0] ++ [.ret 0]))
      = some { s₀ with
        queue := s₀.queue ++ [.onCancel]
        callers := Function.update s₀.callers 0 .idle } := by
    simp [run_cons, step, hidle, ScheduleCall.work]
  have hstart : run (step 0) { s₀ with
        queue := s₀.queue ++ [.onCancel]
        callers := Function.update s₀.callers 0 .idle } [.start]
      = some { s₀ with
        queue := s₀.queue ++ [.onCancel]
        callers := Function.update s₀.callers 0 .idle
        on := 0
        started := 1 } := by
    simp [run_cons, step, hw, hz]
  have hfalse := h _ [.enqueue 0] [.start] 0 s₀ _ _ h₀ hcancel (by simp [Action.IsSignal])
    (by simp [Action.IsSignal]) hz hstart
  exact absurd hfalse (by simp)

end NPFoundation.Debounce
