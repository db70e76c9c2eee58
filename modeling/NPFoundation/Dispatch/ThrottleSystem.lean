import NPFoundation.Lib.Run
import NPFoundation.Lib.Tally
import NPFoundation.Dispatch.Throttle
import Mathlib.Data.Fintype.Basic
import Mathlib.Logic.Function.Basic

/-!
# A throttle between its callers and the queue `on`

Any thread may signal, which puts an `onSignal` block on the private queue, or cancel, which
runs an empty block. The private queue runs one block at a time: it reads the clock, decides,
and hands the callback to `on` some time after that. The handle may be null, when it could not
be allocated; freeing it is up to the caller to do last.

So it is the clock readings that are the delay apart. The callbacks only follow on them.
-/

namespace NPFoundation.Throttle

open Transition Spacing

/-- An `NPScheduleWorkRef`. -/
inductive ScheduleWork where
  | null
  | live
  | freed
  deriving DecidableEq, Repr

/-- `makeScheduleWork`, when `calloc` finds memory and when it does not. -/
def makeScheduleWork (allocated : Bool) : ScheduleWork := if allocated then .live else .null

inductive ScheduleCall where
  | scheduleWorkSignal
  | scheduleWorkCancel
  deriving DecidableEq, Repr

/-- Where a caller is: the block of its call is yet to run, or has. -/
inductive Caller where
  | idle
  | calling (c : ScheduleCall)
  | returning
  deriving DecidableEq, Repr

structure System (τ : Type) where
  work : ScheduleWork
  state : State
  /-- How many `onSignal` blocks wait on the private queue. -/
  queue : Nat
  /-- The running block is about to `dispatch_async` the callback. -/
  dispatching : Bool
  /-- Callbacks waiting on `on`. -/
  on : Nat
  started : Nat
  callers : τ → Caller
  clock : ℚ

/-- A scheduler choice. -/
inductive Action (τ : Type) where
  | call (t : τ) (c : ScheduleCall)
  /-- The call checks the handle, and runs the block in it. -/
  | perform (t : τ)
  | ret (t : τ)
  /-- `NPScheduleWorkFree`. -/
  | free
  | tick (d : ℚ)
  /-- The private queue runs its next block, as far as the decision. -/
  | runQueue
  | dispatch
  /-- `on` starts the next callback. -/
  | start
  deriving DecidableEq

/-- What happened: when signals were executed and when callbacks were handed to `on`. No step
looks at it. -/
structure Log where
  readings : List ℚ
  handed : List ℚ
  deriving DecidableEq

variable {τ : Type}

def System.init (τ : Type) (allocated : Bool) : System τ where
  work := makeScheduleWork allocated
  state := State.init
  queue := 0
  dispatching := false
  on := 0
  started := 0
  callers := fun _ => .idle
  clock := 0

def Log.init : Log := ⟨[], []⟩

variable [DecidableEq τ] [Fintype τ]

/-- One step. A freed handle is not used, and not freed while a call has it. -/
def step (delayInSeconds : ℚ) (p : System τ × Log) : Action τ → Option (System τ × Log)
  | .call t c =>
      if p.1.callers t = .idle ∧ p.1.work ≠ .freed then
        some ({ p.1 with callers := Function.update p.1.callers t (.calling c) }, p.2)
      else none
  | .perform t =>
      match p.1.callers t, p.1.work with
      | .calling .scheduleWorkSignal, .live => some
          ({ p.1 with
              callers := Function.update p.1.callers t .returning
              queue := p.1.queue + 1 }, p.2)
      -- an empty block, or none
      | .calling .scheduleWorkCancel, .live | .calling _, .null =>
          some ({ p.1 with callers := Function.update p.1.callers t .returning }, p.2)
      | _, _ => none
  | .ret t =>
      if p.1.callers t = .returning then
        some ({ p.1 with callers := Function.update p.1.callers t .idle }, p.2)
      else none
  | .free =>
      if (∀ t', p.1.callers t' = .idle) ∧ p.1.work ≠ .freed then
        some (if p.1.work = .live then { p.1 with work := .freed } else p.1, p.2)
      else none
  | .tick d => if 0 ≤ d then some ({ p.1 with clock := p.1.clock + d }, p.2) else none
  | .runQueue =>
      if p.1.dispatching = false ∧ 0 < p.1.queue then
        some ({ p.1 with
            queue := p.1.queue - 1
            state := (p.1.state.onSignal delayInSeconds p.1.clock).1
            dispatching := (p.1.state.onSignal delayInSeconds p.1.clock).2 },
          { p.2 with readings := p.2.readings ++ [p.1.clock] })
      else none
  | .dispatch =>
      if p.1.dispatching then
        some ({ p.1 with dispatching := false, on := p.1.on + 1 },
          { p.2 with handed := p.2.handed ++ [p.1.clock] })
      else none
  | .start =>
      if 0 < p.1.on then
        some ({ p.1 with on := p.1.on - 1, started := p.1.started + 1 }, p.2)
      else none

/-- Everything a step can do. -/
inductive StepsTo (delayInSeconds : ℚ) (s : System τ) (log : Log) :
    Action τ → System τ → Log → Prop where
  | call (t : τ) (c : ScheduleCall) : s.callers t = .idle →
      StepsTo delayInSeconds s log (.call t c)
        { s with callers := Function.update s.callers t (.calling c) } log
  | enqueue (t : τ) : s.callers t = .calling .scheduleWorkSignal → s.work = .live →
      StepsTo delayInSeconds s log (.perform t)
        { s with callers := Function.update s.callers t .returning, queue := s.queue + 1 } log
  /-- The block is empty, or there is none. -/
  | nothing (t : τ) (c : ScheduleCall) : s.callers t = .calling c →
      c = .scheduleWorkCancel ∨ s.work = .null →
      StepsTo delayInSeconds s log (.perform t)
        { s with callers := Function.update s.callers t .returning } log
  | ret (t : τ) : s.callers t = .returning →
      StepsTo delayInSeconds s log (.ret t)
        { s with callers := Function.update s.callers t .idle } log
  | free (work : ScheduleWork) : (work = .null ↔ s.work = .null) →
      StepsTo delayInSeconds s log .free { s with work } log
  | tick (d : ℚ) : 0 ≤ d →
      StepsTo delayInSeconds s log (.tick d) { s with clock := s.clock + d } log
  | runQueue : s.dispatching = false → 0 < s.queue →
      StepsTo delayInSeconds s log .runQueue
        { s with
          queue := s.queue - 1
          state := (s.state.onSignal delayInSeconds s.clock).1
          dispatching := (s.state.onSignal delayInSeconds s.clock).2 }
        { log with readings := log.readings ++ [s.clock] }
  | dispatch : s.dispatching = true →
      StepsTo delayInSeconds s log .dispatch { s with dispatching := false, on := s.on + 1 }
        { log with handed := log.handed ++ [s.clock] }
  | start : 0 < s.on →
      StepsTo delayInSeconds s log .start { s with on := s.on - 1, started := s.started + 1 } log

variable {d : ℚ} {s s' : System τ} {log log' : Log} {a : Action τ}

theorem stepsTo_of_step (h : step d (s, log) a = some (s', log')) : StepsTo d s log a s' log' := by
  cases a with
  | call t c =>
      obtain ⟨⟨hidle, -⟩, h⟩ := Option.ite_none_right_eq_some.mp h
      obtain ⟨rfl, rfl⟩ := Prod.mk.inj (Option.some.inj h)
      exact .call t c hidle
  | perform t =>
      simp only [step] at h
      split at h
      · rename_i hcaller hlive
        obtain ⟨rfl, rfl⟩ := Prod.mk.inj (Option.some.inj h)
        exact .enqueue t hcaller hlive
      · rename_i hcaller hlive
        obtain ⟨rfl, rfl⟩ := Prod.mk.inj (Option.some.inj h)
        exact .nothing t _ hcaller (.inl rfl)
      · rename_i hcaller hnull
        obtain ⟨rfl, rfl⟩ := Prod.mk.inj (Option.some.inj h)
        exact .nothing t _ hcaller (.inr hnull)
      · exact absurd h (by simp)
  | ret t =>
      obtain ⟨hreturning, h⟩ := Option.ite_none_right_eq_some.mp h
      obtain ⟨rfl, rfl⟩ := Prod.mk.inj (Option.some.inj h)
      exact .ret t hreturning
  | free =>
      obtain ⟨-, h⟩ := Option.ite_none_right_eq_some.mp h
      obtain ⟨hs, rfl⟩ := Prod.mk.inj (Option.some.inj h)
      dsimp only at hs
      by_cases hlive : s.work = .live
      · rw [if_pos hlive] at hs
        exact hs ▸ .free .freed (by simp [hlive])
      · rw [if_neg hlive] at hs
        exact hs ▸ .free s.work Iff.rfl
  | tick d =>
      obtain ⟨hd, h⟩ := Option.ite_none_right_eq_some.mp h
      obtain ⟨rfl, rfl⟩ := Prod.mk.inj (Option.some.inj h)
      exact .tick d hd
  | runQueue =>
      obtain ⟨⟨hidle, hqueue⟩, h⟩ := Option.ite_none_right_eq_some.mp h
      obtain ⟨rfl, rfl⟩ := Prod.mk.inj (Option.some.inj h)
      exact .runQueue hidle hqueue
  | dispatch =>
      obtain ⟨hdispatching, h⟩ := Option.ite_none_right_eq_some.mp h
      obtain ⟨rfl, rfl⟩ := Prod.mk.inj (Option.some.inj h)
      exact .dispatch hdispatching
  | start =>
      obtain ⟨hon, h⟩ := Option.ite_none_right_eq_some.mp h
      obtain ⟨rfl, rfl⟩ := Prod.mk.inj (Option.some.inj h)
      exact .start hon

/-! ## One more signal -/

/-- The clock readings at which the callback was due. -/
def Log.passed (delayInSeconds : ℚ) (log : Log) : List ℚ :=
  State.init.dispatches delayInSeconds (log.readings.map .signal)

theorem dispatches_snoc (d : ℚ) (s : State) (events : List Event) (e : Event) :
    s.dispatches d (events ++ [e])
      = s.dispatches d events ++ ((s.after d events).execute d e).2.toList := by
  induction events generalizing s with
  | nil => simp [State.dispatches, State.after]
  | cons e' events ih =>
      rw [List.cons_append, State.dispatches, ih, State.dispatches, List.append_assoc]
      rfl

theorem after_snoc (d : ℚ) (s : State) (events : List Event) (e : Event) :
    s.after d (events ++ [e]) = ((s.after d events).execute d e).1 := by
  rw [State.after, List.foldl_append]
  rfl

theorem timestamps_map (readings : List ℚ) : timestamps (readings.map .signal) = readings := by
  induction readings with
  | nil => rfl
  | cons t readings ih => exact congrArg (t :: ·) ih

theorem passed_subset (d : ℚ) (log : Log) : log.passed d ⊆ log.readings := by
  have hsub : log.passed d ⊆ timestamps (log.readings.map .signal) := dispatches_subset
  rwa [timestamps_map] at hsub

/-! ## The invariant -/

structure Throttled (delayInSeconds : ℚ) (s : System τ) (log : Log) : Prop where
  sorted : log.readings.Pairwise (· ≤ ·)
  past : ∀ t ∈ log.readings ++ log.handed, t ≤ s.clock
  /-- The captured variables are those after the signals that were executed. -/
  state : s.state = State.init.after delayInSeconds (log.readings.map .signal)
  follows : Spacing.Follows (log.passed delayInSeconds) log.handed
  pending : log.handed.length + s.dispatching.toNat = (log.passed delayInSeconds).length
  counted : s.started + s.on = log.handed.length

omit [DecidableEq τ] [Fintype τ] in
theorem throttled_init (d : ℚ) (allocated : Bool) :
    Throttled d (System.init τ allocated) Log.init where
  sorted := .nil
  past := fun _ ht => absurd ht List.not_mem_nil
  state := rfl
  follows := .nil
  pending := rfl
  counted := rfl

omit [DecidableEq τ] [Fintype τ] in
/-- The next block runs. -/
theorem Throttled.runQueue (h : Throttled d s log) (hidle : s.dispatching = false) :
    Throttled d
      { s with
        queue := s.queue - 1
        state := (s.state.onSignal d s.clock).1
        dispatching := (s.state.onSignal d s.clock).2 }
      { log with readings := log.readings ++ [s.clock] } := by
  have hpassed : Log.passed d { log with readings := log.readings ++ [s.clock] }
      = log.passed d ++ (if (s.state.onSignal d s.clock).2 then [s.clock] else []) := by
    rw [Log.passed, List.map_append, List.map_cons, List.map_nil, dispatches_snoc, ← h.state,
      State.execute]
    cases (s.state.onSignal d s.clock).2 <;> rfl
  have hpending := h.pending
  rw [hidle, Bool.toNat_false, Nat.add_zero] at hpending
  refine ⟨?_, ?_, ?_, ?_, ?_, h.counted⟩
  · refine List.pairwise_append.mpr ⟨h.sorted, List.pairwise_singleton _ _, fun t ht x hx => ?_⟩
    rw [List.mem_singleton.mp hx]
    exact h.past t (List.mem_append_left _ ht)
  · intro t ht
    rcases List.mem_append.mp ht with ht | ht
    · rcases List.mem_append.mp ht with ht | ht
      · exact h.past t (List.mem_append_left _ ht)
      · exact le_of_eq (List.mem_singleton.mp ht)
    · exact h.past t (List.mem_append_right _ ht)
  · rw [List.map_append, List.map_cons, List.map_nil, after_snoc, ← h.state]
    rfl
  · rw [hpassed]
    split
    · exact h.follows.snoc_point hpending fun t ht => h.past t (List.mem_append_right _ ht)
    · rw [List.append_nil]
      exact h.follows
  · rw [hpassed]
    dsimp only
    cases (s.state.onSignal d s.clock).2 <;> simp [hpending]

theorem throttled_step (h : Throttled d s log) (hs : step d (s, log) a = some (s', log')) :
    Throttled d s' log' := by
  cases stepsTo_of_step hs with
  | call _ _ | enqueue _ | nothing _ _ | ret _ | free _ _ =>
      exact ⟨h.sorted, h.past, h.state, h.follows, h.pending, h.counted⟩
  | tick d' hd =>
      refine ⟨h.sorted, fun t ht => ?_, h.state, h.follows, h.pending, h.counted⟩
      have hpast := h.past t ht
      show t ≤ s.clock + d'
      linarith
  | runQueue hidle _ => exact h.runQueue hidle
  | dispatch hdispatching =>
      have hpending := h.pending
      have hcounted := h.counted
      rw [hdispatching] at hpending
      refine ⟨h.sorted, fun t ht => ?_, h.state, ?_, ?_, ?_⟩
      · rw [← List.append_assoc] at ht
        rcases List.mem_append.mp ht with ht | ht
        · exact h.past t ht
        · exact le_of_eq (List.mem_singleton.mp ht)
      · exact h.follows.snoc_answer hpending fun t ht =>
          h.past t (List.mem_append_left _ (passed_subset d log ht))
      · change (log.handed ++ [s.clock]).length + 0 = (log.passed d).length
        rw [List.length_append]
        exact hpending
      · simp only [List.length_append, List.length_singleton]
        omega
  | start hon =>
      have hcounted := h.counted
      exact ⟨h.sorted, h.past, h.state, h.follows, h.pending, by dsimp only; omega⟩

/-! ## No signal is lost -/

/-- A call of `NPScheduleWorkSignal` begins. -/
def Action.signals : Action τ → Bool
  | .call _ .scheduleWorkSignal => true
  | _ => false

/-- The caller whose `NPScheduleWorkSignal` runs the block of a live handle. -/
def performsSignal (p : System τ × Log) : Action τ → Option τ
  | .perform t =>
      if p.1.callers t = .calling .scheduleWorkSignal ∧ p.1.work = .live then some t else none
  | _ => none

/-- The signals after the calls in `as`, `performed` of which ran the block of a live handle. -/
structure Conserved (allocated : Bool) (as : List (Action τ)) (performed : Nat) (s : System τ)
    (log : Log) : Prop where
  null : s.work = .null ↔ allocated = false
  /-- What was performed is executed or waits. -/
  executed : performed = log.readings.length + s.queue
  /-- A call that began is performed or about to be. -/
  begun : allocated = true →
    as.countP Action.signals
      = performed + Tally.occurrences s.callers (.calling .scheduleWorkSignal)
  nothing : allocated = false → performed = 0

variable {allocated : Bool} {as : List (Action τ)} {performed : Nat}

omit [DecidableEq τ] in
theorem conserved_init (allocated : Bool) :
    Conserved allocated [] 0 (System.init τ allocated) Log.init where
  null := by cases allocated <;> simp [System.init, makeScheduleWork]
  executed := rfl
  begun := fun _ => by simp [System.init, Tally.occurrences]
  nothing := fun _ => rfl

/-- A caller goes on to `c`, and `enqueues` blocks go to the private queue. -/
theorem Conserved.move (h : Conserved allocated as performed s log) {t : τ} {c : Caller}
    {enqueues : Nat}
    (hlive : allocated = true →
      a.signals.toNat + (if s.callers t = .calling .scheduleWorkSignal then 1 else 0)
        = enqueues + (if c = .calling .scheduleWorkSignal then 1 else 0))
    (hnull : allocated = false → enqueues = 0) :
    Conserved allocated (as ++ [a]) (performed + enqueues)
      { s with callers := Function.update s.callers t c, queue := s.queue + enqueues } log := by
  have hmoved := Tally.occurrences_update s.callers t c (.calling .scheduleWorkSignal)
  refine ⟨h.null, ?_, fun hallocated => ?_, fun hallocated => ?_⟩
  · have hexecuted := h.executed
    dsimp only
    omega
  · have hbegun := h.begun hallocated
    have hplaces := hlive hallocated
    have hone : (if a.signals = true then 1 else 0) = a.signals.toNat := by
      cases a.signals <;> rfl
    rw [List.countP_append, List.countP_singleton, hone]
    dsimp only
    omega
  · rw [h.nothing hallocated, hnull hallocated]

omit [DecidableEq τ] in
/-- A step of the handle or the queues, or of time. -/
theorem Conserved.rest (h : Conserved allocated as performed s log) {a : Action τ}
    (hbegins : a.signals = false) {s' : System τ} {log' : Log} (hcallers : s'.callers = s.callers)
    (hnull : s'.work = .null ↔ s.work = .null)
    (hwaiting : log'.readings.length + s'.queue = log.readings.length + s.queue) :
    Conserved allocated (as ++ [a]) performed s' log' := by
  refine ⟨hnull.trans h.null, h.executed.trans hwaiting.symm, fun hlive => ?_, h.nothing⟩
  rw [List.countP_append, List.countP_singleton, hbegins, hcallers]
  exact h.begun hlive

theorem conserved_step (h : Conserved allocated as performed s log)
    (hs : step d (s, log) a = some (s', log')) :
    Conserved allocated (as ++ [a]) (performed + (performsSignal (s, log) a).toList.length) s' log' := by
  cases stepsTo_of_step hs with
  | call t c hidle =>
      refine h.move (fun _ => ?_) fun _ => rfl
      rw [hidle]
      cases c <;> rfl
  | enqueue t hcaller hlive =>
      have hperforms : (performsSignal (s, log) (.perform t)).toList.length = 1 := by
        simp [performsSignal, hcaller, hlive]
      rw [hperforms]
      refine h.move (fun _ => ?_) fun hallocated => ?_
      · rw [hcaller]
        rfl
      · rw [h.null.mpr hallocated] at hlive
        cases hlive
  | nothing t c hcaller hno =>
      have hperforms : (performsSignal (s, log) (.perform t)).toList.length = 0 := by
        rcases hno with rfl | hnull
        · simp [performsSignal, hcaller]
        · simp [performsSignal, hnull]
      rw [hperforms]
      refine h.move (fun hallocated => ?_) fun _ => rfl
      rcases hno with rfl | hnull
      · rw [hcaller]
        rfl
      · rw [h.null.mp hnull] at hallocated
        cases hallocated
  | ret t hreturning =>
      refine h.move (fun _ => ?_) fun _ => rfl
      rw [hreturning]
      rfl
  | free work hnull => exact h.rest rfl rfl hnull rfl
  | tick _ _ | dispatch _ | start _ => exact h.rest rfl rfl Iff.rfl rfl
  | runQueue _ hqueue =>
      refine h.rest rfl rfl Iff.rfl ?_
      rw [List.length_append, List.length_singleton]
      dsimp only
      omega

theorem conserved_run (hrun : run (step d) (System.init τ allocated, Log.init) as = some (s, log)) :
    Conserved allocated as
      (observed (step d) performsSignal (System.init τ allocated, Log.init) as).length s log := by
  induction as using List.reverseRecOn generalizing s log with
  | nil =>
      obtain ⟨rfl, rfl⟩ := Prod.mk.inj (Option.some.inj hrun)
      exact conserved_init allocated
  | append_singleton as a ih =>
      obtain ⟨⟨s₁, log₁⟩, hbefore, hlast⟩ := run_snoc.mp hrun
      rw [observed_snoc hbefore, List.length_append]
      exact conserved_step (ih hbefore) hlast

/-- **A throttle among its callers.** In every interleaving: the signal calls that ran the block
of a live handle are as many as the signals executed and those that wait on the private queue, and
a call that began has run it or is about to. Nothing comes of a call with a null handle. The
callback is due at clock readings that are the delay apart, at as many as can be among those of
the signals. It is handed to `on` once for each, after the reading and before the next: so a
window shorter than the delay sees it handed over twice at most. What was handed over has started
or waits on `on`. -/
theorem callbacks_follow (d : ℚ) (allocated : Bool) (as : List (Action τ)) (s : System τ) (log : Log)
    (hrun : run (step d) (System.init τ allocated, Log.init) as = some (s, log)) :
    (observed (step d) performsSignal (System.init τ allocated, Log.init) as).length
        = log.readings.length + s.queue
    ∧ (allocated = true → as.countP Action.signals
        = log.readings.length + s.queue
          + Tally.occurrences s.callers (.calling .scheduleWorkSignal))
    ∧ (allocated = false → log.readings = [] ∧ s.queue = 0)
    ∧ Spaced d (log.passed d)
    ∧ IsGreatest {n | ∃ chosen : List ℚ, chosen.Sublist log.readings ∧ Spaced d chosen
          ∧ chosen.length = n} (log.passed d).length
    ∧ Spacing.Follows (log.passed d) log.handed
    ∧ log.handed.length + s.dispatching.toNat = (log.passed d).length
    ∧ (∀ a, (log.handed.filter fun t => a ≤ t ∧ t < a + d).length ≤ 2)
    ∧ s.started + s.on = log.handed.length := by
  have h : Throttled d s log := run_invariant (I := fun p : System τ × Log => Throttled d p.1 p.2)
    (fun h hs => throttled_step h hs) (throttled_init d allocated) hrun
  have hsignals := conserved_run hrun
  have hkeep : log.passed d = keep d none log.readings := by
    rw [Log.passed, dispatches_eq_keep, timestamps_map]
    rfl
  have hspaced : Spaced d (log.passed d) := by
    rw [hkeep]
    exact keep_spaced h.sorted
  refine ⟨hsignals.executed, fun hlive => ?_, fun hnull => ?_, hspaced, ?_, h.follows, h.pending,
    fun a => ?_, h.counted⟩
  · rw [hsignals.begun hlive, hsignals.executed]
  · have hnone := hsignals.executed
    rw [hsignals.nothing hnull] at hnone
    exact ⟨List.eq_nil_of_length_eq_zero (by omega), by omega⟩
  · rw [hkeep]
    exact keep_greatest h.sorted
  · refine h.follows.window_le_two hspaced fun x y hx hy => ?_
    simp only [decide_eq_true_eq] at hx hy
    linarith only [hy.2, hx.1]

/-- Two callbacks close together, the first of them handed over late; and a third signal that has
not run its block yet. -/
def lateSchedule (t u : τ) : List (Action τ) :=
  [.call t .scheduleWorkSignal, .perform t, .ret t, .call u .scheduleWorkCancel, .runQueue,
    .perform u, .tick 2, .ret u, .call t .scheduleWorkSignal, .dispatch, .perform t, .ret t,
    .runQueue, .dispatch, .start, .call u .scheduleWorkSignal]

theorem callbacks_follow_late :
    ∃ s, run (step 2) (System.init (Fin 2) true, Log.init) (lateSchedule 0 1)
        = some (s, ⟨[0, 2], [2, 2]⟩)
      ∧ 3 = 2 + s.queue + Tally.occurrences s.callers (.calling .scheduleWorkSignal)
      ∧ s.started + s.on = 2
      ∧ (([2, 2] : List ℚ).filter fun t => (1 : ℚ) ≤ t ∧ t < 1 + 2).length ≤ 2 := by
  obtain ⟨⟨s, log⟩, hrun⟩ : ∃ p, run (step 2) (System.init (Fin 2) true, Log.init) (lateSchedule 0 1)
      = some p := Option.isSome_iff_exists.mp (by decide +kernel)
  have hlog : log = ⟨[0, 2], [2, 2]⟩ := by
    have hmap : (run (step 2) (System.init (Fin 2) true, Log.init) (lateSchedule 0 1)).map Prod.snd
        = some ⟨[0, 2], [2, 2]⟩ := by decide +kernel
    rw [hrun] at hmap
    exact Option.some.inj hmap
  subst hlog
  obtain ⟨-, hbegun, -, -, -, -, -, hwindow, hcounted⟩ := callbacks_follow 2 true _ s _ hrun
  exact ⟨s, hrun, hbegun rfl, hcounted, hwindow 1⟩

end NPFoundation.Throttle
