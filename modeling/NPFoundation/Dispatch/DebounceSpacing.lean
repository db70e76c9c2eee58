import NPFoundation.Dispatch.DebounceCancel
import NPFoundation.Lib.Spacing
import Mathlib.Algebra.Order.Ring.Rat

/-!
# Callbacks of a debounce are kept apart

Whatever the callers and the timers do, a debounce hands its callback to `on` no more often
than once in `delayInSeconds`: the handler that passes its check is that of the last signal,
and a later signal cannot be executed before the callback has been handed over, so the next
deadline lies the delay after that at least.

The times at which callbacks are handed over are noted down next to the system.
-/

namespace NPFoundation.Debounce

open Transition Spacing ScheduleCall

variable {τ : Type} [DecidableEq τ] {delayInSeconds : ℚ}

/-- A step of the system, with the time of a hand-over noted down. -/
def watch (delayInSeconds : ℚ) (p : System τ × List ℚ) (a : Action τ) :
    Option (System τ × List ℚ) :=
  (step delayInSeconds p.1 a).map fun s' =>
    (s', match a with
      | .dispatch => p.2 ++ [p.1.clock]
      | _ => p.2)

/-- A timer that would pass the check, but for a cancel. -/
def Latest (d : State) (timer : Timer) : Prop :=
  timer.armed = true ∧ timer.current = d.generation

/-- What keeps the callbacks apart. -/
structure Apart (delayInSeconds : ℚ) (s : System τ) (handed : List ℚ) : Prop where
  spaced : Spaced delayInSeconds handed
  past : ∀ t ∈ handed, t ≤ s.clock
  /-- A callback about to be handed over is not too early. -/
  ready : s.dispatching = true → ∀ t ∈ handed, delayInSeconds ≤ s.clock - t
  /-- Neither is the next one. -/
  later : ∀ (i : ℕ) timer deadline, s.blocks.state.timers[i]? = some timer →
    s.blocks.deadlines[i]? = some deadline → Latest s.blocks.state timer →
    s.dispatching = false ∧ ∀ t ∈ handed, t + delayInSeconds ≤ deadline
  /-- No callback is lost, and each one has its own signal. -/
  counted : s.started + s.on = handed.length
  answers : handed.length + s.dispatching.toNat
    ≤ s.blocks.state.timers.countP fun timer => !timer.armed

variable {s s' : System τ} {handed handed' : List ℚ} {a : Action τ}

/-- The numbers of the timers, while there are fewer than `generation` can count. -/
theorem current_inj {q : QueueState} {es : List Event} {i j : ℕ} {timer timer' : Timer}
    (ht : Tracks delayInSeconds es q) (hfew : q.state.timers.length < 2 ^ 64)
    (hi : q.state.timers[i]? = some timer) (hj : q.state.timers[j]? = some timer')
    (heq : timer.current = timer'.current) : i = j := by
  obtain ⟨hilt, -⟩ := List.getElem?_eq_some_iff.mp hi
  obtain ⟨hjlt, -⟩ := List.getElem?_eq_some_iff.mp hj
  rw [ht.current i timer hi, ht.current j timer' hj, ofNat_inj_of_lt (by omega) (by omega)] at heq
  omega

omit [DecidableEq τ] in
/-- A signal gets its deadline from the present, and leaves no other timer the latest. -/
theorem Apart.onSignal {es : List Event} (h : Apart delayInSeconds s handed)
    (ht : Tracks delayInSeconds es s.blocks) (hfew : s.blocks.state.timers.length + 1 < 2 ^ 64)
    {ws : List Work} (hidle : s.dispatching = false) :
    Apart delayInSeconds { s with
      blocks := s.execute delayInSeconds .onSignal
      queue := ws
      dispatching := false } handed where
  spaced := h.spaced
  past := h.past
  ready := fun hd => absurd hd (by simp)
  later := by
    intro i timer deadline hi hdeadline hlatest
    refine ⟨rfl, fun t htmem => ?_⟩
    have hlengths : s.blocks.deadlines.length = s.blocks.state.timers.length :=
      ht.deadlines.trans ht.timers.symm
    simp only [System.execute, State.execute, State.onSignal] at hi hdeadline hlatest
    by_cases hold : i < s.blocks.state.timers.length
    · rw [List.getElem?_append_left hold] at hi
      have hgen := hlatest.2
      simp only [ht.current i timer hi, ht.generation] at hgen
      rw [show UInt64.ofNat (signals es) + 1 = UInt64.ofNat (signals es + 1) by
        rw [UInt64.ofNat_add]; rfl] at hgen
      have hsignals := ht.timers
      rw [ofNat_inj_of_lt (by omega) (by omega)] at hgen
      omega
    · have hlt := (List.getElem?_eq_some_iff.mp hdeadline).1
      simp only [List.length_append, List.length_singleton] at hlt
      obtain rfl : i = s.blocks.deadlines.length := by omega
      rw [List.getElem?_concat_length, Option.some.injEq] at hdeadline
      rw [← hdeadline]
      exact add_le_add_left (h.past t htmem) delayInSeconds
  counted := h.counted
  answers := by
    have hanswers := h.answers
    rw [hidle] at hanswers
    simpa [System.execute, State.execute, State.onSignal] using hanswers

omit [DecidableEq τ] in
/-- The handler of a timer that is due: it disarms the timer, and passes its check only if that is
the latest. -/
theorem Apart.onTimer {es : List Event} (h : Apart delayInSeconds s handed)
    (ht : Tracks delayInSeconds es s.blocks) (hfew : s.blocks.state.timers.length < 2 ^ 64)
    {ws : List Work} (hidle : s.dispatching = false) {i : ℕ}
    (hdue : s.blocks.due i s.clock = true) :
    Apart delayInSeconds { s with
      blocks := s.execute delayInSeconds (.onTimer i)
      queue := ws
      dispatching := (s.blocks.state.execute (.onTimer i)).2 } handed := by
  unfold QueueState.due at hdue
  split at hdue
  · rename_i timer deadline htimer hdeadline
    obtain ⟨harmed, hpassed⟩ : timer.armed = true ∧ deadline ≤ s.clock := by simpa using hdue
    have hstate : s.blocks.state.onTimer i
        = ({ s.blocks.state with
              timers := s.blocks.state.timers.set i { timer with armed := false } },
            !s.blocks.state.canceled && timer.current == s.blocks.state.generation) := by
      simp only [State.onTimer, htimer]
    have hlatest : (s.blocks.state.execute (.onTimer i)).2 = true → Latest s.blocks.state timer := by
      intro hpass
      simp only [State.execute, hstate, Bool.and_eq_true, beq_iff_eq] at hpass
      exact ⟨harmed, hpass.2⟩
    have hother : ∀ (j : ℕ) timer' deadline',
        (s.blocks.state.timers.set i { timer with armed := false })[j]? = some timer' →
        s.blocks.deadlines[j]? = some deadline' → Latest s.blocks.state timer' →
        (s.blocks.state.execute (.onTimer i)).2 = false
          ∧ ∀ t ∈ handed, t + delayInSeconds ≤ deadline' := by
      intro j timer' deadline' hj hdeadline' hlatest'
      by_cases hij : i = j
      · subst hij
        rw [List.getElem?_set_self (List.getElem?_eq_some_iff.mp htimer).1] at hj
        obtain rfl := Option.some.inj hj
        exact absurd hlatest'.1 (by simp)
      · rw [List.getElem?_set_ne hij] at hj
        refine ⟨?_, (h.later j timer' deadline' hj hdeadline' hlatest').2⟩
        -- two timers are not the latest both
        by_contra hpass
        rw [Bool.not_eq_false] at hpass
        exact hij (current_inj ht hfew htimer hj
          ((hlatest hpass).2.trans hlatest'.2.symm))
    exact {
      spaced := h.spaced
      past := h.past
      ready := by
        intro hpass t htmem
        have hfar := (h.later i timer deadline htimer hdeadline (hlatest hpass)).2 t htmem
        show delayInSeconds ≤ s.clock - t
        linarith
      later := by
        intro j timer' deadline' hj hdeadline' hlatest'
        simp only [System.execute, State.execute, hstate] at hj hlatest'
        exact hother j timer' deadline' hj hdeadline' hlatest'
      counted := h.counted
      answers := by
        have hanswers := h.answers
        obtain ⟨hlt, hget⟩ := List.getElem?_eq_some_iff.mp htimer
        have hone : ((s.blocks.state.execute (.onTimer i)).2).toNat ≤ 1 := Bool.toNat_le _
        have hpos : (s.blocks.state.timers.set i { timer with armed := false }).countP
            (fun timer => !timer.armed)
              = s.blocks.state.timers.countP (fun timer => !timer.armed) + 1 := by
          rw [List.countP_set hlt, hget]
          simp [harmed]
        rw [hidle] at hanswers
        simp only [System.execute, State.execute, hstate, hpos] at hone ⊢
        simp only [Bool.toNat_false, Nat.add_zero] at hanswers
        omega }
  · exact absurd hdue (by simp)

omit [DecidableEq τ] in
/-- The callback is handed over. -/
theorem Apart.dispatch (h : Apart delayInSeconds s handed) (hdispatching : s.dispatching = true) :
    Apart delayInSeconds { s with dispatching := false, on := s.on + 1 } (handed ++ [s.clock]) where
  spaced := by
    refine List.pairwise_append.mpr ⟨h.spaced, List.pairwise_singleton _ _, fun t ht x hx => ?_⟩
    obtain rfl := List.mem_singleton.mp hx
    exact h.ready hdispatching t ht
  past := by
    intro t ht
    rcases List.mem_append.mp ht with ht | ht
    · exact h.past t ht
    · exact le_of_eq (List.mem_singleton.mp ht)
  ready := fun hd => absurd hd (by simp)
  later := by
    intro i timer deadline hi hdeadline hlatest
    have hnot := (h.later i timer deadline hi hdeadline hlatest).1
    rw [hdispatching] at hnot
    exact absurd hnot (by simp)
  counted := by
    have hcounted := h.counted
    simp only [List.length_append, List.length_singleton]
    omega
  answers := by
    have hanswers := h.answers
    rw [hdispatching] at hanswers
    simpa using hanswers

/-- Nothing is run on the private queue before the callback has been handed over. -/
theorem idle_of_runQueue (hs : step delayInSeconds s .runQueue = some s') :
    s.dispatching = false := by
  cases hd : s.dispatching with
  | false => rfl
  | true => simp [step, hd] at hs

theorem nonneg_of_tick {d : ℚ} (hs : step delayInSeconds s (.tick d) = some s') : 0 ≤ d := by
  by_contra hneg
  simp [step, hneg] at hs

/-- Timers are never taken away. -/
theorem timers_le (hs : step delayInSeconds s a = some s') :
    s.blocks.state.timers.length ≤ s'.blocks.state.timers.length := by
  cases stepsTo_of_step hs with
  | @runQueue w ws hqueue =>
      cases w with
      | onSignal => simp [System.execute, State.execute, State.onSignal]
      | onCancel => exact Nat.le_refl _
      | onTimer i => exact Nat.le_of_eq (onTimer_frame s.blocks.state i).2.2.1.symm
  | _ => exact Nat.le_refl _

/-- **One step.** -/
theorem apart_step {es : List Event} (hwatch : watch delayInSeconds (s, handed) a = some (s', handed'))
    (hdue : HandlersDue s) (ht : Tracks delayInSeconds es s.blocks)
    (hfew : s'.blocks.state.timers.length < 2 ^ 64) (h : Apart delayInSeconds s handed) :
    Apart delayInSeconds s' handed' := by
  obtain ⟨s₁, hs, heq⟩ := Option.map_eq_some_iff.mp hwatch
  obtain ⟨rfl, rfl⟩ := Prod.mk.inj heq
  have hmore := timers_le hs
  cases stepsTo_of_step hs with
  | call _ _ | enqueue _ | ret _ | fire _ _ =>
      exact ⟨h.spaced, h.past, h.ready, h.later, h.counted, h.answers⟩
  | @tick d =>
      have hd := nonneg_of_tick hs
      refine ⟨h.spaced, fun t htmem => ?_, fun hdispatching t htmem => ?_, h.later, h.counted,
        h.answers⟩
      · have hpast := h.past t htmem
        show t ≤ s.clock + d
        linarith
      · have hready := h.ready hdispatching t htmem
        show delayInSeconds ≤ s.clock + d - t
        linarith
  | @runQueue w ws hqueue =>
      have hidle := idle_of_runQueue hs
      cases w with
      | onSignal =>
          refine h.onSignal ht ?_ hidle
          simpa [System.execute, State.execute, State.onSignal] using hfew
      | onCancel =>
          have hanswers := h.answers
          rw [hidle] at hanswers
          exact ⟨h.spaced, h.past, fun hd => absurd hd (by simp [State.execute]),
            fun i timer deadline hi hdeadline hlatest =>
              ⟨rfl, (h.later i timer deadline hi hdeadline hlatest).2⟩, h.counted, hanswers⟩
      | onTimer i =>
          exact h.onTimer ht (Nat.lt_of_le_of_lt hmore hfew) hidle
            (hdue.due i (by rw [hqueue]; exact List.mem_cons_self))
  | dispatch hd => exact h.dispatch hd
  | start hpos =>
      have hcounted := h.counted
      dsimp only at hcounted hpos ⊢
      exact ⟨h.spaced, h.past, h.ready, h.later, by dsimp only; omega, h.answers⟩

omit [DecidableEq τ] in
theorem apart_init (delayInSeconds : ℚ) : Apart delayInSeconds (System.init τ) [] where
  spaced := List.Pairwise.nil
  past := fun _ ht => absurd ht List.not_mem_nil
  ready := fun _ _ ht => absurd ht List.not_mem_nil
  later := fun i timer deadline hi _ _ => absurd hi (by simp [System.init, QueueState.init, State.init])
  counted := rfl
  answers := Nat.le_refl _

/-- Every watched run is a run, and keeps the callbacks apart. -/
theorem watch_run {as : List (Action τ)}
    (hrun : run (watch delayInSeconds) (System.init τ, []) as = some (s, handed)) :
    run (step delayInSeconds) (System.init τ) as = some s
      ∧ (s.blocks.state.timers.length < 2 ^ 64 → Apart delayInSeconds s handed) := by
  refine run_history
    (I := fun as (p : System τ × List ℚ) => run (step delayInSeconds) (System.init τ) as = some p.1
      ∧ (p.1.blocks.state.timers.length < 2 ^ 64 → Apart delayInSeconds p.1 p.2))
    ⟨rfl, fun _ => apart_init delayInSeconds⟩ ?_ hrun
  rintro as ⟨s₁, handed₁⟩ a ⟨s₂, handed₂⟩ ⟨hpart, hapart⟩ hwatch
  obtain ⟨s', hs, heq⟩ := Option.map_eq_some_iff.mp hwatch
  obtain ⟨rfl, -⟩ := Prod.mk.inj heq
  obtain ⟨hdue, hes⟩ := queue_history hpart
  refine ⟨run_snoc.mpr ⟨s₁, hpart, hs⟩, fun hfew => ?_⟩
  have hmore := timers_le hs
  exact apart_step hwatch hdue (tracks_run hes) hfew (hapart (Nat.lt_of_le_of_lt hmore hfew))

/-- **A debounce never calls back more often than once in its delay.** In every interleaving of
callers, timers and queues in which fewer than 2^64 signals are executed: the times at which the
callback is handed to `on` are at least the delay apart, so that a window of that length has at
most one; every callback handed over has started or waits on `on`; and there are no more of them
than executed signals whose timers have been delivered. -/
theorem callbacks_apart {as : List (Action τ)}
    (hrun : run (watch delayInSeconds) (System.init τ, []) as = some (s, handed))
    (hfew : s.blocks.state.timers.length < 2 ^ 64) :
    run (step delayInSeconds) (System.init τ) as = some s
    ∧ Spaced delayInSeconds handed
    ∧ (∀ a, (handed.filter fun t => a ≤ t ∧ t < a + delayInSeconds).length ≤ 1)
    ∧ s.started + s.on = handed.length
    ∧ handed.length ≤ s.blocks.state.timers.countP fun timer => !timer.armed := by
  obtain ⟨hplain, hapart⟩ := watch_run hrun
  have h := hapart hfew
  refine ⟨hplain, h.spaced, fun a => window_le_one h.spaced fun x y hx hy => ?_, h.counted,
    Nat.le_trans (Nat.le_add_right _ _) h.answers⟩
  simp only [decide_eq_true_eq] at hx hy
  linarith only [hy.2, hx.1]

/-- Two bursts, the second one signalled while the callback of the first is on its way. -/
theorem callbacks_apart_bursts :
    ∃ s, run (watch 1) (System.init (Fin 2), [])
        [.call 0 scheduleWorkSignal, .enqueue 0, .ret 0, .runQueue, .tick 1, .fire 0, .runQueue,
          .call 1 scheduleWorkSignal, .enqueue 1, .dispatch, .runQueue, .start, .tick 2, .fire 1,
          .runQueue, .dispatch] = some (s, [1, 3])
      ∧ s.started + s.on = 2
      ∧ ∀ a : ℚ, (([1, 3] : List ℚ).filter fun t => a ≤ t ∧ t < a + 1).length ≤ 1 := by
  obtain ⟨⟨s, handed⟩, hrun⟩ : ∃ p : System (Fin 2) × List ℚ, run (watch 1) (System.init (Fin 2), [])
        [.call 0 scheduleWorkSignal, .enqueue 0, .ret 0, .runQueue, .tick 1, .fire 0, .runQueue,
          .call 1 scheduleWorkSignal, .enqueue 1, .dispatch, .runQueue, .start, .tick 2, .fire 1,
          .runQueue, .dispatch] = some p := Option.isSome_iff_exists.mp (by decide +kernel)
  have hmap : (run (watch 1) (System.init (Fin 2), [])
        [.call 0 scheduleWorkSignal, .enqueue 0, .ret 0, .runQueue, .tick 1, .fire 0, .runQueue,
          .call 1 scheduleWorkSignal, .enqueue 1, .dispatch, .runQueue, .start, .tick 2, .fire 1,
          .runQueue, .dispatch]).map (fun p => (p.2, p.1.blocks.state.timers.length))
      = some ([1, 3], 2) := by decide +kernel
  rw [hrun] at hmap
  obtain ⟨rfl, hlength⟩ := Prod.mk.inj (Option.some.inj hmap)
  have hthm := callbacks_apart hrun (by dsimp only at hlength; omega)
  exact ⟨s, hrun, hthm.2.2.2.1, hthm.2.2.1⟩

end NPFoundation.Debounce
