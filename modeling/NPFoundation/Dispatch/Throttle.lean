import NPFoundation.Lib.Spacing
import Mathlib.Algebra.Order.Ring.Rat
import Mathlib.Tactic.Linarith

/-!
# `NPDispatchScheduleThrottle`: at most one callback per window

A throttle remembers one timestamp, that of the last signal whose callback it dispatched.
`onSignal` runs on the throttle's own serial queue, so signals are executed one after the
other, each at the time the monotonic clock shows then. Cancelling runs an empty block.

One timestamp is enough: what the throttle dispatches is the greedy choice of points that
are `delayInSeconds` apart, and that choice is the largest there is.
-/

namespace NPFoundation.Throttle

open Spacing

/-- The variables the block captures. -/
structure State where
  hasFired : Bool
  previous : ℚ
  deriving DecidableEq

def State.init : State := { hasFired := false, previous := 0 }

/-- The `onSignal` block at a timestamp: the new state, and whether the callback is dispatched. -/
def State.onSignal (delayInSeconds : ℚ) (s : State) (timestamp : ℚ) : State × Bool :=
  if !s.hasFired || timestamp - s.previous ≥ delayInSeconds then
    ({ hasFired := true, previous := timestamp }, true)
  else (s, false)

/-- What a client does with the handle, in the order in which it takes effect. -/
inductive Event where
  /-- A signal, executed on the private queue at this time. -/
  | signal (timestamp : ℚ)
  | cancel
  deriving DecidableEq

/-- `NPScheduleWorkSignal` and `NPScheduleWorkCancel` of a throttle: the new state, and the time
of the dispatch if there is one. -/
def State.execute (delayInSeconds : ℚ) (s : State) : Event → State × Option ℚ
  | .signal timestamp =>
      let fired := s.onSignal delayInSeconds timestamp
      (fired.1, if fired.2 then some timestamp else none)
  | .cancel => (s, none)

/-- The state after some events. -/
def State.after (delayInSeconds : ℚ) (s : State) (events : List Event) : State :=
  events.foldl (fun s e => (s.execute delayInSeconds e).1) s

/-- The times of the dispatches, from state `s` on. -/
def State.dispatches (delayInSeconds : ℚ) : State → List Event → List ℚ
  | _, [] => []
  | s, e :: events =>
      (s.execute delayInSeconds e).2.toList
        ++ State.dispatches delayInSeconds (s.execute delayInSeconds e).1 events

/-- The times at which signals are executed. -/
def timestamps : List Event → List ℚ
  | [] => []
  | .signal timestamp :: events => timestamp :: timestamps events
  | .cancel :: events => timestamps events

/-! ## The throttle is greedy -/

variable {d : ℚ} {s : State} {events : List Event}

/-- The last dispatch, as the state remembers it. -/
def State.last (s : State) : Option ℚ := if s.hasFired then some s.previous else none

theorem onSignal_clear {timestamp : ℚ} (h : Clear d s.last timestamp) :
    s.onSignal d timestamp = ({ hasFired := true, previous := timestamp }, true) := by
  unfold State.onSignal
  unfold State.last at h
  cases hfired : s.hasFired with
  | false => simp
  | true =>
      rw [hfired] at h
      have hfar : d ≤ timestamp - s.previous := h
      simp [hfar]

theorem onSignal_dropped {timestamp : ℚ} (h : ¬ Clear d s.last timestamp) :
    s.onSignal d timestamp = (s, false) := by
  unfold State.onSignal
  unfold State.last at h
  cases hfired : s.hasFired with
  | false =>
      rw [hfired] at h
      exact absurd trivial h
  | true =>
      rw [hfired] at h
      have hnear : ¬ d ≤ timestamp - s.previous := h
      simp [hnear]

/-- **The greedy choice.** -/
theorem dispatches_eq_keep (d : ℚ) (s : State) (events : List Event) :
    s.dispatches d events = keep d s.last (timestamps events) := by
  induction events generalizing s with
  | nil => rfl
  | cons e events ih =>
      cases e with
      | cancel => exact ih s
      | signal timestamp =>
          by_cases h : Clear d s.last timestamp
          · rw [timestamps, keep_cons_clear h, State.dispatches, State.execute, onSignal_clear h]
            exact congrArg (timestamp :: ·) (ih _)
          · rw [timestamps, keep_cons_dropped h, State.dispatches, State.execute, onSignal_dropped h]
            exact ih s

/-- What the state remembers was dispatched since, or was remembered before. -/
theorem last_after {last : ℚ} (h : (s.after d events).last = some last) :
    last ∈ s.dispatches d events ∨ s.last = some last := by
  induction events generalizing s with
  | nil => exact .inr h
  | cons e events ih =>
      rcases ih h with hlater | hbefore
      · exact .inl (List.mem_append_right _ hlater)
      · cases e with
        | cancel => exact .inr hbefore
        | signal timestamp =>
            by_cases hclear : Clear d s.last timestamp
            · refine .inl (List.mem_append_left _ ?_)
              simp only [State.execute, onSignal_clear hclear] at hbefore ⊢
              exact Option.mem_toList.mpr hbefore
            · simp only [State.execute, onSignal_dropped hclear] at hbefore
              exact .inr hbefore

theorem dispatches_subset : State.init.dispatches d events ⊆ timestamps events := by
  rw [dispatches_eq_keep]
  exact (keep_sublist d _ _).subset

theorem timestamps_append (before after : List Event) :
    timestamps (before ++ after) = timestamps before ++ timestamps after := by
  induction before with
  | nil => rfl
  | cons e before ih =>
      cases e with
      | cancel => exact ih
      | signal timestamp => exact congrArg (timestamp :: ·) ih

/-- A signal that is dropped comes too soon after a dispatch. -/
theorem dropped_after_dispatch {before after : List Event} {timestamp : ℚ}
    (hsorted : (timestamps (before ++ .signal timestamp :: after)).Pairwise (· ≤ ·))
    (hdropped : ((State.init.after d before).onSignal d timestamp).2 = false) :
    ∃ t ∈ State.init.dispatches d before, timestamp - d < t ∧ t ≤ timestamp := by
  have hnear : ¬ Clear d (State.init.after d before).last timestamp := by
    intro hclear
    rw [onSignal_clear hclear] at hdropped
    exact absurd hdropped (by simp)
  cases hlast : (State.init.after d before).last with
  | none =>
      rw [hlast] at hnear
      exact absurd trivial hnear
  | some t =>
      rw [hlast] at hnear
      rcases last_after hlast with hmem | hinit
      · refine ⟨t, hmem, ?_, ?_⟩
        · have hlt : timestamp - t < d := not_le.mp hnear
          exact sub_lt_comm.mp hlt
        · -- the clock does not go back
          rw [timestamps_append] at hsorted
          exact (List.pairwise_append.mp hsorted).2.2 t (dispatches_subset hmem) timestamp
            List.mem_cons_self
      · exact absurd hinit (by simp [State.last, State.init])

/-- **What a throttle owes its clients.** For every delay and every sequence of signals and
cancels executed at times that do not decrease: dispatches are at least the delay apart, so a
window of that length has at most one; the first signal is dispatched; a signal is dropped only
if a dispatch happened less than the delay before it, or at the same time; no choice of the
signals that far apart is larger; and cancels make no difference. -/
theorem throttle_keeps_apart (d : ℚ) (events : List Event)
    (hsorted : (timestamps events).Pairwise (· ≤ ·)) :
    Spaced d (State.init.dispatches d events)
    ∧ (0 < d → ∀ a,
        ((State.init.dispatches d events).filter fun t => a ≤ t ∧ t < a + d).length ≤ 1
        ∧ ((State.init.dispatches d events).filter fun t => a < t ∧ t ≤ a + d).length ≤ 1)
    ∧ (∀ t rest, timestamps events = t :: rest →
        ∃ later, State.init.dispatches d events = t :: later)
    ∧ (∀ before t after, events = before ++ .signal t :: after →
        ((State.init.after d before).onSignal d t).2 = false →
        ∃ t' ∈ State.init.dispatches d before, t - d < t' ∧ t' ≤ t)
    ∧ IsGreatest {n | ∃ chosen : List ℚ, chosen.Sublist (timestamps events) ∧ Spaced d chosen
          ∧ chosen.length = n} (State.init.dispatches d events).length
    ∧ ∀ events', timestamps events' = timestamps events →
        State.init.dispatches d events' = State.init.dispatches d events := by
  have hkeep : State.init.dispatches d events = keep d none (timestamps events) :=
    dispatches_eq_keep d State.init events
  have hspaced : Spaced d (State.init.dispatches d events) := by
    rw [hkeep]
    exact keep_spaced hsorted
  refine ⟨hspaced, fun _ a => ⟨window_le_one hspaced ?_, window_le_one hspaced ?_⟩,
    fun t rest heq => ?_, ?_, ?_, fun events' heq => ?_⟩
  · intro x y hx hy
    simp only [decide_eq_true_eq] at hx hy
    linarith only [hy.2, hx.1]
  · intro x y hx hy
    simp only [decide_eq_true_eq] at hx hy
    linarith only [hy.2, hx.1]
  · rw [hkeep, heq]
    exact ⟨_, keep_cons_clear trivial⟩
  · rintro before t after rfl hdropped
    exact dropped_after_dispatch hsorted hdropped
  · rw [hkeep]
    exact keep_greatest hsorted
  · rw [hkeep, dispatches_eq_keep, heq]
    rfl

/-- A burst, a signal exactly at the end of the window, and a cancel in between. -/
theorem throttle_keeps_apart_burst :
    Spaced 2 (State.init.dispatches 2
      [.signal 5, .signal 5, .signal 6, .cancel, .signal 7, .signal 8])
    ∧ State.init.dispatches 2 [.signal 5, .signal 5, .signal 6, .cancel, .signal 7, .signal 8]
      = [5, 7] :=
  ⟨(throttle_keeps_apart 2 [.signal 5, .signal 5, .signal 6, .cancel, .signal 7, .signal 8]
    (by decide +kernel)).1, by decide +kernel⟩

end NPFoundation.Throttle
