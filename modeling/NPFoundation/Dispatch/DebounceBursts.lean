import NPFoundation.Dispatch.DebounceSpacing
import NPFoundation.Lib.Tally
import Mathlib.Data.Finset.Card

/-!
# A burst of signals is answered once

Signals that come less than the delay apart are a burst. Only the last one of a burst can be
answered: the timers of the others find a newer generation when they are delivered. And
the last one of all is answered, unless it was cancelled: left to itself, the system always
has something to do until its callback was started, and there is only so much to do.

Deadlines lie the delay after the signals they belong to, so they come in the same bursts.
-/

namespace NPFoundation.Debounce

open Transition Spacing Tally ScheduleCall

variable {τ : Type} {delayInSeconds : ℚ}

/-! ## What is left to do -/

def Action.isCall : Action τ → Bool
  | .call _ _ => true
  | _ => false

def Action.isTick : Action τ → Bool
  | .tick _ => true
  | _ => false

/-- Nothing happens any more unless somebody calls. -/
structure Settled (s : System τ) : Prop where
  queue : s.queue = []
  dispatching : s.dispatching = false
  on : s.on = 0
  timers : ∀ timer ∈ s.blocks.state.timers, timer.armed = false
  callers : ∀ t, s.callers t = .idle

/-- The steps that a block on the private queue leads to, its own included. -/
def Work.steps : Work → ℕ
  | .onSignal => 5
  | .onCancel => 1
  | .onTimer _ => 3

def Phase.steps : Phase → ℕ
  | .idle => 0
  | .calling c => c.work.steps + 2
  | .returning _ => 1

/-- The timers whose event is still to be delivered to the private queue. -/
def System.undelivered (s : System τ) : Finset ℕ :=
  (Finset.range s.blocks.state.timers.length).filter fun i =>
    s.blocks.state.timers[i]?.any (·.armed) = true ∧ .onTimer i ∉ s.queue

/-- The most steps that can be taken before somebody calls again. -/
def System.steps [Fintype τ] (s : System τ) : ℕ :=
  (s.queue.map Work.steps).sum + 4 * s.undelivered.card + 2 * s.dispatching.toNat + s.on
    + total Phase.steps s.callers

variable [DecidableEq τ] {s s' : System τ} {handed handed' : List ℚ} {a : Action τ}

/-! ## Each step is one less -/

omit [DecidableEq τ] in
theorem mem_undelivered {i : ℕ} : i ∈ s.undelivered ↔
    (∃ timer, s.blocks.state.timers[i]? = some timer ∧ timer.armed = true)
      ∧ .onTimer i ∉ s.queue := by
  rw [System.undelivered, Finset.mem_filter, Finset.mem_range, Option.any_eq_true]
  constructor
  · rintro ⟨-, ⟨timer, hi, harmed⟩, hqueue⟩
    exact ⟨⟨timer, hi, harmed⟩, hqueue⟩
  · rintro ⟨⟨timer, hi, harmed⟩, hqueue⟩
    exact ⟨(List.getElem?_eq_some_iff.mp hi).1, ⟨timer, hi, harmed⟩, hqueue⟩

omit [DecidableEq τ] in
/-- A timer that a block leaves armed was so before, or belongs to the block. -/
theorem armed_of_execute {w : Work} {i : ℕ} {timer : Timer}
    (hi : (s.execute delayInSeconds w).state.timers[i]? = some timer)
    (harmed : timer.armed = true) :
    (∃ timer', s.blocks.state.timers[i]? = some timer' ∧ timer'.armed = true ∧ w ≠ .onTimer i)
      ∨ (w = .onSignal ∧ i = s.blocks.state.timers.length) := by
  cases w with
  | onSignal =>
      simp only [System.execute, State.execute, State.onSignal] at hi
      by_cases hold : i < s.blocks.state.timers.length
      · rw [List.getElem?_append_left hold] at hi
        exact .inl ⟨timer, hi, harmed, by simp⟩
      · have hlt := (List.getElem?_eq_some_iff.mp hi).1
        simp only [List.length_append, List.length_singleton] at hlt
        exact .inr ⟨rfl, by omega⟩
  | onCancel => exact .inl ⟨timer, hi, harmed, by simp⟩
  | onTimer j =>
      simp only [System.execute, State.execute, State.onTimer] at hi
      split at hi
      · rename_i hnone
        refine .inl ⟨timer, hi, harmed, fun hij => ?_⟩
        rw [Work.onTimer.inj hij, hi] at hnone
        exact absurd hnone (by simp)
      · rename_i timer' hj
        by_cases hij : j = i
        · subst hij
          rw [List.getElem?_set_self (List.getElem?_eq_some_iff.mp hj).1] at hi
          obtain rfl := Option.some.inj hi
          exact absurd harmed (by simp)
        · rw [List.getElem?_set_ne hij] at hi
          exact .inl ⟨timer, hi, harmed, fun h => hij (Work.onTimer.inj h)⟩

omit [DecidableEq τ] in
/-- A block only brings the timer of its own signal. -/
theorem undelivered_execute {w : Work} {ws : List Work} (hqueue : s.queue = w :: ws)
    (hblocks : s'.blocks = s.execute delayInSeconds w) (hws : s'.queue = ws) :
    s'.undelivered.card ≤ s.undelivered.card + if w = .onSignal then 1 else 0 := by
  have hmem : ∀ i ∈ s'.undelivered,
      i ∈ s.undelivered ∨ (w = .onSignal ∧ i = s.blocks.state.timers.length) := by
    intro i hi
    obtain ⟨⟨timer, htimer, harmed⟩, hnot⟩ := mem_undelivered.mp hi
    rw [hblocks] at htimer
    rw [hws] at hnot
    rcases armed_of_execute htimer harmed with ⟨timer', hold, harmed', hne⟩ | hnew
    · refine .inl (mem_undelivered.mpr ⟨⟨timer', hold, harmed'⟩, ?_⟩)
      rw [hqueue, List.mem_cons, not_or]
      exact ⟨fun h => hne h.symm, hnot⟩
    · exact .inr hnew
  by_cases hw : w = .onSignal
  · rw [if_pos hw]
    refine Nat.le_trans (Finset.card_le_card fun i hi => ?_)
      (Finset.card_insert_le s.blocks.state.timers.length s.undelivered)
    rcases hmem i hi with h | ⟨-, rfl⟩
    · exact Finset.mem_insert_of_mem h
    · exact Finset.mem_insert_self _ _
  · rw [if_neg hw, Nat.add_zero]
    refine Finset.card_le_card fun i hi => ?_
    rcases hmem i hi with h | ⟨hsignal, -⟩
    · exact h
    · exact absurd hsignal hw

/-- **One step.** -/
theorem steps_step [Fintype τ] (hs : step delayInSeconds s a = some s') (ha : a.isCall = false) :
    s'.steps + (if a.isTick then 0 else 1) ≤ s.steps := by
  cases stepsTo_of_step hs with
  | call c _ => exact absurd ha (by simp [Action.isCall])
  | @enqueue t c hcalling =>
      have hcallers := total_update Phase.steps s.callers t (.returning c)
      have hsame : ({ s with
          callers := Function.update s.callers t (.returning c)
          queue := s.queue ++ [c.work] } : System τ).undelivered.card ≤ s.undelivered.card := by
        refine Finset.card_le_card fun i hi => ?_
        obtain ⟨harmed, hnot⟩ := mem_undelivered.mp hi
        exact mem_undelivered.mpr ⟨harmed, fun h => hnot (List.mem_append_left _ h)⟩
      simp only [hcalling, Phase.steps] at hcallers
      simp only [System.steps, List.map_append, List.sum_append, List.map_singleton,
        List.sum_singleton, Action.isTick, Bool.false_eq_true, if_false]
      omega
  | @ret t c hreturning =>
      have hcallers := total_update Phase.steps s.callers t .idle
      have hsame : ({ s with callers := Function.update s.callers t .idle } : System τ).undelivered
          = s.undelivered := rfl
      simp only [hreturning, Phase.steps] at hcallers
      simp only [System.steps, hsame, Action.isTick, Bool.false_eq_true, if_false]
      omega
  | tick => exact Nat.le_refl _
  | @fire i hdue hnot =>
      have hless : ({ s with queue := s.queue ++ [.onTimer i] } : System τ).undelivered.card
          < s.undelivered.card := by
        refine Finset.card_lt_card
          (Finset.ssubset_iff_subset_ne.mpr ⟨fun j hj => ?_, fun heq => ?_⟩)
        · obtain ⟨harmed, hnot'⟩ := mem_undelivered.mp hj
          exact mem_undelivered.mpr ⟨harmed, fun h => hnot' (List.mem_append_left _ h)⟩
        · have hi : i ∈ s.undelivered := mem_undelivered.mpr ⟨due_armed hdue, hnot⟩
          rw [← heq] at hi
          exact (mem_undelivered.mp hi).2 (List.mem_append_right _ List.mem_cons_self)
      simp only [System.steps, List.map_append, List.sum_append, List.map_singleton,
        List.sum_singleton, Work.steps, Action.isTick, Bool.false_eq_true, if_false]
      omega
  | @runQueue w ws hqueue =>
      have hidle := idle_of_runQueue hs
      have hless : ({ s with
          blocks := s.execute delayInSeconds w
          queue := ws
          dispatching := (s.blocks.state.execute w).2 } : System τ).undelivered.card
            ≤ s.undelivered.card + if w = .onSignal then 1 else 0 :=
        undelivered_execute hqueue rfl rfl
      have hpass : w = .onSignal ∨ w = .onCancel → (s.blocks.state.execute w).2 = false := by
        rintro (rfl | rfl) <;> rfl
      have hone := Bool.toNat_le (s.blocks.state.execute w).2
      simp only [System.steps, hqueue, List.map_cons, List.sum_cons, hidle, Bool.toNat_false,
        Action.isTick, Bool.false_eq_true, if_false]
      cases w with
      | onSignal =>
          rw [if_pos rfl] at hless
          simp only [hpass (.inl rfl), Bool.toNat_false, Work.steps] at hless ⊢
          omega
      | onCancel =>
          rw [if_neg (by simp)] at hless
          simp only [hpass (.inr rfl), Bool.toNat_false, Work.steps] at hless ⊢
          omega
      | onTimer i =>
          rw [if_neg (by simp)] at hless
          simp only [Work.steps]
          omega
  | dispatch hd =>
      have hsame : ({ s with dispatching := false, on := s.on + 1 } : System τ).undelivered
          = s.undelivered := rfl
      simp only [System.steps, hsame, hd, Bool.toNat_true, Bool.toNat_false, Action.isTick,
        Bool.false_eq_true, if_false]
      omega
  | start hpos =>
      have hsame : ({ s with on := s.on - 1, started := s.started + 1 } : System τ).undelivered
          = s.undelivered := rfl
      simp only [System.steps, hsame, Action.isTick, Bool.false_eq_true, if_false]
      omega

/-- Without calls there is an end to it. -/
theorem steps_run [Fintype τ] {bs : List (Action τ)} (hbs : ∀ a ∈ bs, a.isCall = false)
    (hrun : run (step delayInSeconds) s bs = some s') :
    s'.steps + bs.countP (fun a => !a.isTick) ≤ s.steps := by
  induction bs generalizing s with
  | nil =>
      obtain rfl := Option.some.inj hrun
      exact Nat.le_refl _
  | cons a bs ih =>
      obtain ⟨s₁, hs, hrest⟩ := run_cons_some.mp hrun
      have hfirst := steps_step hs (hbs a List.mem_cons_self)
      have hlater := ih (fun b hb => hbs b (List.mem_cons_of_mem a hb)) hrest
      rw [List.countP_cons]
      cases htick : a.isTick with
      | true =>
          simp only [htick, if_true, Bool.not_true, Bool.false_eq_true, if_false] at hfirst ⊢
          omega
      | false =>
          simp only [htick, Bool.false_eq_true, if_false, Bool.not_false, if_true] at hfirst ⊢
          omega

/-! ## There is always a next step -/

/-- Something is left to do, if need be after some waiting. -/
theorem exists_step {es : List Event} (ht : Tracks delayInSeconds es s.blocks)
    (hbusy : ¬ Settled s) :
    ∃ (d : ℚ) (a : Action τ) (s' : System τ), 0 ≤ d ∧ a.isCall = false ∧ a.isTick = false
      ∧ run (step delayInSeconds) s [.tick d, a] = some s' := by
  -- whatever can be done now can be done without waiting
  have hnow : ∀ {a : Action τ} {s' : System τ}, a.isCall = false → a.isTick = false →
      step delayInSeconds s a = some s' → ∃ (d : ℚ) (a : Action τ) (s' : System τ), 0 ≤ d
        ∧ a.isCall = false ∧ a.isTick = false
        ∧ run (step delayInSeconds) s [.tick d, a] = some s' := by
    intro a s' hcall htick hs
    refine ⟨0, a, s', le_refl 0, hcall, htick, run_cons_some.mpr ⟨s, ?_, run_cons_some.mpr
      ⟨s', hs, rfl⟩⟩⟩
    simp [step]
  cases hdispatching : s.dispatching with
  | true => exact hnow (a := .dispatch) rfl rfl (by simp [step, hdispatching]; rfl)
  | false =>
      cases hqueue : s.queue with
      | cons w ws => exact hnow (a := .runQueue) rfl rfl (by simp [step, hdispatching, hqueue]; rfl)
      | nil =>
          by_cases hon : s.on = 0
          · by_cases hcallers : ∀ t, s.callers t = .idle
            · obtain ⟨timer, hmem, harmed⟩ :
                  ∃ timer ∈ s.blocks.state.timers, timer.armed = true := by
                by_contra hnone
                refine hbusy ⟨hqueue, hdispatching, hon, fun timer hmem => ?_, hcallers⟩
                rw [← Bool.not_eq_true]
                exact fun harmed => hnone ⟨timer, hmem, harmed⟩
              obtain ⟨i, hi⟩ := List.mem_iff_getElem?.mp hmem
              have hlt : i < s.blocks.deadlines.length := by
                rw [ht.deadlines, ← ht.timers]
                exact (List.getElem?_eq_some_iff.mp hi).1
              have hwait : s.blocks.deadlines[i]
                  ≤ s.clock + max 0 (s.blocks.deadlines[i] - s.clock) := by
                have hle := le_max_right 0 (s.blocks.deadlines[i] - s.clock)
                linarith
              have hdue : s.blocks.due i (s.clock + max 0 (s.blocks.deadlines[i] - s.clock))
                  = true := by
                simp only [QueueState.due, hi, List.getElem?_eq_getElem hlt, harmed, hwait,
                  decide_true, Bool.and_self]
              refine ⟨_, .fire i, _, le_max_left 0 (s.blocks.deadlines[i] - s.clock), rfl, rfl,
                run_cons_some.mpr ⟨_, if_pos (le_max_left _ _), run_cons_some.mpr
                  ⟨_, if_pos ⟨hdue, ?_⟩, rfl⟩⟩⟩
              simp [hqueue]
            · obtain ⟨t, hcaller⟩ := not_forall.mp hcallers
              cases hphase : s.callers t with
              | idle => exact absurd hphase hcaller
              | calling c => exact hnow (a := .enqueue t) rfl rfl (by simp [step, hphase]; rfl)
              | returning c => exact hnow (a := .ret t) rfl rfl (by simp [step, hphase]; rfl)
          · exact hnow (a := .start) rfl rfl (by simp [step, Nat.pos_of_ne_zero hon]; rfl)

/-! ## One callback for a burst -/

/-- What the callbacks so far have to do with the signals. -/
structure Answered (delayInSeconds : ℚ) (s : System τ) (handed : List ℚ) : Prop where
  /-- A timer has been delivered no earlier than it was due. -/
  passed : ∀ (i : ℕ) timer deadline, s.blocks.state.timers[i]? = some timer →
    s.blocks.deadlines[i]? = some deadline → timer.armed = false → deadline ≤ s.clock
  /-- No burst has two callbacks, the one that the last timer may still bring included. -/
  counted : handed.length + s.dispatching.toNat
      + (if s.blocks.state.timers.getLast?.any (·.armed) = true then 1 else 0)
    ≤ bursts delayInSeconds none s.blocks.deadlines
  /-- The last signal has its callback once its timer was delivered, if it was not cancelled. -/
  last : s.blocks.state.canceled = false → ∀ timer deadline,
    s.blocks.state.timers.getLast? = some timer → s.blocks.deadlines.getLast? = some deadline →
    timer.armed = false →
      (s.dispatching = true ∧ deadline ≤ s.clock) ∨ ∃ t ∈ handed, deadline ≤ t

omit [DecidableEq τ] in
theorem answered_init (delayInSeconds : ℚ) : Answered delayInSeconds (System.init τ) [] where
  passed := fun i timer deadline hi _ _ => absurd hi (by simp [System.init, QueueState.init,
    State.init])
  counted := Nat.le_refl _
  last := fun _ timer deadline hi _ _ => absurd hi (by simp [System.init, QueueState.init,
    State.init])

omit [DecidableEq τ] in
/-- The check of a handler. -/
theorem onTimer_passes {es : List Event} {q : QueueState} {i : ℕ} {timer : Timer}
    (ht : Tracks delayInSeconds es q) (hfew : q.state.timers.length < 2 ^ 64)
    (hi : q.state.timers[i]? = some timer) :
    (q.state.onTimer i).2 = true ↔ q.state.canceled = false ∧ i + 1 = q.state.timers.length := by
  have hlt := (List.getElem?_eq_some_iff.mp hi).1
  simp only [State.onTimer, hi, ht.current i timer hi, ht.generation, Bool.and_eq_true,
    Bool.not_eq_true', beq_iff_eq]
  rw [← ht.timers, ofNat_inj_of_lt (by omega) hfew]

/-- The last timer, and its deadline. -/
theorem last_timer {es : List Event} {q : QueueState} {deadline : ℚ}
    (ht : Tracks delayInSeconds es q) (hdeadline : q.deadlines.getLast? = some deadline) :
    ∃ i timer, i + 1 = q.state.timers.length ∧ q.state.timers.getLast? = some timer
      ∧ q.state.timers[i]? = some timer ∧ q.deadlines[i]? = some deadline := by
  have hlengths : q.deadlines.length = q.state.timers.length := ht.deadlines.trans ht.timers.symm
  rw [List.getLast?_eq_getElem?, hlengths] at hdeadline
  have hlt := (List.getElem?_eq_some_iff.mp hdeadline).1
  have hlast : q.state.timers.length - 1 < q.state.timers.length := by omega
  refine ⟨q.state.timers.length - 1, q.state.timers[q.state.timers.length - 1], by omega, ?_,
    List.getElem?_eq_getElem hlast, hdeadline⟩
  rw [List.getLast?_eq_getElem?, List.getElem?_eq_getElem hlast]

omit [DecidableEq τ] in
/-- A signal after the last timer was delivered begins a new burst. -/
theorem Answered.onSignal {es : List Event} (h : Answered delayInSeconds s handed)
    (ht : Tracks delayInSeconds es s.blocks) (hidle : s.dispatching = false) {ws : List Work} :
    Answered delayInSeconds { s with
      blocks := s.execute delayInSeconds .onSignal
      queue := ws
      dispatching := false } handed where
  passed := by
    intro i timer deadline hi hdeadline harmed
    have hlengths : s.blocks.deadlines.length = s.blocks.state.timers.length :=
      ht.deadlines.trans ht.timers.symm
    simp only [System.execute, State.execute, State.onSignal] at hi hdeadline
    by_cases hold : i < s.blocks.state.timers.length
    · rw [List.getElem?_append_left hold] at hi
      rw [List.getElem?_append_left (by omega)] at hdeadline
      exact h.passed i timer deadline hi hdeadline harmed
    · have hlt := (List.getElem?_eq_some_iff.mp hi).1
      simp only [List.length_append, List.length_singleton] at hlt
      obtain rfl : i = s.blocks.state.timers.length := by omega
      rw [List.getElem?_concat_length, Option.some.injEq] at hi
      rw [← hi] at harmed
      exact absurd harmed (by simp)
  counted := by
    have hcounted := h.counted
    rw [hidle] at hcounted
    simp only [System.execute, State.execute, State.onSignal, List.getLast?_concat,
      Option.any_some, if_true, bursts_concat, Bool.toNat_false, Option.or_none] at hcounted ⊢
    by_cases harmed : s.blocks.state.timers.getLast?.any (·.armed) = true
    · rw [if_pos harmed] at hcounted
      omega
    · rw [if_neg harmed] at hcounted
      have hclear :
          Clear delayInSeconds s.blocks.deadlines.getLast? (s.clock + delayInSeconds) := by
        cases hdeadline : s.blocks.deadlines.getLast? with
        | none => trivial
        | some deadline =>
            obtain ⟨i, timer, -, hlast, hi, hdeadline'⟩ := last_timer ht hdeadline
            rw [hlast, Option.any_some, Bool.not_eq_true] at harmed
            have hpassed := h.passed i timer deadline hi hdeadline' harmed
            show delayInSeconds ≤ s.clock + delayInSeconds - deadline
            linarith
      rw [if_pos hclear]
      omega
  last := by
    intro _ timer deadline hi _ harmed
    simp only [System.execute, State.execute, State.onSignal, List.getLast?_concat,
      Option.some.injEq] at hi
    rw [← hi] at harmed
    exact absurd harmed (by simp)

omit [DecidableEq τ] in
/-- A timer is delivered: if it is the last one, it has the callback handed over. -/
theorem Answered.onTimer {es : List Event} (h : Answered delayInSeconds s handed)
    (ht : Tracks delayInSeconds es s.blocks) (hfew : s.blocks.state.timers.length < 2 ^ 64)
    (hidle : s.dispatching = false) {i : ℕ} (hdue : s.blocks.due i s.clock = true)
    {ws : List Work} :
    Answered delayInSeconds { s with
      blocks := s.execute delayInSeconds (.onTimer i)
      queue := ws
      dispatching := (s.blocks.state.execute (.onTimer i)).2 } handed := by
  unfold QueueState.due at hdue
  split at hdue
  · rename_i timer deadline hi hdeadline
    obtain ⟨harmed, hpassed⟩ : timer.armed = true ∧ deadline ≤ s.clock := by simpa using hdue
    have hpasses := onTimer_passes ht hfew hi
    have htimers : (s.blocks.state.onTimer i).1.timers
        = s.blocks.state.timers.set i { timer with armed := false } := by
      simp only [State.onTimer, hi]
    have hframe := onTimer_frame s.blocks.state i
    have hlt := (List.getElem?_eq_some_iff.mp hi).1
    have hlast : i + 1 = s.blocks.state.timers.length →
        s.blocks.state.timers.getLast? = some timer
          ∧ (s.blocks.state.timers.set i { timer with armed := false }).getLast?
            = some { timer with armed := false } := by
      intro hi'
      rw [List.getLast?_eq_getElem?, List.getLast?_eq_getElem?, List.length_set, ← hi',
        Nat.add_sub_cancel, List.getElem?_set_self hlt]
      exact ⟨hi, rfl⟩
    have hother : i + 1 ≠ s.blocks.state.timers.length →
        (s.blocks.state.timers.set i { timer with armed := false }).getLast?
          = s.blocks.state.timers.getLast? := by
      intro hi'
      rw [List.getLast?_eq_getElem?, List.getLast?_eq_getElem?, List.length_set,
        List.getElem?_set_ne (by omega)]
    refine ⟨fun j timer' deadline' hj hdeadline' harmed' => ?_, ?_,
      fun hcanceled timer' deadline' hj hdeadline' harmed' => ?_⟩
    · simp only [System.execute, State.execute, htimers] at hj hdeadline'
      by_cases hij : i = j
      · subst hij
        rw [hdeadline, Option.some.injEq] at hdeadline'
        rw [← hdeadline']
        exact hpassed
      · rw [List.getElem?_set_ne hij] at hj
        exact h.passed j timer' deadline' hj hdeadline' harmed'
    · have hcounted := h.counted
      have hone := Bool.toNat_le (s.blocks.state.onTimer i).2
      simp only [hidle, Bool.toNat_false, Nat.add_zero] at hcounted
      simp only [System.execute, State.execute, htimers]
      by_cases hi' : i + 1 = s.blocks.state.timers.length
      · rw [(hlast hi').1, Option.any_some, if_pos harmed] at hcounted
        rw [(hlast hi').2, Option.any_some, if_neg (by simp)]
        omega
      · have hnot : (s.blocks.state.onTimer i).2 = false := by
          rw [← Bool.not_eq_true, hpasses]
          exact fun h => hi' h.2
        rw [hother hi', hnot]
        exact hcounted
    · simp only [System.execute, State.execute, htimers] at hj hdeadline' hcanceled
      by_cases hi' : i + 1 = s.blocks.state.timers.length
      · refine .inl ⟨hpasses.mpr ⟨hframe.1 ▸ hcanceled, hi'⟩, ?_⟩
        have hlengths : s.blocks.deadlines.length = s.blocks.state.timers.length :=
          ht.deadlines.trans ht.timers.symm
        rw [List.getLast?_eq_getElem?, hlengths, ← hi', Nat.add_sub_cancel, hdeadline,
          Option.some.injEq] at hdeadline'
        rw [← hdeadline']
        exact hpassed
      · rw [hother hi'] at hj
        rcases h.last (hframe.1 ▸ hcanceled) timer' deadline' hj hdeadline' harmed' with
          hnow | hdone
        · rw [hidle] at hnow
          exact absurd hnow.1 (by simp)
        · exact .inr hdone
  · exact absurd hdue (by simp)

/-- **One step.** -/
theorem answered_step {es : List Event}
    (hwatch : watch delayInSeconds (s, handed) a = some (s', handed'))
    (hdue : HandlersDue s) (ht : Tracks delayInSeconds es s.blocks)
    (hfew : s'.blocks.state.timers.length < 2 ^ 64) (h : Answered delayInSeconds s handed) :
    Answered delayInSeconds s' handed' := by
  obtain ⟨s₁, hs, heq⟩ := Option.map_eq_some_iff.mp hwatch
  obtain ⟨rfl, rfl⟩ := Prod.mk.inj heq
  have hmore := timers_le hs
  cases stepsTo_of_step hs with
  | call _ _ | enqueue _ | ret _ | fire _ _ | start _ => exact ⟨h.passed, h.counted, h.last⟩
  | @tick d =>
      have hd := nonneg_of_tick hs
      refine ⟨fun i timer deadline hi hdeadline harmed => ?_, h.counted,
        fun hcanceled timer deadline hi hdeadline harmed => ?_⟩
      · have hpassed := h.passed i timer deadline hi hdeadline harmed
        show deadline ≤ s.clock + d
        linarith
      · rcases h.last hcanceled timer deadline hi hdeadline harmed with ⟨hdispatching, hle⟩ | hdone
        · refine .inl ⟨hdispatching, ?_⟩
          show deadline ≤ s.clock + d
          linarith
        · exact .inr hdone
  | @runQueue w ws hqueue =>
      have hidle := idle_of_runQueue hs
      cases w with
      | onSignal => exact h.onSignal ht hidle
      | onCancel =>
          have hcounted := h.counted
          rw [hidle] at hcounted
          exact ⟨h.passed, hcounted, fun hcanceled => absurd hcanceled (by
            simp [System.execute, State.execute, State.onCancel])⟩
      | onTimer i =>
          exact h.onTimer ht (Nat.lt_of_le_of_lt hmore hfew) hidle
            (hdue.due i (by rw [hqueue]; exact List.mem_cons_self))
  | dispatch hd =>
      refine ⟨h.passed, ?_, fun hcanceled timer deadline hi hdeadline harmed => ?_⟩
      · have hcounted := h.counted
        rw [hd, Bool.toNat_true] at hcounted
        simp only [List.length_append, List.length_singleton, Bool.toNat_false, Nat.add_zero]
        exact hcounted
      · rcases h.last hcanceled timer deadline hi hdeadline harmed with ⟨-, hle⟩ | ⟨t, ht, hle⟩
        · exact .inr ⟨s.clock, List.mem_append_right _ List.mem_cons_self, hle⟩
        · exact .inr ⟨t, List.mem_append_left _ ht, hle⟩

theorem answered_run {as : List (Action τ)}
    (hrun : run (watch delayInSeconds) (System.init τ, []) as = some (s, handed))
    (hfew : s.blocks.state.timers.length < 2 ^ 64) : Answered delayInSeconds s handed := by
  refine (run_history
    (I := fun as (p : System τ × List ℚ) =>
      run (watch delayInSeconds) (System.init τ, []) as = some p
        ∧ (p.1.blocks.state.timers.length < 2 ^ 64 → Answered delayInSeconds p.1 p.2))
    ⟨rfl, fun _ => answered_init delayInSeconds⟩ ?_ hrun).2 hfew
  rintro as ⟨s₁, handed₁⟩ a ⟨s₂, handed₂⟩ ⟨hpart, hanswered⟩ hwatch
  obtain ⟨hdue, hes⟩ := queue_history (watch_run hpart).1
  obtain ⟨s', hs, heq⟩ := Option.map_eq_some_iff.mp hwatch
  obtain ⟨rfl, -⟩ := Prod.mk.inj heq
  refine ⟨run_snoc.mpr ⟨(s₁, handed₁), hpart, hwatch⟩, fun hfew => ?_⟩
  exact answered_step hwatch hdue (tracks_run hes) hfew
    (hanswered (Nat.lt_of_le_of_lt (timers_le hs) hfew))

/-! ## The signals of a run -/

/-- When the signals of a history were executed. -/
def signalTimes (es : List Event) : List ℚ :=
  (es.filter fun e => e.work == .onSignal).map Event.now

/-- Each deadline lies the delay after its signal. -/
theorem deadlines_eq {es : List Event} {q : QueueState}
    (h : run (queueStep delayInSeconds) QueueState.init es = some q) :
    q.deadlines = (signalTimes es).map (· + delayInSeconds) := by
  refine run_history (I := fun es q => q.deadlines = (signalTimes es).map (· + delayInSeconds))
    rfl ?_ h
  rintro es q ⟨work, now⟩ q' hdeadlines hs
  rw [signalTimes, List.filter_append, List.map_append, List.map_append, ← signalTimes,
    ← hdeadlines]
  cases work with
  | onSignal =>
      obtain rfl := Option.some.inj hs
      rfl
  | onCancel =>
      obtain rfl := Option.some.inj hs
      exact (List.append_nil q.deadlines).symm
  | onTimer i =>
      obtain ⟨-, rfl⟩ := due_of_step hs
      exact (List.append_nil q.deadlines).symm

/-- The last signal of a history, when no cancel came after it. -/
theorem last_signal {before after : List Event} {now : ℚ} {q : QueueState}
    (hrun : run (queueStep delayInSeconds) QueueState.init (before ++ ⟨.onSignal, now⟩ :: after)
      = some q) (hafter : ∀ e ∈ after, e.work ≠ .onSignal ∧ e.work ≠ .onCancel) :
    q.state.canceled = false ∧ q.deadlines.getLast? = some (now + delayInSeconds) := by
  have hundisturbed : Undisturbed (before ++ ⟨.onSignal, now⟩ :: after) (signals before) :=
    ⟨before, now, after, rfl, rfl, hafter⟩
  refine ⟨(((tracks_run hrun).canceled _).mpr hundisturbed).1, ?_⟩
  have hnone : after.filter (fun e => e.work == .onSignal) = [] :=
    List.filter_eq_nil_iff.mpr fun e he => by simpa using (hafter e he).1
  rw [deadlines_eq hrun, signalTimes, List.filter_append,
    List.filter_cons_of_pos (p := fun e : Event => e.work == .onSignal) rfl, hnone]
  simp

/-- **A burst of signals is answered once.** In every interleaving in which fewer than 2^64
signals are executed, no more callbacks are handed over than the signals come in bursts, a burst
being signals executed less than the delay apart, and the callback about to be handed over
counts as one. A system nobody calls any more always has a next step, if need be after some
waiting, until it is settled, and no order of steps puts that off for longer than `System.steps`.
When it is settled, every callback handed over has started; and if no cancel was executed after
the last signal, one of them came no earlier than the delay after that signal. -/
theorem bursts_answered_once [Fintype τ] {as : List (Action τ)}
    (hrun : run (watch delayInSeconds) (System.init τ, []) as = some (s, handed))
    (hfew : signals (executed delayInSeconds as) < 2 ^ 64) :
    handed.length + s.dispatching.toNat
      ≤ bursts delayInSeconds none (signalTimes (executed delayInSeconds as))
    ∧ (¬ Settled s → ∃ (d : ℚ) (a : Action τ) (s' : System τ), 0 ≤ d ∧ a.isCall = false
      ∧ a.isTick = false ∧ run (step delayInSeconds) s [.tick d, a] = some s')
    ∧ (∀ (bs : List (Action τ)) s', (∀ a ∈ bs, a.isCall = false) →
      run (step delayInSeconds) s bs = some s' → bs.countP (fun a => !a.isTick) ≤ s.steps)
    ∧ (Settled s → s.started = handed.length
      ∧ ∀ before now after,
        executed delayInSeconds as = before ++ ⟨.onSignal, now⟩ :: after →
        (∀ e ∈ after, e.work ≠ .onSignal ∧ e.work ≠ .onCancel) →
        ∃ t ∈ handed, now + delayInSeconds ≤ t) := by
  obtain ⟨hplain, hapart⟩ := watch_run hrun
  obtain ⟨-, hes⟩ := queue_history hplain
  have ht := tracks_run hes
  rw [← ht.timers] at hfew
  have h := answered_run hrun hfew
  refine ⟨?_, exists_step ht, fun bs s' hbs hrest => ?_, fun hsettled => ⟨?_, ?_⟩⟩
  · have hcounted := h.counted
    have hshift : bursts delayInSeconds none s.blocks.deadlines
        = bursts delayInSeconds none (signalTimes (executed delayInSeconds as)) := by
      rw [deadlines_eq hes]
      exact bursts_add delayInSeconds delayInSeconds none _
    omega
  · have hless := steps_run hbs hrest
    omega
  · have hcounted := (hapart hfew).counted
    rw [hsettled.on] at hcounted
    exact hcounted
  · intro before now after hhistory hafter
    obtain ⟨hcanceled, hdeadline⟩ := last_signal (hhistory ▸ hes) hafter
    obtain ⟨i, timer, -, hlast, hi, -⟩ := last_timer ht hdeadline
    have hdelivered := hsettled.timers timer (List.mem_of_getElem? hi)
    rcases h.last hcanceled timer _ hlast hdeadline hdelivered with ⟨hnow, -⟩ | hdone
    · rw [hsettled.dispatching] at hnow
      exact absurd hnow (by simp)
    · exact hdone

/-- Two signals, the second one before the timer of the first is due. -/
def twoSignals (t : τ) : List (Action τ) :=
  [.call t scheduleWorkSignal, .enqueue t, .ret t, .runQueue, .tick (1 / 2),
    .call t scheduleWorkSignal, .enqueue t, .ret t, .runQueue, .tick 1, .fire 0, .runQueue, .fire 1,
    .runQueue, .dispatch, .start]

theorem bursts_answered_once_two :
    ∃ s, run (watch 1) (System.init Unit, []) (twoSignals ()) = some (s, [3 / 2])
      ∧ 1 + s.dispatching.toNat ≤ bursts (1 : ℚ) none [0, 1 / 2]
      ∧ s.started = 1 ∧ ∃ t ∈ ([3 / 2] : List ℚ), 1 / 2 + 1 ≤ t := by
  obtain ⟨⟨s, handed⟩, hrun⟩ : ∃ p : System Unit × List ℚ,
      run (watch 1) (System.init Unit, []) (twoSignals ()) = some p :=
    Option.isSome_iff_exists.mp (by decide +kernel)
  have hmap : (run (watch 1) (System.init Unit, []) (twoSignals ())).map (fun p =>
        (p.2, p.1.blocks.state.timers.map Timer.armed))
      = some ([3 / 2], [false, false]) := by decide +kernel
  have hrest : (run (watch 1) (System.init Unit, []) (twoSignals ())).map (fun p =>
        (p.1.queue, p.1.dispatching, p.1.on, p.1.callers ()))
      = some ([], false, 0, .idle) := by decide +kernel
  have hhistory : executed 1 (twoSignals ())
      = [⟨.onSignal, 0⟩, ⟨.onSignal, 1 / 2⟩, ⟨.onTimer 0, 3 / 2⟩, ⟨.onTimer 1, 3 / 2⟩] := by
    decide +kernel
  rw [hrun, Option.map_some, Option.some.injEq] at hmap hrest
  obtain ⟨rfl, harmed⟩ := by simpa only [Prod.mk.injEq] using hmap
  obtain ⟨hqueue, hdispatching, hon, hcaller⟩ := by simpa only [Prod.mk.injEq] using hrest
  have hsettled : Settled s := by
    refine ⟨hqueue, hdispatching, hon, fun timer hmem => ?_, fun _ => hcaller⟩
    have hold : timer.armed ∈ [false, false] := harmed ▸ List.mem_map_of_mem hmem
    simpa using hold
  obtain ⟨hcounted, -, -, hlast⟩ := bursts_answered_once hrun (by rw [hhistory]; decide)
  obtain ⟨hstarted, hanswer⟩ := hlast hsettled
  rw [hhistory] at hcounted
  refine ⟨s, hrun, hcounted, hstarted, ?_⟩
  exact hanswer [⟨.onSignal, 0⟩] (1 / 2) [⟨.onTimer 0, 3 / 2⟩, ⟨.onTimer 1, 3 / 2⟩] hhistory
    (by decide)

end NPFoundation.Debounce
