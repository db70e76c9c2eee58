import NPFoundation.Dispatch.Debounce
import Mathlib.Tactic.Linarith

/-!
# A debounce fires exactly for an undisturbed last signal

The handler of a timer decides on two variables, `canceled` and `generation`. The
invariant `Tracks` says what they mean in terms of the history: `generation` counts
the executed signals, a timer's `current` is the number of its own signal, and
`canceled` is clear exactly while nothing but handlers has run since the last signal.
A handler's check is therefore a statement about the history, `Undisturbed`, and
everything else the debounce promises is read off from that.
-/

namespace NPFoundation.Debounce

open Transition

/-! ## Histories -/

/-- How many signals a history executes. -/
def signals (es : List Event) : Nat := es.countP (fun e => e.work == .onSignal)

/-- The `i`-th executed signal is followed by no other signal and by no cancel. -/
def Undisturbed (es : List Event) (i : Nat) : Prop :=
  ∃ pre now post, es = pre ++ ⟨.onSignal, now⟩ :: post ∧ signals pre = i
    ∧ ∀ e ∈ post, e.work ≠ .onSignal ∧ e.work ≠ .onCancel

theorem signals_append (es fs : List Event) : signals (es ++ fs) = signals es + signals fs :=
  List.countP_append

theorem signals_cons_signal (now : ℚ) (es : List Event) :
    signals (⟨.onSignal, now⟩ :: es) = signals es + 1 := by simp [signals]

theorem signals_eq_zero {es : List Event} (h : ∀ e ∈ es, e.work ≠ .onSignal) :
    signals es = 0 := by
  simpa [signals, List.countP_eq_zero] using h

/-- A history determines where its `i`-th signal is. -/
theorem signal_unique {pre pre' post post' : List Event} {now now' : ℚ}
    (h : pre ++ ⟨.onSignal, now⟩ :: post = pre' ++ ⟨.onSignal, now'⟩ :: post')
    (hn : signals pre = signals pre') : pre = pre' ∧ now = now' ∧ post = post' := by
  induction pre generalizing pre' with
  | nil =>
      cases pre' with
      | nil => simpa using h
      | cons e pre' =>
          obtain ⟨rfl, -⟩ := List.cons.inj h
          rw [signals_cons_signal] at hn
          exact absurd hn (by simp [signals])
  | cons e pre ih =>
      cases pre' with
      | nil =>
          obtain ⟨rfl, -⟩ := List.cons.inj h
          rw [signals_cons_signal] at hn
          exact absurd hn (by simp [signals])
      | cons e' pre' =>
          obtain ⟨rfl, hrest⟩ := List.cons.inj h
          have hn' : signals pre = signals pre' := by
            simp only [signals, List.countP_cons] at hn
            simp only [signals]; omega
          obtain ⟨rfl, h2, h3⟩ := ih hrest hn'
          exact ⟨rfl, h2, h3⟩

/-- The last event of a history is either the signal in question or comes after it. -/
theorem snoc_split {es pre post : List Event} {e f : Event}
    (h : es ++ [e] = pre ++ f :: post) :
    (es = pre ∧ e = f ∧ post = []) ∨ ∃ post', post = post' ++ [e] ∧ es = pre ++ f :: post' := by
  rcases List.eq_nil_or_concat post with rfl | ⟨post', g, rfl⟩
  · obtain ⟨h1, h2⟩ := List.append_inj' h rfl
    exact Or.inl ⟨h1, List.singleton_inj.mp h2, rfl⟩
  · rw [List.concat_eq_append, ← List.cons_append, ← List.append_assoc] at h
    obtain ⟨h1, h2⟩ := List.append_inj' h rfl
    obtain rfl := List.singleton_inj.mp h2
    exact Or.inr ⟨post', List.concat_eq_append, h1⟩

theorem undisturbed_snoc_signal {es : List Event} {now : ℚ} {i : Nat} :
    Undisturbed (es ++ [⟨.onSignal, now⟩]) i ↔ signals es = i := by
  constructor
  · rintro ⟨pre, now', post, heq, hi, hpost⟩
    rcases snoc_split heq with ⟨rfl, -, -⟩ | ⟨post', rfl, -⟩
    · exact hi
    · exact absurd rfl (hpost ⟨.onSignal, now⟩ (by simp)).1
  · rintro rfl
    exact ⟨es, now, [], rfl, rfl, by simp⟩

theorem not_undisturbed_snoc_cancel {es : List Event} {now : ℚ} {i : Nat} :
    ¬ Undisturbed (es ++ [⟨.onCancel, now⟩]) i := by
  rintro ⟨pre, now', post, heq, -, hpost⟩
  rcases snoc_split heq with ⟨-, he, -⟩ | ⟨post', rfl, -⟩
  · exact absurd he (by simp)
  · exact absurd rfl (hpost ⟨.onCancel, now⟩ (by simp)).2

theorem undisturbed_snoc_timer {es : List Event} {now : ℚ} {i j : Nat} :
    Undisturbed (es ++ [⟨.onTimer j, now⟩]) i ↔ Undisturbed es i := by
  constructor
  · rintro ⟨pre, now', post, heq, hi, hpost⟩
    rcases snoc_split heq with ⟨-, he, -⟩ | ⟨post', rfl, rfl⟩
    · exact absurd he (by simp)
    · exact ⟨pre, now', post', rfl, hi, fun e he => hpost e (List.mem_append_left _ he)⟩
  · rintro ⟨pre, now', post, rfl, hi, hpost⟩
    refine ⟨pre, now', post ++ [⟨.onTimer j, now⟩], by simp, hi, ?_⟩
    intro e he
    rcases List.mem_append.mp he with h | h
    · exact hpost e h
    · obtain rfl := List.mem_singleton.mp h
      exact ⟨by simp, by simp⟩

/-! ## What the captured variables say about the history -/

/-- The state of the queue after a history. -/
structure Tracks (delayInSeconds : ℚ) (es : List Event) (q : QueueState) : Prop where
  /-- `generation` counts the executed signals. -/
  generation : q.state.generation = UInt64.ofNat (signals es)
  /-- One timer, and one deadline, for each of them. -/
  timers : q.state.timers.length = signals es
  deadlines : q.deadlines.length = signals es
  /-- A handler captured the number of its own signal. -/
  current : ∀ i timer, q.state.timers[i]? = some timer → timer.current = UInt64.ofNat (i + 1)
  /-- `canceled` is clear exactly while the last signal is undisturbed. -/
  canceled : ∀ i, q.state.canceled = false ∧ signals es = i + 1 ↔ Undisturbed es i
  /-- A deadline lies the delay after its signal. -/
  due : ∀ i deadline, q.deadlines[i]? = some deadline →
    ∃ pre now post, es = pre ++ ⟨.onSignal, now⟩ :: post ∧ signals pre = i
      ∧ deadline = now + delayInSeconds

theorem tracks_init (delayInSeconds : ℚ) : Tracks delayInSeconds [] QueueState.init where
  generation := rfl
  timers := rfl
  deadlines := rfl
  current := by intro i timer h; simp [QueueState.init, State.init] at h
  canceled := by
    intro i
    constructor
    · rintro ⟨-, h⟩; simp [signals] at h
    · rintro ⟨pre, now, post, h, -, -⟩; simp at h
  due := by intro i deadline h; simp [QueueState.init] at h

variable {delayInSeconds : ℚ}

theorem tracks_signal {es : List Event} {q : QueueState} (now : ℚ)
    (h : Tracks delayInSeconds es q) :
    Tracks delayInSeconds (es ++ [⟨.onSignal, now⟩])
      { state := q.state.onSignal, deadlines := q.deadlines ++ [now + delayInSeconds] } := by
  have hn : signals (es ++ [⟨.onSignal, now⟩]) = signals es + 1 := by
    rw [signals_append]; rfl
  have hgen : q.state.generation + 1 = UInt64.ofNat (signals es + 1) := by
    rw [h.generation, UInt64.ofNat_add]; rfl
  refine ⟨?_, ?_, ?_, ?_, ?_, ?_⟩
  · rw [hn]; exact hgen
  · simp [State.onSignal, h.timers, hn]
  · simp [h.deadlines, hn]
  · intro i timer ht
    simp only [State.onSignal, List.getElem?_append] at ht
    split at ht
    · exact h.current i timer ht
    · rename_i hi
      have hi' : i = signals es := by
        have := List.getElem?_eq_some_iff.mp ht
        obtain ⟨hlt, -⟩ := this
        simp only [List.length_singleton] at hlt
        have := h.timers
        omega
      rw [hi', h.timers, Nat.sub_self, List.getElem?_cons_zero, Option.some.injEq] at ht
      rw [← ht, hi']; exact hgen
  · intro i
    rw [undisturbed_snoc_signal, hn]
    exact ⟨fun ⟨_, hi⟩ => Nat.succ.inj hi, fun hi => ⟨rfl, by rw [hi]⟩⟩
  · intro i deadline hd
    rw [List.getElem?_append] at hd
    split at hd
    · obtain ⟨pre, t, post, rfl, hi, he⟩ := h.due i deadline hd
      exact ⟨pre, t, post ++ [⟨.onSignal, now⟩], by simp, hi, he⟩
    · rename_i hi
      obtain ⟨hlt, hval⟩ := List.getElem?_eq_some_iff.mp hd
      simp only [List.length_singleton] at hlt
      refine ⟨es, now, [], rfl, ?_, ?_⟩
      · have := h.deadlines; omega
      · simpa using hval.symm

theorem tracks_cancel {es : List Event} {q : QueueState} (now : ℚ)
    (h : Tracks delayInSeconds es q) :
    Tracks delayInSeconds (es ++ [⟨.onCancel, now⟩]) { q with state := q.state.onCancel } := by
  have hn : signals (es ++ [⟨.onCancel, now⟩]) = signals es := by
    rw [signals_append]; rfl
  refine ⟨by rw [hn]; exact h.generation, by rw [hn]; exact h.timers,
    by rw [hn]; exact h.deadlines, h.current, ?_, ?_⟩
  · intro i
    exact ⟨fun ⟨hc, _⟩ => absurd hc (by simp [State.onCancel]),
      fun hu => absurd hu not_undisturbed_snoc_cancel⟩
  · intro i deadline hd
    obtain ⟨pre, t, post, rfl, hi, he⟩ := h.due i deadline hd
    exact ⟨pre, t, post ++ [⟨.onCancel, now⟩], by simp, hi, he⟩

/-- A handler only disarms its own timer. -/
theorem onTimer_frame (d : State) (j : Nat) :
    (d.onTimer j).1.canceled = d.canceled ∧ (d.onTimer j).1.generation = d.generation
      ∧ (d.onTimer j).1.timers.length = d.timers.length
      ∧ ∀ i : Nat, ((d.onTimer j).1.timers[i]?).map Timer.current = (d.timers[i]?).map Timer.current := by
  unfold State.onTimer
  split
  · exact ⟨rfl, rfl, rfl, fun _ => rfl⟩
  · rename_i timer ht
    refine ⟨rfl, rfl, by simp, fun i => ?_⟩
    rw [List.getElem?_set]
    split
    · rename_i hij
      subst hij
      split
      · rw [ht]; rfl
      · rename_i hlt
        rw [List.getElem?_eq_none (by omega)]
    · rfl

theorem tracks_timer {es : List Event} {q : QueueState} (j : Nat) (now : ℚ)
    (h : Tracks delayInSeconds es q) :
    Tracks delayInSeconds (es ++ [⟨.onTimer j, now⟩])
      { q with state := (q.state.onTimer j).1 } := by
  have hn : signals (es ++ [⟨.onTimer j, now⟩]) = signals es := by
    rw [signals_append]; rfl
  obtain ⟨hc, hg, hl, ht⟩ := onTimer_frame q.state j
  refine ⟨by rw [hn]; exact hg.trans h.generation, by rw [hn]; exact hl.trans h.timers,
    by rw [hn]; exact h.deadlines, ?_, ?_, ?_⟩
  · intro i timer hi
    have hmap := ht i
    rw [hi, Option.map_some] at hmap
    obtain ⟨timer', ht', heq⟩ := Option.map_eq_some_iff.mp hmap.symm
    rw [← heq]; exact h.current i timer' ht'
  · intro i
    rw [undisturbed_snoc_timer, hn, ← h.canceled i]
    exact Iff.of_eq (by rw [show (q.state.onTimer j).1.canceled = q.state.canceled from hc])
  · intro i deadline hd
    obtain ⟨pre, t, post, rfl, hi, he⟩ := h.due i deadline hd
    exact ⟨pre, t, post ++ [⟨.onTimer j, now⟩], by simp, hi, he⟩

/-- **One block.** -/
theorem tracks_step {es : List Event} {q q' : QueueState} {e : Event}
    (h : Tracks delayInSeconds es q) (hs : queueStep delayInSeconds q e = some q') :
    Tracks delayInSeconds (es ++ [e]) q' := by
  obtain ⟨work, now⟩ := e
  cases work with
  | onSignal => obtain rfl := Option.some.inj hs; exact tracks_signal now h
  | onCancel => obtain rfl := Option.some.inj hs; exact tracks_cancel now h
  | onTimer j =>
      simp only [queueStep] at hs
      split at hs
      · obtain rfl := Option.some.inj hs; exact tracks_timer j now h
      · exact absurd hs (by simp)

/-- **Every run.** -/
theorem tracks_run {es : List Event} {q : QueueState}
    (h : run (queueStep delayInSeconds) QueueState.init es = some q) :
    Tracks delayInSeconds es q := by
  induction es using List.reverseRecOn generalizing q with
  | nil => obtain rfl := Option.some.inj h; exact tracks_init delayInSeconds
  | append_singleton es e ih =>
      obtain ⟨q₁, h₁, h₂⟩ := run_snoc.mp h
      exact tracks_step (ih h₁) h₂

/-! ## What a handler's check decides -/

/-- The block `e`, executed after the history `es`, dispatches the callback. -/
def Dispatches (delayInSeconds : ℚ) (es : List Event) (e : Event) : Prop :=
  ∃ q, run (queueStep delayInSeconds) QueueState.init es = some q
    ∧ (q.state.execute e.work).2 = true

/-- Two signal numbers below the wrap of `generation` are told apart by it. -/
theorem ofNat_inj_of_lt {m n : Nat} (hm : m < 2 ^ 64) (hn : n < 2 ^ 64) :
    UInt64.ofNat m = UInt64.ofNat n ↔ m = n := by
  constructor
  · intro h
    have := congrArg UInt64.toNat h
    rwa [UInt64.toNat_ofNat', UInt64.toNat_ofNat', Nat.mod_eq_of_lt hm, Nat.mod_eq_of_lt hn] at this
  · rintro rfl; rfl

theorem onTimer_iff_undisturbed {es : List Event} {q : QueueState}
    (h : Tracks delayInSeconds es q) (hb : signals es < 2 ^ 64) (i : Nat) :
    (q.state.onTimer i).2 = true ↔ Undisturbed es i := by
  rw [← h.canceled i]
  unfold State.onTimer
  split
  · rename_i hnone
    have hlen := List.getElem?_eq_none_iff.mp hnone
    rw [h.timers] at hlen
    exact ⟨fun hf => absurd hf (by simp), fun ⟨_, hs⟩ => absurd hs (by omega)⟩
  · rename_i timer ht
    obtain ⟨hlt, -⟩ := List.getElem?_eq_some_iff.mp ht
    rw [h.timers] at hlt
    simp only [h.current i timer ht, h.generation, Bool.and_eq_true, Bool.not_eq_true',
      beq_iff_eq, ofNat_inj_of_lt (show i + 1 < 2 ^ 64 by omega) hb]
    exact and_congr_right fun _ => eq_comm

theorem dispatches_iff {es : List Event} {i : Nat} {now : ℚ} {q : QueueState}
    (hrun : run (queueStep delayInSeconds) QueueState.init es = some q)
    (hb : signals es < 2 ^ 64) :
    Dispatches delayInSeconds es ⟨.onTimer i, now⟩ ↔ Undisturbed es i := by
  rw [← onTimer_iff_undisturbed (tracks_run hrun) hb i]
  constructor
  · rintro ⟨q', hq', hd⟩
    rw [hrun, Option.some.injEq] at hq'
    rw [hq']; exact hd
  · intro hd
    exact ⟨q, hrun, hd⟩

/-- Only handlers dispatch. -/
theorem dispatches_timer {es : List Event} {e : Event} (h : Dispatches delayInSeconds es e) :
    ∃ i, e.work = .onTimer i := by
  obtain ⟨q, -, hd⟩ := h
  cases hw : e.work with
  | onSignal => rw [hw] at hd; exact absurd hd (by simp [State.execute])
  | onCancel => rw [hw] at hd; exact absurd hd (by simp [State.execute])
  | onTimer i => exact ⟨i, rfl⟩

/-- After a cancel nothing is undisturbed until the next signal. -/
theorem not_undisturbed_after_cancel {pre : List Event} {t : ℚ} {i : Nat} (mid : List Event)
    (hmid : ∀ e ∈ mid, e.work ≠ .onSignal) :
    ¬ Undisturbed (pre ++ ⟨.onCancel, t⟩ :: mid) i := by
  induction mid using List.reverseRecOn with
  | nil => exact not_undisturbed_snoc_cancel
  | append_singleton mid e ih =>
      have ih' := ih fun e' he' => hmid e' (List.mem_append_left _ he')
      obtain ⟨work, now⟩ := e
      rw [← List.cons_append, ← List.append_assoc]
      cases work with
      | onSignal => exact absurd rfl (hmid ⟨.onSignal, now⟩ (by simp))
      | onCancel => exact not_undisturbed_snoc_cancel
      | onTimer j => exact fun h => ih' (undisturbed_snoc_timer.mp h)

/-! ## Each timer fires once -/

/-- Timer `i` exists and has delivered its event. -/
def Spent (i : Nat) (q : QueueState) : Prop :=
  ∃ timer, q.state.timers[i]? = some timer ∧ timer.armed = false

theorem spent_onTimer {q : QueueState} {i : Nat} {now : ℚ} (h : q.due i now = true) :
    Spent i { q with state := (q.state.onTimer i).1 } := by
  unfold QueueState.due at h
  split at h
  · rename_i timer deadline ht _
    obtain ⟨hlt, -⟩ := List.getElem?_eq_some_iff.mp ht
    refine ⟨{ timer with armed := false }, ?_, rfl⟩
    simp only [State.onTimer, ht]
    rw [List.getElem?_set_self hlt]
  · exact absurd h (by simp)

theorem spent_step {i : Nat} {q q' : QueueState} {e : Event} (h : Spent i q)
    (hs : queueStep delayInSeconds q e = some q') : Spent i q' := by
  obtain ⟨timer, ht, ha⟩ := h
  obtain ⟨work, now⟩ := e
  obtain ⟨hlt, -⟩ := List.getElem?_eq_some_iff.mp ht
  cases work with
  | onSignal =>
      obtain rfl := Option.some.inj hs
      exact ⟨timer, by simp only [State.onSignal]; rw [List.getElem?_append_left hlt, ht], ha⟩
  | onCancel => obtain rfl := Option.some.inj hs; exact ⟨timer, ht, ha⟩
  | onTimer j =>
      simp only [queueStep] at hs
      split at hs
      · rename_i hdue
        obtain rfl := Option.some.inj hs
        by_cases hij : j = i
        · subst hij; exact spent_onTimer hdue
        · refine ⟨timer, ?_, ha⟩
          simp only [State.onTimer]
          split
          · exact ht
          · rw [List.getElem?_set_ne hij]; exact ht
      · exact absurd hs (by simp)

theorem not_due_of_spent {i : Nat} {q : QueueState} {now : ℚ} (h : Spent i q) :
    q.due i now = false := by
  obtain ⟨timer, ht, ha⟩ := h
  unfold QueueState.due
  rw [ht]
  split
  · rename_i heq _
    obtain rfl := Option.some.inj heq
    rw [ha]; rfl
  · rfl

/-- A handler only runs when its timer is due. -/
theorem due_of_step {q q' : QueueState} {i : Nat} {now : ℚ}
    (h : queueStep delayInSeconds q ⟨.onTimer i, now⟩ = some q') :
    q.due i now = true ∧ q' = { q with state := (q.state.onTimer i).1 } := by
  simp only [queueStep] at h
  split at h
  · rename_i hdue; exact ⟨hdue, (Option.some.inj h).symm⟩
  · exact absurd h (by simp)

/-! ## The debounce -/

/-- Two dispatches in one run have a signal between them: the second timer cannot be the
first one again, since that has been spent. -/
theorem signal_between_dispatches {pre mid post : List Event} {e₁ e₂ : Event} {q : QueueState}
    (hrun : run (queueStep delayInSeconds) QueueState.init (pre ++ e₁ :: (mid ++ e₂ :: post))
      = some q)
    (hb : signals (pre ++ e₁ :: (mid ++ e₂ :: post)) < 2 ^ 64)
    (h₁ : Dispatches delayInSeconds pre e₁)
    (h₂ : Dispatches delayInSeconds (pre ++ e₁ :: mid) e₂) :
    ∃ e ∈ mid, e.work = .onSignal := by
  by_contra hno
  have hmid : ∀ e ∈ mid, e.work ≠ .onSignal := fun e he hw => hno ⟨e, he, hw⟩
  obtain ⟨i, hi⟩ := dispatches_timer h₁
  obtain ⟨j, hj⟩ := dispatches_timer h₂
  obtain ⟨w₁, t₁⟩ := e₁
  obtain ⟨w₂, t₂⟩ := e₂
  simp only at hi hj
  subst hi; subst hj
  have hcount : signals (pre ++ ⟨.onTimer i, t₁⟩ :: mid) = signals pre := by
    rw [signals_append, ← List.singleton_append, signals_append, signals_eq_zero hmid]; rfl
  obtain ⟨q₁, hq₁, hrest⟩ := run_append_some.mp hrun
  obtain ⟨q₂, hs₁, hrest⟩ := run_cons_some.mp hrest
  obtain ⟨q₃, hq₃, hrest⟩ := run_append_some.mp hrest
  obtain ⟨q₄, hs₂, -⟩ := run_cons_some.mp hrest
  have hmidrun : run (queueStep delayInSeconds) QueueState.init (pre ++ ⟨.onTimer i, t₁⟩ :: mid)
      = some q₃ := run_append_some.mpr ⟨q₁, hq₁, run_cons_some.mpr ⟨q₂, hs₁, hq₃⟩⟩
  have hle : signals pre ≤ signals (pre ++ ⟨.onTimer i, t₁⟩ :: (mid ++ ⟨.onTimer j, t₂⟩ :: post)) := by
    rw [signals_append]; omega
  have hu₁ := (dispatches_iff hq₁ (by omega)).mp h₁
  have hu₂ := (dispatches_iff hmidrun (by omega)).mp h₂
  have hs := ((tracks_run hq₁).canceled i).mpr hu₁
  have hs' := ((tracks_run hmidrun).canceled j).mpr hu₂
  obtain rfl : i = j := by omega
  obtain ⟨hdue, rfl⟩ := due_of_step hs₁
  have hspent : Spent i q₃ := run_invariant spent_step (spent_onTimer hdue) hq₃
  have hagain : q₃.due i t₂ = true := (due_of_step hs₂).1
  rw [not_due_of_spent hspent] at hagain
  exact absurd hagain (by simp)

/-- A dispatch happens no earlier than the delay after the last signal. -/
theorem dispatch_after_delay {pre mid : List Event} {t now : ℚ} {i : Nat} {q q' : QueueState}
    (hrun : run (queueStep delayInSeconds) QueueState.init (pre ++ ⟨.onSignal, t⟩ :: mid) = some q)
    (hs : queueStep delayInSeconds q ⟨.onTimer i, now⟩ = some q')
    (hb : signals (pre ++ ⟨.onSignal, t⟩ :: mid) < 2 ^ 64)
    (hmid : ∀ e ∈ mid, e.work ≠ .onSignal)
    (hd : Dispatches delayInSeconds (pre ++ ⟨.onSignal, t⟩ :: mid) ⟨.onTimer i, now⟩) :
    t + delayInSeconds ≤ now := by
  have htracks := tracks_run hrun
  have hi := ((htracks.canceled i).mpr ((dispatches_iff hrun hb).mp hd)).2
  rw [signals_append, signals_cons_signal, signals_eq_zero hmid] at hi
  have hdue := (due_of_step hs).1
  unfold QueueState.due at hdue
  split at hdue
  · rename_i timer deadline _ hdl
    obtain ⟨pre', t', post', heq, hsig, rfl⟩ := htracks.due i deadline hdl
    obtain ⟨-, rfl, -⟩ := signal_unique heq (by omega)
    simp only [Bool.and_eq_true, decide_eq_true_eq] at hdue
    exact hdue.2
  · exact absurd hdue (by simp)

/-- **A debounce fires exactly for an undisturbed last signal.** In every run of the private
queue with fewer than 2^64 signals: a timer's handler dispatches the callback iff nothing but
handlers ran since its signal; two dispatches have a signal between them; after a cancel nothing
is dispatched until a later signal; and a dispatch is at least the delay after the last signal. -/
theorem debounce_fires_iff_undisturbed {es : List Event} {q : QueueState}
    (hrun : run (queueStep delayInSeconds) QueueState.init es = some q)
    (hb : signals es < 2 ^ 64) :
    (∀ pre i now post, es = pre ++ ⟨.onTimer i, now⟩ :: post →
      (Dispatches delayInSeconds pre ⟨.onTimer i, now⟩ ↔ Undisturbed pre i)) ∧
    (∀ pre e₁ mid e₂ post, es = pre ++ e₁ :: (mid ++ e₂ :: post) →
      Dispatches delayInSeconds pre e₁ → Dispatches delayInSeconds (pre ++ e₁ :: mid) e₂ →
      ∃ e ∈ mid, e.work = .onSignal) ∧
    (∀ pre t mid e post, es = pre ++ ⟨.onCancel, t⟩ :: (mid ++ e :: post) →
      (∀ e' ∈ mid, e'.work ≠ .onSignal) →
      ¬ Dispatches delayInSeconds (pre ++ ⟨.onCancel, t⟩ :: mid) e) ∧
    (∀ pre t mid e post, es = pre ++ ⟨.onSignal, t⟩ :: (mid ++ e :: post) →
      (∀ e' ∈ mid, e'.work ≠ .onSignal) →
      Dispatches delayInSeconds (pre ++ ⟨.onSignal, t⟩ :: mid) e → t + delayInSeconds ≤ e.now) := by
  -- every prefix of the run is itself a run, with no more signals
  have hprefix : ∀ pre e post, es = pre ++ e :: post →
      signals pre < 2 ^ 64 ∧ ∃ q₁ q₂,
        run (queueStep delayInSeconds) QueueState.init pre = some q₁
          ∧ queueStep delayInSeconds q₁ e = some q₂ := by
    rintro pre e post rfl
    obtain ⟨q₁, h₁, h₂⟩ := run_append_some.mp hrun
    obtain ⟨q₂, h₃, -⟩ := run_cons_some.mp h₂
    rw [signals_append] at hb
    exact ⟨by omega, q₁, q₂, h₁, h₃⟩
  refine ⟨?_, ?_, ?_, ?_⟩
  · intro pre i now post heq
    obtain ⟨hlt, q₁, -, h₁, -⟩ := hprefix pre _ post heq
    exact dispatches_iff h₁ hlt
  · rintro pre e₁ mid e₂ post rfl h₁ h₂
    exact signal_between_dispatches hrun hb h₁ h₂
  · intro pre t mid e post heq hmid hd
    obtain ⟨hlt, q₁, -, h₁, -⟩ := hprefix (pre ++ ⟨.onCancel, t⟩ :: mid) e post (by simp [heq])
    obtain ⟨i, hi⟩ := dispatches_timer hd
    obtain ⟨work, now⟩ := e
    simp only at hi
    subst hi
    exact not_undisturbed_after_cancel mid hmid ((dispatches_iff h₁ hlt).mp hd)
  · intro pre t mid e post heq hmid hd
    obtain ⟨hlt, q₁, q₂, h₁, h₂⟩ := hprefix (pre ++ ⟨.onSignal, t⟩ :: mid) e post (by simp [heq])
    obtain ⟨i, hi⟩ := dispatches_timer hd
    obtain ⟨work, now⟩ := e
    simp only at hi
    subst hi
    exact dispatch_after_delay h₁ h₂ hlt hmid hd

/-- A burst of two signals, a cancel and a third signal, with the timers delivered late and
out of order. -/
def burst : List Event :=
  [⟨.onSignal, 0⟩, ⟨.onSignal, 1⟩, ⟨.onCancel, 2⟩, ⟨.onSignal, 3⟩, ⟨.onTimer 1, 4⟩,
    ⟨.onTimer 2, 6⟩, ⟨.onTimer 0, 7⟩]

/-- Of the three timers of a burst only the last signal's fires. -/
theorem debounce_fires_burst :
    Dispatches 2 (burst.take 5) ⟨.onTimer 2, 6⟩ ∧ ¬ Dispatches 2 (burst.take 4) ⟨.onTimer 1, 4⟩ := by
  obtain ⟨q, hq⟩ : ∃ q, run (queueStep 2) QueueState.init burst = some q :=
    Option.isSome_iff_exists.mp (by decide +kernel)
  have hthm := debounce_fires_iff_undisturbed hq (by decide)
  refine ⟨(hthm.1 _ 2 6 [⟨.onTimer 0, 7⟩] rfl).mpr ?_, fun hd => ?_⟩
  · exact ⟨burst.take 3, 3, [⟨.onTimer 1, 4⟩], rfl, by decide, by decide⟩
  · -- between the second signal and its handler a cancel and a signal were executed
    obtain ⟨pre, now, post, heq, hsig, hpost⟩ := (hthm.1 _ 1 4 (burst.drop 5) rfl).mp hd
    have hsecond : burst.take 4
        = burst.take 1 ++ ⟨.onSignal, 1⟩ :: [⟨.onCancel, 2⟩, ⟨.onSignal, 3⟩] := rfl
    obtain ⟨-, -, rfl⟩ := signal_unique (heq.symm.trans hsecond) hsig
    exact absurd rfl (hpost ⟨.onCancel, 2⟩ (by simp)).2

end NPFoundation.Debounce
