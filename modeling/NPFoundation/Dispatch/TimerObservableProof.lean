import NPFoundation.Dispatch.TimerObservable
import NPFoundation.Dispatch.TimerBalance
import NPFoundation.ObjC.ValueObservingHandlers

/-!
# A timer is cancelled when its object goes, and not before

Seen from the objects, a schedule of the two together is a schedule of its own, with the
handlers in the calls that were made. Seen from a timer, it is a schedule of resumes,
suspends and cancels. What ties the two is one fact: a handler of `NPDispatchTimerObservable`
that was called has cancelled its timer.
-/

namespace NPFoundation.Timer.Observable

open Transition ObjC ObjC.Observing

variable {τ ω κ η : Type} [Fintype τ] [DecidableEq τ] [DecidableEq ω] [DecidableEq κ]

/-! ## One step of each part -/

section Parts

variable {s s' : Observing.System τ ω η} {a : Observing.Action τ ω η} {o : Option ω} {h : η}

attribute [local simp] Observing.System.setStack Observing.System.setObject
  Observing.System.setLock Observing.System.setAssociated Observing.System.setObserving
  Observing.System.note

omit [DecidableEq κ] in
/-- Where a call of a handler comes from. -/
theorem called_step (hstep : Observing.Step s a s') (hmem : h ∈ calledFor s'.journal o) :
    h ∈ calledFor s.journal o ∨ (∃ t, a = .attach t none h ∧ o = none)
      ∨ ∃ t, a = .advance t ∧ nextHandler s t = some h := by
  cases hstep with
  | callNow t hd huser =>
      cases o with
      | none =>
          have hcases : h ∈ calledFor s.journal none ∨ h = hd := by simpa using hmem
          rcases hcases with hold | rfl
          · exact .inl hold
          · exact .inr (.inl ⟨t, rfl, rfl⟩)
      | some o => exact .inl (by simpa using hmem)
  | attach t o' hd huser hlife => exact .inl (by simpa using hmem)
  | release t o' huser hlife hunused => exact .inl hmem
  | advance t s' hadvance =>
      cases hadvance with
      | create o' hd rest hframes => exact .inl (by simpa using hmem)
      | addHandler o' hd rest b v hframes hv => exact .inl (by simpa using hmem)
      | call o' rest b n v hd hframes hlife hv hnth =>
          have hnext : nextHandler s t = some hd := by simp [nextHandler, hframes, hlife, hv, hnth]
          by_cases ho : some o' = o
          · subst ho
            have hcases : h ∈ calledFor s.journal (some o') ∨ h = hd := by simpa using hmem
            rcases hcases with hold | rfl
            · exact .inl hold
            · exact .inr (.inr ⟨t, rfl, hnext⟩)
          · exact .inl (by simpa [ho] using hmem)
      | _ => exact .inl hmem

omit [DecidableEq κ] in
theorem nextHandler_called {t : τ} (hstep : Observing.System.step s (.advance t) = some s')
    (hnext : nextHandler s t = some h) : ∃ o, h ∈ calledFor s'.journal o := by
  unfold nextHandler at hnext
  split at hnext
  · rename_i o rest hframes
    split at hnext
    · rename_i b n hlife
      obtain ⟨v, hv, hnth⟩ := Option.bind_eq_some_iff.mp hnext
      simp [Observing.System.step, Observing.System.advance, hframes, hlife, hv, hnth] at hstep
      refine ⟨some o, ?_⟩
      rw [← hstep]
      simp
    · exact absurd hnext (by simp)
  · exact absurd hnext (by simp)

end Parts

/-! ## Each timer is on its own -/

section Timers

variable {w w' : World τ} {t : τ} {a : Timer.Action τ}

/-- The thread a step belongs to. -/
def thread : Timer.Action τ → τ
  | .call t _ => t
  | .exec t => t

omit [Fintype τ] in
theorem inFlight_step (h : Timer.step w a = some w') (ht : t ≠ thread a) :
    w'.inFlight t = w.inFlight t := by
  obtain ⟨t', c, rfl, -, rfl⟩ | ⟨t', d, rest, rfl, -, rfl⟩ := Timer.step_cases h
  · exact Function.update_of_ne ht _ _
  · cases d <;> exact Function.update_of_ne ht _ _

omit [Fintype τ] in
/-- Only a cancel cancels. -/
theorem isCancelled_step (h : Timer.step w a = some w') (ha : ∀ t, a ≠ .call t .timerCancel) :
    w'.timer.isCancelled = w.timer.isCancelled := by
  obtain ⟨t', c, rfl, -, rfl⟩ | ⟨t', d, rest, rfl, -, rfl⟩ := Timer.step_cases h
  · cases c with
    | timerResume =>
        simp only [NPTimer.update, NPTimer.resume]
        split <;> rfl
    | timerSuspend =>
        simp only [NPTimer.update, NPTimer.suspend]
        split <;> rfl
    | timerCancel => exact absurd rfl (ha t')
  · cases d <;> rfl

omit [DecidableEq τ] in
/-- A cancelled timer in which no call is in progress: its source was cancelled once, and is not
suspended. -/
theorem at_rest_cancelled (hbalance : Balance w) (hsane : w.timer.Sane) (hquiet : w.Quiescent)
    (hcancelled : w.timer.isCancelled = true) : w.cancels = 1 ∧ w.suspendCount = 0 := by
  have hsuspends := hbalance.suspends
  have hcancels := hbalance.cancels
  rw [Quiescent.owed hquiet, Quiescent.owed hquiet, NPTimer.suspended, hsane hcancelled] at hsuspends
  rw [Quiescent.owed hquiet, NPTimer.cancelled, hcancelled] at hcancels
  refine ⟨hcancels, ?_⟩
  unfold World.suspendCount
  simp at hsuspends
  omega

end Timers

/-! ## The two together -/

/-- The handler that an action attaches to this object. -/
def handlerFor (observable : Option ω) : Action τ ω κ η → Option (Handler κ η)
  | .dispatchTimerObservable _ o k => if o = observable then some (.cancelTimer k) else none
  | .attach _ o h => if o = observable then some (.other h) else none
  | _ => none

/-- What a schedule has led to. `pending` is the timer of a handler that was just called. -/
structure Inv (as : List (Action τ ω κ η)) (pending : Option κ) (s : System τ ω κ η) : Prop where
  reach : ∃ as', run Observing.System.step Observing.System.start as' = some s.observing
    ∧ ∀ o, as'.filterMap (Observing.Action.handlerFor o) = as.filterMap (handlerFor o)
  balance : ∀ k w, s.timers k = some w → Balance w ∧ w.timer.Sane
  inCall : ∀ k w t, s.timers k = some w → w.inFlight t ≠ [] → s.inCall t = some k
  cancelled : ∀ o k, .cancelTimer k ∈ calledFor s.observing.journal o →
    pending = some k ∨ ∃ w, s.timers k = some w ∧ w.timer.isCancelled = true
  onlyThen : ∀ k w, s.timers k = some w → w.timer.isCancelled = true →
    (∃ t, .call t k .timerCancel ∈ as) ∨ ∃ o, .cancelTimer k ∈ calledFor s.observing.journal o

variable {as : List (Action τ ω κ η)} {pending : Option κ} {s s' : System τ ω κ η}
  {a : Action τ ω κ η} {t : τ} {k : κ}

omit [DecidableEq κ] in
theorem inv_start : Inv [] none (System.start : System τ ω κ η) where
  reach := ⟨[], rfl, fun _ => rfl⟩
  balance _ _ h := absurd h (by simp [System.start])
  inCall _ _ _ h := absurd h (by simp [System.start])
  cancelled _ _ h := absurd h (by simp [System.start, Observing.System.start, calledFor])
  onlyThen _ _ h := absurd h (by simp [System.start])

omit [DecidableEq κ] in
/-- An action that attaches nothing. -/
theorem Inv.more (h : Inv as pending s) (ha : ∀ o, handlerFor o a = none) :
    Inv (as ++ [a]) pending s where
  reach := by
    obtain ⟨as', hrun, hgiven⟩ := h.reach
    refine ⟨as', hrun, fun o => ?_⟩
    rw [List.filterMap_append, hgiven o]
    simp [ha o]
  balance := h.balance
  inCall := h.inCall
  cancelled := h.cancelled
  onlyThen k w hw hcancelled := by
    rcases h.onlyThen k w hw hcancelled with ⟨t, ht⟩ | hcalled
    · exact .inl ⟨t, List.mem_append_left _ ht⟩
    · exact .inr hcalled

theorem Inv.make (h : Inv as none s) (hk : s.timers k = none) :
    Inv as none { s with timers := Function.update s.timers k (some (World.init τ)) } where
  reach := h.reach
  balance k' w hw := by
    by_cases hkk : k' = k
    · subst hkk
      obtain rfl : World.init τ = w := by simpa using hw
      exact ⟨balance_init, fun hc => absurd hc (by simp [World.init, NPTimer.init])⟩
    · exact h.balance k' w (by simpa [hkk] using hw)
  inCall k' w t hw hbusy := by
    by_cases hkk : k' = k
    · subst hkk
      obtain rfl : World.init τ = w := by simpa using hw
      exact absurd rfl hbusy
    · exact h.inCall k' w t (by simpa [hkk] using hw) hbusy
  cancelled o k' hcalled := by
    rcases h.cancelled o k' hcalled with hpending | ⟨w, hw, hcancelled⟩
    · exact .inl hpending
    · have hkk : k' ≠ k := fun hc => by rw [hc, hk] at hw; exact absurd hw (by simp)
      exact .inr ⟨w, by simpa [hkk] using hw, hcancelled⟩
  onlyThen k' w hw hcancelled := by
    by_cases hkk : k' = k
    · subst hkk
      obtain rfl : World.init τ = w := by simpa using hw
      exact absurd hcancelled (by simp [World.init, NPTimer.init])
    · exact h.onlyThen k' w (by simpa [hkk] using hw) hcancelled

omit [DecidableEq κ] in
/-- A step among the objects, which calls at most the handler that is pending then. -/
theorem Inv.observe {a' : Observing.Action τ ω (Handler κ η)}
    {observing : Observing.System τ ω (Handler κ η)} (h : Inv as none s)
    (hstep : Observing.System.step s.observing a' = some observing)
    (hgiven : ∀ o, a'.handlerFor o = handlerFor o a)
    (hnew : ∀ o k, .cancelTimer k ∈ calledFor observing.journal o →
      .cancelTimer k ∈ calledFor s.observing.journal o ∨ pending = some k) :
    Inv (as ++ [a]) pending { s with observing := observing } where
  reach := by
    obtain ⟨as', hrun, hall⟩ := h.reach
    refine ⟨as' ++ [a'], run_snoc.mpr ⟨s.observing, hrun, hstep⟩, fun o => ?_⟩
    rw [List.filterMap_append, List.filterMap_append, hall o]
    simp only [List.filterMap_cons, List.filterMap_nil, hgiven o]
  balance := h.balance
  inCall := h.inCall
  cancelled o k hcalled := by
    rcases hnew o k hcalled with hold | hpending
    · rcases h.cancelled o k hold with hnone | hcancelled
      · exact absurd hnone (by simp)
      · exact .inr hcancelled
    · exact .inl hpending
  onlyThen k w hw hcancelled := by
    rcases h.onlyThen k w hw hcancelled with ⟨t, ht⟩ | ⟨o, hcalled⟩
    · exact .inl ⟨t, List.mem_append_left _ ht⟩
    · -- what was called stays called
      obtain ⟨⟨events, hevents⟩, -, -⟩ := journal_step (Observing.step_cases hstep)
      refine .inr ⟨o, ?_⟩
      rw [hevents]
      unfold calledFor
      rw [List.filterMap_append]
      exact List.mem_append_left _ hcalled

omit [Fintype τ] [DecidableEq ω] in
theorem onTimer_cases {ta : Timer.Action τ} (h : s.onTimer t k ta = some s') :
    ∃ w w', s.timers k = some w ∧ Timer.step w ta = some w'
      ∧ s' = { s with
          timers := Function.update s.timers k (some w')
          inCall := Function.update s.inCall t (if w'.inFlight t = [] then none else some k) } := by
  unfold System.onTimer at h
  split at h
  · exact absurd h (by simp)
  · rename_i w hw
    obtain ⟨w', hw', rfl⟩ := Option.map_eq_some_iff.mp h
    exact ⟨w, w', hw, hw', rfl⟩

/-- A step on a timer. A cancel has been called, or is what a handler does that is pending. -/
theorem Inv.timer {ta : Timer.Action τ} (h : Inv as pending s) (hs : s.onTimer t k ta = some s')
    (ht : thread ta = t) (hin : s.inCall t = none ∨ s.inCall t = some k)
    (hpending : pending = none ∨ pending = some k ∧ ta = .call t .timerCancel)
    (hwhy : ∀ t', ta = .call t' .timerCancel → (∃ t, .call t k .timerCancel ∈ as)
      ∨ ∃ o, .cancelTimer k ∈ calledFor s.observing.journal o) : Inv as none s' := by
  obtain ⟨w, w', hw, hstep, rfl⟩ := onTimer_cases hs
  refine ⟨h.reach, fun k' w₁ hw₁ => ?_, fun k' w₁ t' hw₁ hbusy => ?_, fun o k' hcalled => ?_,
    fun k' w₁ hw₁ hcancelled => ?_⟩
  · by_cases hkk : k' = k
    · subst hkk
      obtain rfl : w' = w₁ := by simpa using hw₁
      obtain ⟨hbalance, hsane⟩ := h.balance k' w hw
      exact ⟨balance_step hbalance hstep, step_sane hsane hstep⟩
    · exact h.balance k' w₁ (by simpa [hkk] using hw₁)
  · by_cases hkk : k' = k
    · subst hkk
      obtain rfl : w' = w₁ := by simpa using hw₁
      by_cases htt : t' = t
      · subst htt
        simp [hbusy]
      · rw [inFlight_step hstep (ht ▸ htt)] at hbusy
        simpa [htt] using h.inCall k' w t' hw hbusy
    · have hold := h.inCall k' w₁ t' (by simpa [hkk] using hw₁) hbusy
      by_cases htt : t' = t
      · subst htt
        rcases hin with hin | hin
        · exact absurd (hin.symm.trans hold) (by simp)
        · exact absurd (Option.some.inj (hin.symm.trans hold)).symm hkk
      · simpa [htt] using hold
  · by_cases hkk : k' = k
    · subst hkk
      refine .inr ⟨w', by simp, ?_⟩
      rcases h.cancelled o k' hcalled with hp | ⟨w₁, hw₁, hcancelled⟩
      · -- it is pending, and this is the cancel
        rcases hpending with hnone | ⟨-, rfl⟩
        · exact absurd (hnone.symm.trans hp) (by simp)
        · exact step_cancel hstep
      · obtain rfl : w = w₁ := Option.some.inj (hw.symm.trans hw₁)
        exact step_cancelled hcancelled hstep
    · rcases h.cancelled o k' hcalled with hp | ⟨w₁, hw₁, hcancelled⟩
      · rcases hpending with hnone | ⟨hk, -⟩
        · exact absurd (hnone.symm.trans hp) (by simp)
        · exact absurd (Option.some.inj (hk.symm.trans hp)).symm hkk
      · exact .inr ⟨w₁, by simpa [hkk] using hw₁, hcancelled⟩
  · by_cases hkk : k' = k
    · subst hkk
      obtain rfl : w' = w₁ := by simpa using hw₁
      by_cases hcancel : ∃ t', ta = .call t' .timerCancel
      · obtain ⟨t', ht'⟩ := hcancel
        exact hwhy t' ht'
      · have hsame := isCancelled_step hstep fun t' ht' => hcancel ⟨t', ht'⟩
        exact h.onlyThen k' w hw (hsame ▸ hcancelled)
    · exact h.onlyThen k' w₁ (by simpa [hkk] using hw₁) hcancelled

/-- A step among the objects that calls a handler, which then does what it does at once. -/
theorem Inv.called {a' : Observing.Action τ ω (Handler κ η)}
    {observing : Observing.System τ ω (Handler κ η)} {handler : Handler κ η} (h : Inv as none s)
    (hstep : Observing.System.step s.observing a' = some observing)
    (hgiven : ∀ o, a'.handlerFor o = handlerFor o a)
    (hnew : ∀ o k, .cancelTimer k ∈ calledFor observing.journal o →
      .cancelTimer k ∈ calledFor s.observing.journal o ∨ handler = .cancelTimer k)
    (hmem : ∃ o, handler ∈ calledFor observing.journal o)
    (hs : { s with observing := observing }.enter t handler = some s')
    (hidle : s.inCall t = none) : Inv (as ++ [a]) none s' := by
  cases handler with
  | cancelTimer k =>
      have hpending : Inv (as ++ [a]) (some k) { s with observing := observing } := by
        refine h.observe hstep hgiven fun o' k' hmem' => ?_
        rcases hnew o' k' hmem' with hold | hsame
        · exact .inl hold
        · exact .inr (congrArg some (Handler.cancelTimer.inj hsame))
      exact hpending.timer hs rfl (.inl hidle) (.inr ⟨rfl, rfl⟩) fun _ _ => .inr hmem
  | other hd =>
      obtain rfl := Option.some.inj hs
      refine h.observe hstep hgiven fun o' k' hmem' => ?_
      rcases hnew o' k' hmem' with hold | hsame
      · exact .inl hold
      · exact absurd hsame (by simp)

theorem Inv.attach {observable : Option ω} {handler : Handler κ η} (h : Inv as none s)
    (hs : s.attach t observable handler = some s') (hidle : s.inCall t = none)
    (hgiven : ∀ o, (Observing.Action.attach t observable handler).handlerFor o = handlerFor o a) :
    Inv (as ++ [a]) none s' := by
  unfold System.attach at hs
  split at hs
  · exact absurd hs (by simp)
  · rename_i observing hstep
    cases observable with
    | some o =>
        obtain rfl := Option.some.inj hs
        refine h.observe hstep hgiven fun o' k hmem => ?_
        rcases called_step (Observing.step_cases hstep) hmem with hold | ⟨t', hact, -⟩ | ⟨t', hact, -⟩
        · exact .inl hold
        · exact absurd hact (by simp)
        · exact absurd hact (by simp)
    | none =>
        refine h.called hstep hgiven (fun o' k hmem => ?_) ⟨none, ?_⟩ hs hidle
        · rcases called_step (Observing.step_cases hstep) hmem with
            hold | ⟨t', hact, -⟩ | ⟨t', hact, -⟩
          · exact .inl hold
          · exact .inr (Observing.Action.attach.inj hact).2.2
          · exact absurd hact (by simp)
        · cases Observing.step_cases hstep with
          | callNow t hd huser => simp [Observing.System.note, Observing.System.setStack]

theorem Inv.advance (h : Inv as none s) (hs : s.advance t = some s') :
    Inv (as ++ [.advance t]) none s' := by
  unfold System.advance at hs
  split at hs
  · rename_i k hcall
    exact (h.more (a := .advance t) fun _ => rfl).timer hs rfl (.inr hcall) (.inl rfl)
      fun _ hc => absurd hc (by simp)
  · rename_i hidle
    split at hs
    · exact absurd hs (by simp)
    · rename_i observing hstep
      split at hs
      · rename_i handler hnext
        refine h.called hstep (fun _ => rfl) (fun o' k hmem => ?_) (nextHandler_called hstep hnext)
          hs hidle
        rcases called_step (Observing.step_cases hstep) hmem with
          hold | ⟨t', hact, -⟩ | ⟨t', hact, hnext'⟩
        · exact .inl hold
        · exact absurd hact (by simp)
        · obtain rfl := Observing.Action.advance.inj hact
          exact .inr (Option.some.inj (hnext.symm.trans hnext'))
      · rename_i hnext
        obtain rfl := Option.some.inj hs
        refine h.observe hstep (fun _ => rfl) fun o' k hmem => ?_
        rcases called_step (Observing.step_cases hstep) hmem with
          hold | ⟨t', hact, -⟩ | ⟨t', hact, hnext'⟩
        · exact .inl hold
        · exact absurd hact (by simp)
        · obtain rfl := Observing.Action.advance.inj hact
          exact absurd (hnext.symm.trans hnext') (by simp)

theorem inv_step (h : Inv as none s) (hstep : s.step a = some s') : Inv (as ++ [a]) none s' := by
  cases a with
  | dispatchTimer t k =>
      simp only [System.step, Option.ite_none_right_eq_some] at hstep
      obtain ⟨-, hmake⟩ := hstep
      unfold System.npDispatchTimer at hmake
      split at hmake
      · rename_i hk
        obtain rfl := Option.some.inj hmake
        exact (h.make hk).more fun _ => rfl
      · exact absurd hmake (by simp)
  | dispatchTimerObservable t observable k =>
      simp only [System.step, Option.ite_none_right_eq_some] at hstep
      obtain ⟨hidle, hboth⟩ := hstep
      obtain ⟨s₁, hmake, hattach⟩ := Option.bind_eq_some_iff.mp hboth
      unfold System.npDispatchTimer at hmake
      split at hmake
      · rename_i hk
        obtain rfl := Option.some.inj hmake
        exact (h.make hk).attach hattach hidle fun _ => rfl
      · exact absurd hmake (by simp)
  | attach t observable hd =>
      simp only [System.step, Option.ite_none_right_eq_some] at hstep
      exact h.attach hstep.2 hstep.1 fun _ => rfl
  | release t o =>
      simp only [System.step, Option.ite_none_right_eq_some] at hstep
      obtain ⟨-, hrelease⟩ := hstep
      obtain ⟨observing, hstep, rfl⟩ := Option.map_eq_some_iff.mp hrelease
      refine h.observe hstep (fun _ => rfl) fun o' k' hmem' => ?_
      rcases called_step (Observing.step_cases hstep) hmem' with hold | ⟨t', hact, -⟩ | ⟨t', hact, -⟩
      · exact .inl hold
      · exact absurd hact (by simp)
      · exact absurd hact (by simp)
  | call t k c =>
      simp only [System.step, Option.ite_none_right_eq_some] at hstep
      obtain ⟨⟨hidle, -⟩, hcall⟩ := hstep
      refine (h.more (a := .call t k c) fun _ => rfl).timer hcall rfl (.inl hidle) (.inl rfl)
        fun t' hc => .inl ⟨t, ?_⟩
      obtain ⟨-, rfl⟩ := Timer.Action.call.inj hc
      exact List.mem_append_right _ List.mem_cons_self
  | advance t => exact h.advance hstep

theorem run_inv (hrun : run System.step System.start as = some s) : Inv as none s :=
  run_history (I := fun as s => Inv as none s) inv_start inv_step hrun

omit [Fintype τ] [DecidableEq τ] [DecidableEq κ] in
/-- Who made timer `k` with a handler on this object. -/
theorem mem_given (o : Option ω) :
    .cancelTimer k ∈ as.filterMap (handlerFor o) ↔ ∃ t, .dispatchTimerObservable t o k ∈ as := by
  rw [List.mem_filterMap]
  constructor
  · rintro ⟨a, ha, hgiven⟩
    cases a with
    | dispatchTimerObservable t o' k' =>
        by_cases ho : o' = o
        · subst ho
          obtain rfl : k' = k := by simpa [handlerFor] using hgiven
          exact ⟨t, ha⟩
        · exact absurd hgiven (by simp [handlerFor, ho])
    | attach t o' hd =>
        by_cases ho : o' = o <;> exact absurd hgiven (by simp [handlerFor, ho])
    | _ => exact absurd hgiven (by simp [handlerFor])
  · rintro ⟨t, ht⟩
    exact ⟨_, ht, by simp [handlerFor]⟩

/-- **A timer bound to an object ends with it, and is not ended by anything else.** In every
interleaving of any number of threads, objects and timers, with other deallocation handlers and
with resumes, suspends and cancels anywhere: a timer made for an object is cancelled once the
object is gone, and a timer made for a null object from the start; when no thread is in a call, the
source of a cancelled timer has been cancelled exactly once and is not suspended, so it can be
released. And whatever timer is cancelled was cancelled by a call of `NPDispatchTimerCancel`, or
was made for a null object, or for an object that is not alive any more. -/
theorem timer_ends_with_observable [DecidableEq η] (as : List (Action τ ω κ η))
    (s : System τ ω κ η) (hrun : run System.step System.start as = some s) :
    (∀ t o k, .dispatchTimerObservable t (some o) k ∈ as → s.observing.objects o = .gone →
      ∃ w, s.timers k = some w ∧ w.timer.isCancelled = true)
    ∧ (∀ t k, .dispatchTimerObservable t none k ∈ as →
      ∃ w, s.timers k = some w ∧ w.timer.isCancelled = true)
    ∧ (∀ k w, s.timers k = some w → (∀ t, s.inCall t = none) → w.timer.isCancelled = true →
      w.cancels = 1 ∧ w.suspendCount = 0)
    ∧ ∀ k w, s.timers k = some w → w.timer.isCancelled = true →
      (∃ t, .call t k .timerCancel ∈ as) ∨ (∃ t, .dispatchTimerObservable t none k ∈ as)
        ∨ ∃ t o, .dispatchTimerObservable t (some o) k ∈ as ∧ s.observing.objects o ≠ .live := by
  have hinv := run_inv hrun
  obtain ⟨as', hrun', hgiven⟩ := hinv.reach
  obtain ⟨hcontrol, hhandlers⟩ := run_control_handlers hrun'
  obtain ⟨-, hrequested, hatonce⟩ := journal_run hrun'
  have hdone : ∀ o k, .cancelTimer k ∈ calledFor s.observing.journal o →
      ∃ w, s.timers k = some w ∧ w.timer.isCancelled = true := by
    intro o k hmem
    rcases hinv.cancelled o k hmem with hnone | hcancelled
    · exact absurd hnone (by simp)
    · exact hcancelled
  refine ⟨fun t o k hmem hgone => hdone (some o) k ?_, fun t k hmem => hdone none k ?_,
    fun k w hw hidle hcancelled => ?_, fun k w hw hcancelled => ?_⟩
  · -- all that was requested was attached, and all of that was called
    have hok := hhandlers.objects o
    rw [hgone] at hok
    have hsettled := hcontrol.settled (hcontrol.unused (by rw [hgone]; simp))
    rw [hrequested o, hgiven (some o), ← hok.of_gone.1] at hsettled
    exact hsettled.mem_iff.mpr (List.mem_append_right _ ((mem_given _).mpr ⟨t, hmem⟩))
  · rw [hatonce, hgiven none]
    exact List.mem_append_right _ ((mem_given _).mpr ⟨t, hmem⟩)
  · obtain ⟨hbalance, hsane⟩ := hinv.balance k w hw
    refine at_rest_cancelled hbalance hsane (fun t => ?_) hcancelled
    by_contra hbusy
    exact absurd ((hidle t).symm.trans (hinv.inCall k w t hw hbusy)) (by simp)
  · rcases hinv.onlyThen k w hw hcancelled with hcall | ⟨o, hmem⟩
    · exact .inl hcall
    · cases o with
      | none =>
          rw [hatonce, hgiven none] at hmem
          exact .inr (.inl ((mem_given _).mp (by simpa [Observing.System.start, calledFor] using hmem)))
      | some o =>
          have hattached := (hhandlers.objects o).called_part.subset hmem
          have hcount := hcontrol.requests o (.cancelTimer k)
          have hpos := List.count_pos_iff.mpr hattached
          have hasked : .cancelTimer k ∈ requestedFor s.observing.journal o :=
            List.count_pos_iff.mp (by omega)
          rw [hrequested o, hgiven (some o)] at hasked
          obtain ⟨t, ht⟩ := (mem_given (some o)).mp
            (by simpa [Observing.System.start, requestedFor] using hasked)
          refine .inr (.inr ⟨t, o, ht, fun hlive => ?_⟩)
          rw [hhandlers.live_called hlive] at hmem
          exact absurd hmem (by simp)

/-- A timer that is suspended when its object goes, and one for a null object. -/
def observableSchedule (t u : τ) (o : ω) (k k' : κ) : List (Action τ ω κ ℕ) :=
  [.dispatchTimerObservable t (some o) k, .advance t, .advance t, .advance t, .advance t,
    .advance t, .dispatchTimerObservable u none k', .advance u, .advance u, .call t k .timerSuspend,
    .advance t, .release u o, .advance u, .advance u, .advance u, .advance u, .advance u,
    .advance u]

theorem timer_ends_with_observable_suspended :
    ∃ s : System (Fin 2) (Fin 1) (Fin 2) ℕ, run System.step System.start
        (observableSchedule 0 1 0 0 1) = some s
      ∧ (∃ w, s.timers 0 = some w ∧ w.suspends = 1 ∧ w.cancels = 1 ∧ w.suspendCount = 0)
      ∧ ∃ w, s.timers 1 = some w ∧ w.timer.isCancelled = true := by
  obtain ⟨s, hrun⟩ : ∃ s : System (Fin 2) (Fin 1) (Fin 2) ℕ,
      run System.step System.start
        (observableSchedule 0 1 0 0 1) = some s := ⟨_, rfl⟩
  have hgone : s.observing.objects 0 = .gone := by rw [← Option.some.inj hrun]; rfl
  have hidle : ∀ t, s.inCall t = none := by
    rw [← Option.some.inj hrun]
    intro t
    match t with
    | 0 => rfl
    | 1 => rfl
  have hsuspends : ∀ w, s.timers 0 = some w → w.suspends = 1 := by
    rw [← Option.some.inj hrun]
    intro w hw
    obtain rfl := Option.some.inj hw
    rfl
  have hthm := timer_ends_with_observable _ s hrun
  obtain ⟨w, hw, hcancelled⟩ := hthm.1 0 0 0 (by decide) hgone
  exact ⟨s, hrun, ⟨w, hw, hsuspends w hw, hthm.2.2.1 0 w hw hidle hcancelled⟩,
    hthm.2.1 1 1 (by decide)⟩

end NPFoundation.Timer.Observable
