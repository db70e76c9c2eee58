import NPFoundation.ObjC.ValueObservingControl
import Mathlib.Data.List.Perm.Basic

/-!
# Every handler is called once, in order

An object has at most one observing object in its life, found by its association first and
then by its deallocation, and nobody else has that one. So the handlers it holds are the ones
that were attached to the object, in that order. The deallocation goes through them by index
while nobody can add to them any more.
-/

namespace NPFoundation.ObjC.Observing

open Transition Tally

variable {τ ω η : Type}

/-- How far an object has got, its association, and what the journal says of it: the handlers
attached, the handlers called, and how many observing objects were made. -/
inductive ObjectOk : Lifetime → Option ℕ → List η → List η → ℕ → Prop where
  | unobserved (life : Lifetime) (hlife : life = .live ∨ life = .destructing) :
      ObjectOk life none [] [] 0
  | observed (life : Lifetime) (b : ℕ) (attached : List η)
      (hlife : life = .live ∨ life = .destructing) : ObjectOk life (some b) attached [] 1
  | calling (b n : ℕ) (attached : List η) (hn : n ≤ attached.length) :
      ObjectOk (.calling b n) none attached (attached.take n) 1
  | gone (attached : List η) (created : ℕ) (hcreated : created ≤ 1) :
      ObjectOk .gone none attached attached created

namespace ObjectOk

variable {life : Lifetime} {association : Option ℕ} {attached called : List η} {created b n : ℕ}

theorem of_none (h : ObjectOk life none attached called created)
    (hlife : life = .live ∨ life = .destructing) :
    attached = [] ∧ called = [] ∧ created = 0 := by
  cases h with
  | unobserved => exact ⟨rfl, rfl, rfl⟩
  | calling => simp at hlife
  | gone => simp at hlife

theorem of_some (h : ObjectOk life (some b) attached called created) :
    (life = .live ∨ life = .destructing) ∧ called = [] ∧ created = 1 := by
  cases h with
  | observed _ _ _ hlife => exact ⟨hlife, rfl, rfl⟩

theorem of_calling (h : ObjectOk (.calling b n) association attached called created) :
    association = none ∧ n ≤ attached.length ∧ called = attached.take n ∧ created = 1 := by
  cases h with
  | unobserved _ hlife => simp at hlife
  | observed _ _ _ hlife => simp at hlife
  | calling _ _ _ hn => exact ⟨rfl, hn, rfl, rfl⟩

theorem of_gone (h : ObjectOk .gone association attached called created) :
    called = attached ∧ association = none := by
  cases h with
  | unobserved _ hlife => simp at hlife
  | observed _ _ _ hlife => simp at hlife
  | gone => exact ⟨rfl, rfl⟩

/-- What was called is a first part of what was attached. -/
theorem called_part (h : ObjectOk life association attached called created) :
    called <+: attached := by
  cases h with
  | unobserved => exact List.nil_prefix
  | observed => exact List.nil_prefix
  | calling b n attached hn => exact List.take_prefix n attached
  | gone => exact List.prefix_rfl

theorem created_le (h : ObjectOk life association attached called created) : created ≤ 1 := by
  cases h with
  | unobserved => exact Nat.zero_le 1
  | observed => exact Nat.le_refl 1
  | calling => exact Nat.le_refl 1
  | gone _ _ hcreated => exact hcreated

end ObjectOk

/-- The observing object of `o`. -/
def System.Owns (s : System τ ω η) (o : ω) (b : ℕ) : Prop :=
  s.associations o = some b ∨ ∃ n, s.objects o = .calling b n

structure Handlers [DecidableEq ω] (s : System τ ω η) : Prop where
  objects : ∀ o, ObjectOk (s.objects o) (s.associations o) (attachedTo s.journal o)
    (calledFor s.journal o) (createdFor s.journal o)
  owned : ∀ o b, s.Owns o b →
    ∃ v, s.observings b = some v ∧ v.handlers = attachedTo s.journal o
  owner : ∀ o o' b, s.Owns o b → s.Owns o' b → o = o'
  kept : ∀ b v, s.observings b = some v → b < s.next ∧ ∃ o, s.Owns o b

/-- The handler of a call of `NPAttachDeallocationHandler` on this object. -/
def Action.handlerFor [DecidableEq ω] (observable : Option ω) : Action τ ω η → Option η
  | .attach _ o h => if o = observable then some h else none
  | _ => none

section Steps

variable [DecidableEq ω] {s s' : System τ ω η} {o : ω}

attribute [local simp] System.setStack System.setObject System.setLock System.setAssociated
  System.setObserving System.note

theorem handlers_start : Handlers (System.start : System τ ω η) where
  objects _ := .unobserved .live (.inl rfl)
  owned o b h := by
    rcases h with h | ⟨n, h⟩ <;> exact absurd h (by simp [System.start])
  owner o o' b h := by
    rcases h with h | ⟨n, h⟩ <;> exact absurd h (by simp [System.start])
  kept b v h := absurd h (by simp [System.start])

/-- An object that is alive has had no handler called. -/
theorem Handlers.live_called (h : Handlers s) (hlife : s.objects o = .live) :
    calledFor s.journal (some o) = [] := by
  have hok := h.objects o
  rw [hlife] at hok
  cases hassoc : s.associations o with
  | none =>
      rw [hassoc] at hok
      exact (hok.of_none (.inl rfl)).2.1
  | some b =>
      rw [hassoc] at hok
      exact hok.of_some.2.1

/-- Nothing changes hands. -/
theorem Handlers.same (h : Handlers s) (hobservings : s'.observings = s.observings)
    (hnext : s'.next = s.next) (howns : ∀ o b, s'.Owns o b ↔ s.Owns o b)
    (hattached : ∀ o, attachedTo s'.journal o = attachedTo s.journal o) :
    (∀ o b, s'.Owns o b → ∃ v, s'.observings b = some v ∧ v.handlers = attachedTo s'.journal o)
      ∧ (∀ o o' b, s'.Owns o b → s'.Owns o' b → o = o')
      ∧ ∀ b v, s'.observings b = some v → b < s'.next ∧ ∃ o, s'.Owns o b := by
  simp only [hobservings, hnext, howns, hattached]
  exact ⟨h.owned, h.owner, h.kept⟩

variable [Fintype τ] [DecidableEq τ] [DecidableEq η] {t : τ} {a : Action τ ω η}

theorem objects_step (hc : Control s) (h : Handlers s) (hstep : Step s a s') (o : ω) :
    ObjectOk (s'.objects o) (s'.associations o) (attachedTo s'.journal o)
      (calledFor s'.journal o) (createdFor s'.journal o) := by
  have hold := h.objects o
  cases hstep with
  | callNow t hd huser => simpa using hold
  | attach t o' hd huser hlife => simpa using hold
  | release t o' huser hlife hunused =>
      by_cases ho : o = o'
      · subst ho
        rw [hlife] at hold
        cases hassoc : s.associations o with
        | none =>
            rw [hassoc] at hold
            obtain ⟨hattached, hcalled, hcreated⟩ := hold.of_none (.inl rfl)
            simpa [hassoc, hattached, hcalled, hcreated] using
              ObjectOk.unobserved .destructing (.inr rfl)
        | some b =>
            rw [hassoc] at hold
            obtain ⟨-, hcalled, hcreated⟩ := hold.of_some
            simpa [hassoc, hcalled, hcreated] using
              ObjectOk.observed .destructing b (attachedTo s.journal o) (.inr rfl)
      · simpa [ho] using hold
  | advance t s' hadvance =>
      cases hadvance with
      | create o' hd rest hframes =>
          by_cases ho : o = o'
          · subst ho
            have hmem : .create o hd ∈ s.frames t := by rw [hframes]; exact List.mem_cons_self
            have hlive := hc.referenced t _ hmem o rfl
            rw [hlive, hc.absent t o hd hmem] at hold
            obtain ⟨hattached, hcalled, hcreated⟩ := hold.of_none (.inl rfl)
            simpa [hlive, hattached, hcalled, hcreated] using
              ObjectOk.observed .live s.next [] (.inl rfl)
          · have ho' : o' ≠ o := fun hc => ho hc.symm
            simpa [ho, ho'] using hold
      | addHandler o' hd rest b v hframes hv =>
          by_cases ho : o = o'
          · subst ho
            have hmem : .addHandler o hd b ∈ s.frames t := by
              rw [hframes]
              exact List.mem_cons_self
            have hassoc := hc.found t o hd b hmem
            rw [hassoc] at hold
            obtain ⟨hlife, hcalled, hcreated⟩ := hold.of_some
            simpa [hassoc, hcalled, hcreated] using
              ObjectOk.observed _ b (attachedTo s.journal o ++ [hd]) hlife
          · have ho' : o' ≠ o := fun hc => ho hc.symm
            simpa [ho'] using hold
      | destructed o' rest hframes hassoc =>
          by_cases ho : o = o'
          · subst ho
            rw [hc.destructing hframes, hassoc] at hold
            obtain ⟨hattached, hcalled, hcreated⟩ := hold.of_none (.inr rfl)
            simpa [hassoc, hattached, hcalled, hcreated] using
              ObjectOk.gone [] 0 (Nat.zero_le 1)
          · simpa [ho] using hold
      | removeAssociations o' rest b hframes hassoc =>
          by_cases ho : o = o'
          · subst ho
            rw [hassoc] at hold
            obtain ⟨hlife, hcalled, hcreated⟩ := hold.of_some
            simpa [hcalled, hcreated] using
              ObjectOk.calling b 0 (attachedTo s.journal o) (Nat.zero_le _)
          · simpa [ho] using hold
      | call o' rest b n v hd hframes hlife hv hnth =>
          by_cases ho : o = o'
          · subst ho
            rw [hlife] at hold
            obtain ⟨hassoc, hn, hcalled, hcreated⟩ := hold.of_calling
            obtain ⟨v', hv', hattached⟩ := h.owned o b (.inr ⟨n, hlife⟩)
            obtain rfl : v = v' := Option.some.inj (hv.symm.trans hv')
            rw [hattached] at hnth
            have hlt := (List.getElem?_eq_some_iff.mp hnth).1
            have htake : (attachedTo s.journal o).take n ++ [hd]
                = (attachedTo s.journal o).take (n + 1) := by
              rw [List.take_add_one, hnth]
              rfl
            simpa [hassoc, hcalled, hcreated, htake] using
              ObjectOk.calling b (n + 1) (attachedTo s.journal o) hlt
          · have ho' : o' ≠ o := fun hc => ho hc.symm
            simpa [ho, ho'] using hold
      | finished o' rest b n v hframes hlife hv hnth =>
          by_cases ho : o = o'
          · subst ho
            rw [hlife] at hold
            obtain ⟨hassoc, hn, hcalled, hcreated⟩ := hold.of_calling
            obtain ⟨v', hv', hattached⟩ := h.owned o b (.inr ⟨n, hlife⟩)
            obtain rfl : v = v' := Option.some.inj (hv.symm.trans hv')
            rw [hattached, List.getElem?_eq_none_iff] at hnth
            rw [List.take_of_length_le hnth] at hcalled
            simpa [hassoc, hcalled, hcreated] using
              ObjectOk.gone (attachedTo s.journal o) 1 (Nat.le_refl 1)
          · simpa [ho] using hold
      | _ => exact hold

theorem owns_step (hc : Control s) (h : Handlers s) (hstep : Step s a s') :
    (∀ o b, s'.Owns o b → ∃ v, s'.observings b = some v ∧ v.handlers = attachedTo s'.journal o)
      ∧ (∀ o o' b, s'.Owns o b → s'.Owns o' b → o = o')
      ∧ ∀ b v, s'.observings b = some v → b < s'.next ∧ ∃ o, s'.Owns o b := by
  cases hstep with
  | callNow t hd huser => exact h.same rfl rfl (fun _ _ => Iff.rfl) (by simp)
  | attach t o' hd huser hlife => exact h.same rfl rfl (fun _ _ => Iff.rfl) (by simp)
  | release t o' huser hlife hunused =>
      refine h.same rfl rfl (fun o b => ?_) (fun _ => rfl)
      by_cases ho : o = o'
      · subst ho
        simp [System.Owns, hlife]
      · simp [System.Owns, ho]
  | advance t s' hadvance =>
      cases hadvance with
      | create o' hd rest hframes =>
          have hmem : .create o' hd ∈ s.frames t := by rw [hframes]; exact List.mem_cons_self
          have hlive := hc.referenced t _ hmem o' rfl
          have hassoc := hc.absent t o' hd hmem
          -- the others keep theirs, which has a smaller number
          have howns : ∀ o b, s.Owns o b → b < s.next ∧ o ≠ o' := by
            intro o b hob
            obtain ⟨v, hv, -⟩ := h.owned o b hob
            refine ⟨(h.kept b v hv).1, ?_⟩
            rintro rfl
            rcases hob with hob | ⟨n, hob⟩
            · exact absurd (hassoc.symm.trans hob) (by simp)
            · exact absurd (hlive.symm.trans hob) (by simp)
          have hnew : ∀ o b, ({ s.setObserving s.next (some .init) with
              next := s.next + 1 }.setAssociated o' (some s.next)).Owns o b
                ↔ s.Owns o b ∨ (o = o' ∧ b = s.next) := by
            intro o b
            by_cases ho : o = o'
            · subst ho
              simp [System.Owns, hassoc, hlive, eq_comm]
            · simp [System.Owns, ho]
          refine ⟨fun o b hob => ?_, fun o₁ o₂ b h₁ h₂ => ?_, fun b v hv => ?_⟩
          · rcases (hnew o b).mp hob with hob | ⟨rfl, rfl⟩
            · obtain ⟨v, hv, hattached⟩ := h.owned o b hob
              have hne : b ≠ s.next := Nat.ne_of_lt (howns o b hob).1
              exact ⟨v, by simpa [hne] using hv, by simpa using hattached⟩
            · have hnone := h.objects o
              rw [hlive, hassoc] at hnone
              exact ⟨.init, by simp, by simp [ValueObserving.init, (hnone.of_none (.inl rfl)).1]⟩
          · rcases (hnew o₁ b).mp h₁ with hold₁ | ⟨ho₁, hb₁⟩ <;>
              rcases (hnew o₂ b).mp h₂ with hold₂ | ⟨ho₂, hb₂⟩
            · exact h.owner o₁ o₂ b hold₁ hold₂
            · exact absurd (howns o₁ b hold₁).1 (by omega)
            · exact absurd (howns o₂ b hold₂).1 (by omega)
            · rw [ho₁, ho₂]
          · by_cases hb : b = s.next
            · subst hb
              exact ⟨Nat.lt_succ_self _, o', (hnew o' _).mpr (.inr ⟨rfl, rfl⟩)⟩
            · obtain ⟨hlt, o, hob⟩ := h.kept b v (by simpa [hb] using hv)
              exact ⟨Nat.lt_succ_of_lt hlt, o, (hnew o b).mpr (.inl hob)⟩
      | addHandler o' hd rest b v hframes hv =>
          have hmem : .addHandler o' hd b ∈ s.frames t := by
            rw [hframes]
            exact List.mem_cons_self
          have hmine : s.Owns o' b := .inl (hc.found t o' hd b hmem)
          refine ⟨fun o c hoc => ?_, fun o₁ o₂ c h₁ h₂ => h.owner o₁ o₂ c h₁ h₂,
            fun c w hw => ?_⟩
          · obtain ⟨w, hw, hattached⟩ := h.owned o c hoc
            by_cases ho : o = o'
            · subst ho
              obtain ⟨w', hw', hattached'⟩ := h.owned o b hmine
              obtain rfl : v = w' := Option.some.inj (hv.symm.trans hw')
              have hcb : c = b := by
                rcases hoc with hoc | ⟨n, hoc⟩
                · exact Option.some.inj (hoc.symm.trans (hc.found t o hd b hmem))
                · exact absurd (hoc.symm.trans (hc.referenced t _ hmem o rfl)) (by simp)
              subst hcb
              exact ⟨_, by simp; rfl, by simp [ValueObserving.addObserverHandler, hattached']⟩
            · have hcb : c ≠ b := fun hcb => ho (h.owner o o' c hoc (hcb ▸ hmine))
              have ho' : o' ≠ o := fun hc => ho hc.symm
              exact ⟨w, by simpa [hcb] using hw, by simpa [ho'] using hattached⟩
          · by_cases hcb : c = b
            · subst hcb
              exact h.kept c v hv
            · exact h.kept c w (by simpa [hcb] using hw)
      | destructed o' rest hframes hassoc =>
          refine h.same rfl rfl (fun o b => ?_) (fun _ => rfl)
          by_cases ho : o = o'
          · subst ho
            simp [System.Owns, hc.destructing hframes]
          · simp [System.Owns, ho]
      | removeAssociations o' rest b hframes hassoc =>
          refine h.same rfl rfl (fun o b' => ?_) (fun _ => rfl)
          by_cases ho : o = o'
          · subst ho
            simp [System.Owns, hc.destructing hframes, hassoc]
          · simp [System.Owns, ho]
      | call o' rest b n v hd hframes hlife hv hnth =>
          refine h.same rfl rfl (fun o b' => ?_) (by simp)
          by_cases ho : o = o'
          · subst ho
            simp [System.Owns, hlife]
          · simp [System.Owns, ho]
      | finished o' rest b n v hframes hlife hv hnth =>
          have hmine : s.Owns o' b := .inr ⟨n, hlife⟩
          have hnone : s.associations o' = none := by
            have hok := h.objects o'
            rw [hlife] at hok
            exact hok.of_calling.1
          have hleft : ∀ o c, ((s.setObserving b none).setObject o' .gone).Owns o c
              ↔ s.Owns o c ∧ o ≠ o' := by
            intro o c
            by_cases ho : o = o'
            · subst ho
              simp [System.Owns, hnone]
            · simp [System.Owns, ho]
          refine ⟨fun o c hoc => ?_, fun o₁ o₂ c h₁ h₂ => ?_, fun c w hw => ?_⟩
          · obtain ⟨hoc, ho⟩ := (hleft o c).mp hoc
            obtain ⟨w, hw, hattached⟩ := h.owned o c hoc
            have hcb : c ≠ b := fun hcb => ho (h.owner o o' c hoc (hcb ▸ hmine))
            exact ⟨w, by simpa [hcb] using hw, hattached⟩
          · exact h.owner o₁ o₂ c ((hleft o₁ c).mp h₁).1 ((hleft o₂ c).mp h₂).1
          · by_cases hcb : c = b
            · subst hcb
              exact absurd hw (by simp)
            · obtain ⟨hlt, o, hoc⟩ := h.kept c w (by simpa [hcb] using hw)
              refine ⟨hlt, o, (hleft o c).mpr ⟨hoc, ?_⟩⟩
              rintro rfl
              rcases hoc with hoc | ⟨m, hoc⟩
              · exact absurd (hnone.symm.trans hoc) (by simp)
              · rw [hlife] at hoc
                exact hcb (Lifetime.calling.inj hoc).1.symm
      | _ => exact h.same rfl rfl (fun _ _ => Iff.rfl) (fun _ => rfl)

theorem handlers_step (hc : Control s) (h : Handlers s) (hstep : Step s a s') : Handlers s' where
  objects := objects_step hc h hstep
  owned := (owns_step hc h hstep).1
  owner := (owns_step hc h hstep).2.1
  kept := (owns_step hc h hstep).2.2

/-- Both hold in every state of every run. -/
theorem run_control_handlers {as : List (Action τ ω η)}
    (hrun : run System.step (System.start : System τ ω η) as = some s) :
    Control s ∧ Handlers s :=
  run_invariant (I := fun s => Control s ∧ Handlers s)
    (fun hs hstep => ⟨control_step hs.1 (step_cases hstep),
      handlers_step hs.1 hs.2 (step_cases hstep)⟩) ⟨control_start, handlers_start⟩ hrun

/-! ## The journal and the schedule -/

omit [DecidableEq η] in
theorem journal_step (hstep : Step s a s') :
    (∃ events, s'.journal = s.journal ++ events)
      ∧ (∀ o, requestedFor s'.journal o
        = requestedFor s.journal o ++ (a.handlerFor (some o)).toList)
      ∧ calledFor s'.journal none = calledFor s.journal none ++ (a.handlerFor none).toList := by
  cases hstep with
  | callNow t hd huser =>
      refine ⟨⟨_, rfl⟩, fun o => ?_, ?_⟩ <;> simp [Action.handlerFor]
  | attach t o' hd huser hlife =>
      refine ⟨⟨_, rfl⟩, fun o => ?_, ?_⟩
      · by_cases ho : o' = o
        · subst ho
          simp [Action.handlerFor]
        · simp [Action.handlerFor, ho]
      · simp [Action.handlerFor]
  | release t o' huser hlife hunused =>
      exact ⟨⟨[], by simp⟩, fun o => by simp [Action.handlerFor], by simp [Action.handlerFor]⟩
  | advance t s' hadvance =>
      cases hadvance with
      | create o' hd rest hframes =>
          refine ⟨⟨_, rfl⟩, fun o => ?_, ?_⟩ <;> simp [Action.handlerFor]
      | addHandler o' hd rest b v hframes hv =>
          refine ⟨⟨_, rfl⟩, fun o => ?_, ?_⟩ <;> simp [Action.handlerFor]
      | call o' rest b n v hd hframes hlife hv hnth =>
          refine ⟨⟨_, rfl⟩, fun o => ?_, ?_⟩ <;> simp [Action.handlerFor]
      | _ => exact ⟨⟨[], by simp⟩, fun o => by simp [Action.handlerFor], by simp [Action.handlerFor]⟩

omit [DecidableEq η] in
/-- A run adds to the journal, and asks for the handlers of its calls. -/
theorem journal_run {as : List (Action τ ω η)} (hrun : run System.step s as = some s') :
    (∃ events, s'.journal = s.journal ++ events)
      ∧ (∀ o, requestedFor s'.journal o
        = requestedFor s.journal o ++ as.filterMap (Action.handlerFor (some o)))
      ∧ calledFor s'.journal none
        = calledFor s.journal none ++ as.filterMap (Action.handlerFor none) := by
  induction as generalizing s with
  | nil =>
      obtain rfl := Option.some.inj hrun
      exact ⟨⟨[], by simp⟩, by simp, by simp⟩
  | cons a as ih =>
      obtain ⟨s₁, hstep, hrest⟩ := run_cons_some.mp hrun
      obtain ⟨⟨events, hevents⟩, hrequested, hcalled⟩ := journal_step (step_cases hstep)
      obtain ⟨⟨later, hlater⟩, hrequested', hcalled'⟩ := ih hrest
      refine ⟨⟨events ++ later, ?_⟩, fun o => ?_, ?_⟩
      · rw [hlater, hevents, List.append_assoc]
      · rw [hrequested', hrequested, List.append_assoc]
        cases h : a.handlerFor (some o) <;> simp [h]
      · rw [hcalled', hcalled, List.append_assoc]
        cases h : a.handlerFor (none : Option ω) <;> simp [h]

omit [DecidableEq τ] in
/-- While no call on `o` is in progress, what was requested is attached. -/
theorem Control.settled (h : Control s) (hunused : s.Unused o) :
    (attachedTo s.journal o).Perm (requestedFor s.journal o) := by
  refine List.perm_iff_count.mpr fun hd => ?_
  rw [h.requests o hd]
  have hnone : ¬ 0 < sightings Frame.owes (o, hd) s.frames := by
    intro hpos
    obtain ⟨t, F, hF, howes⟩ := sightings_pos.mp hpos
    refine hunused t F hF ?_
    cases F <;> simp_all [Frame.owes, Frame.attaching]
  omega

omit [DecidableEq τ] in
/-- An object that is not alive is not attached to. -/
theorem Control.unused (h : Control s) (hlife : s.objects o ≠ .live) : s.Unused o :=
  fun t F hF hattaching => hlife (h.referenced t F hF o hattaching)

/-- How many calls on `o` with this handler are in progress that have not attached it yet. A call
that has returned is none of them. -/
def System.pending (s : System τ ω η) (o : ω) (hd : η) : ℕ :=
  sightings Frame.owes (o, hd) s.frames

omit [DecidableEq τ] in
/-- What was requested before one moment and attached before another, in terms of what was pending
then. -/
theorem Control.attached_between {s₀ : System τ ω η} (hcontrol₀ : Control s₀) (hcontrol : Control s)
    {requested : List η} {events : List (Event ω η)} (hjournal : s.journal = s₀.journal ++ events)
    (hrequested : requestedFor s.journal o = requestedFor s₀.journal o ++ requested) (hd : η) :
    (attachedTo events o).count hd + s.pending o hd = requested.count hd + s₀.pending o hd := by
  have hbefore := hcontrol₀.requests o hd
  have hafter := hcontrol.requests o hd
  rw [hrequested, hjournal, attachedTo_append, List.count_append, List.count_append] at hafter
  unfold System.pending
  omega

/-- **Every deallocation handler is called exactly once.** In every interleaving of any number of
threads that attach handlers to any number of objects and drop their last references, handlers
among them: the handlers of an object are not called while it is alive; its deallocation calls
them in the order in which they were attached; when it is gone, each was called as often as a call
was made with it. Wherever the schedule is cut in two, the order is cut in two as well: first the
handlers of the calls made by then, but for those that were still pending, and then those and the
handlers of the calls made later. With a null object the handler is called at once. -/
theorem handlers_called_exactly_once (as : List (Action τ ω η)) (s : System τ ω η)
    (hrun : run System.step System.start as = some s) :
    (∀ o, s.objects o = .live → calledFor s.journal (some o) = [])
    ∧ (∀ o, calledFor s.journal (some o) <+: attachedTo s.journal o)
    ∧ (∀ o, s.objects o = .gone →
      calledFor s.journal (some o) = attachedTo s.journal o
        ∧ (calledFor s.journal (some o)).Perm (as.filterMap (Action.handlerFor (some o))))
    ∧ (∀ pre post s₀ o, as = pre ++ post → run System.step System.start pre = some s₀ →
      ∃ earlier later, attachedTo s.journal o = earlier ++ later ∧ ∀ hd,
        earlier.count hd + s₀.pending o hd
            = (pre.filterMap (Action.handlerFor (some o))).count hd
          ∧ later.count hd + s.pending o hd
            = (post.filterMap (Action.handlerFor (some o))).count hd + s₀.pending o hd)
    ∧ calledFor s.journal none = as.filterMap (Action.handlerFor none) := by
  obtain ⟨hcontrol, hhandlers⟩ := run_control_handlers hrun
  obtain ⟨-, hrequested, hatonce⟩ := journal_run hrun
  refine ⟨fun o hlife => ?_, fun o => ?_, fun o hlife => ?_, fun pre post s₀ o has hpre => ?_,
    hatonce⟩
  · exact hhandlers.live_called hlife
  · exact (hhandlers.objects o).called_part
  · have hok := hhandlers.objects o
    rw [hlife] at hok
    have hall := hok.of_gone.1
    have hsettled := hcontrol.settled (hcontrol.unused (by rw [hlife]; simp))
    rw [hrequested o] at hsettled
    exact ⟨hall, hall ▸ hsettled⟩
  · obtain ⟨hcontrol₀, -⟩ := run_control_handlers hpre
    rw [has] at hrun
    obtain ⟨s₁, hpre₁, hpost⟩ := run_append_some.mp hrun
    obtain rfl : s₀ = s₁ := Option.some.inj (hpre.symm.trans hpre₁)
    obtain ⟨-, hrequested₀, -⟩ := journal_run hpre
    obtain ⟨⟨events, hevents⟩, hrequested₁, -⟩ := journal_run hpost
    refine ⟨attachedTo s₀.journal o, attachedTo events o, ?_, fun hd => ⟨?_, ?_⟩⟩
    · rw [hevents, attachedTo_append]
    · -- nothing was requested before the start
      have hall := hcontrol₀.requests o hd
      rw [hrequested₀ o] at hall
      exact hall.symm
    · exact hcontrol₀.attached_between hcontrol hevents (hrequested₁ o) hd

/-- Two threads that attach to the same new object, and a third that waits for them and drops it;
the second handler drops another object while it runs. -/
def attachSchedule (t u w : τ) (o o' : ω) : List (Action τ ω ℕ) :=
  [.attach t (some o) 10, .attach u (some o) 20, .attach w (some o') 30, .advance u, .advance u,
    .advance w, .advance w, .advance w, .advance w, .advance w, .advance u, .advance u, .advance u,
    .advance t, .advance t, .advance t, .advance t, .attach w none 40, .advance w, .release w o,
    .advance w, .advance w, .release w o', .advance w, .advance w, .advance w, .advance w,
    .advance w, .advance w, .advance w, .advance w]

theorem handlers_called_exactly_once_race :
    ∃ s : System (Fin 3) (Fin 2) ℕ, run System.step System.start (attachSchedule 0 1 2 0 1) = some s
      ∧ s.objects 0 = .gone ∧ calledFor s.journal (some 0) = [20, 10]
      ∧ [20, 10].Perm ((attachSchedule (0 : Fin 3) 1 2 0 1).filterMap
        (Action.handlerFor (some (0 : Fin 2))))
      ∧ calledFor s.journal none = (attachSchedule (0 : Fin 3) 1 2 0 1).filterMap
        (Action.handlerFor (none : Option (Fin 2))) := by
  obtain ⟨s, hrun⟩ : ∃ s : System (Fin 3) (Fin 2) ℕ,
      run System.step System.start (attachSchedule 0 1 2 0 1) = some s := ⟨_, rfl⟩
  have hgone : s.objects 0 = .gone := by rw [← Option.some.inj hrun]; rfl
  have hcalled : calledFor s.journal (some 0) = [20, 10] := by
    rw [← Option.some.inj hrun]
    rfl
  have hthm := handlers_called_exactly_once _ s hrun
  exact ⟨s, hrun, hgone, hcalled, hcalled ▸ (hthm.2.2.1 0 hgone).2, hthm.2.2.2.2⟩

/-- **One observing object for each object.** In every interleaving: no two calls are in the
`@synchronized` block of one object; at most one observing object is ever made for it; and the
observing objects that exist are those of the objects that are not gone, each of which has its own.
So none is lost with the handlers it holds, and none is left behind. -/
theorem one_observing_object_each (as : List (Action τ ω η)) (s : System τ ω η)
    (hrun : run System.step System.start as = some s) :
    (∀ o t t' F G, F ∈ s.frames t → G ∈ s.frames t' → F.critical = some o →
      G.critical = some o → t = t' ∧ F = G)
    ∧ (∀ o, createdFor s.journal o ≤ 1)
    ∧ (∀ b v, s.observings b = some v → ∃! o, s.Owns o b)
    ∧ ∀ o b, s.Owns o b → s.objects o ≠ .gone ∧ (∃ v, s.observings b = some v)
      ∧ ∀ b', s.Owns o b' → b' = b := by
  obtain ⟨hcontrol, hhandlers⟩ := run_control_handlers hrun
  refine ⟨fun o t t' F G hF hG hFo hGo => ?_, fun o => ?_, fun b v hv => ?_, fun o b hob => ?_⟩
  · obtain ⟨rest, hframes⟩ := hcontrol.critical_top hF hFo
    obtain ⟨ht, hnot⟩ := hcontrol.alone hframes hFo hG hGo
    subst ht
    rw [hframes] at hG
    rcases List.mem_cons.mp hG with rfl | hG
    · exact ⟨rfl, rfl⟩
    · exact absurd hG hnot
  · exact (hhandlers.objects o).created_le
  · obtain ⟨-, o, hob⟩ := hhandlers.kept b v hv
    exact ⟨o, hob, fun o' ho' => hhandlers.owner o' o b ho' hob⟩
  · obtain ⟨v, hv, -⟩ := hhandlers.owned o b hob
    have hok := hhandlers.objects o
    rcases hob with hob | ⟨n, hob⟩
    · rw [hob] at hok
      have hlife := hok.of_some.1
      refine ⟨by rcases hlife with hlife | hlife <;> simp [hlife], ⟨v, hv⟩, fun b' hb' => ?_⟩
      rcases hb' with hb' | ⟨m, hb'⟩
      · exact Option.some.inj (hb'.symm.trans hob)
      · rcases hlife with hlife | hlife <;> exact absurd (hlife.symm.trans hb') (by simp)
    · refine ⟨by simp [hob], ⟨v, hv⟩, fun b' hb' => ?_⟩
      rw [hob] at hok
      rcases hb' with hb' | ⟨m, hb'⟩
      · exact absurd (hok.of_calling.1.symm.trans hb') (by simp)
      · exact (Lifetime.calling.inj (hb'.symm.trans hob)).1

/-- Halfway through `attachSchedule`: thread 1 is at the end of its `@synchronized` block, thread 0
waits for it. -/
theorem one_observing_object_each_race :
    ∃ s : System (Fin 3) (Fin 2) ℕ,
      run System.step System.start ((attachSchedule 0 1 2 0 1).take 12) = some s
      ∧ s.frames 0 = [.synchronize 0 10]
      ∧ (∃! o, s.Owns o 1)
      ∧ ∀ t G, G ∈ s.frames t → G.critical = some 0 → t = 1 ∧ G = .unlock 0 := by
  obtain ⟨s, hrun⟩ : ∃ s : System (Fin 3) (Fin 2) ℕ,
      run System.step System.start ((attachSchedule 0 1 2 0 1).take 12) = some s := ⟨_, rfl⟩
  have hframes : s.frames 0 = [.synchronize 0 10] ∧ s.frames 1 = [.unlock 0] := by
    rw [← Option.some.inj hrun]
    exact ⟨rfl, rfl⟩
  have hobserving : s.observings 1 = some ⟨[20]⟩ := by
    rw [← Option.some.inj hrun]
    rfl
  obtain ⟨halone, -, howner, -⟩ := one_observing_object_each _ s hrun
  refine ⟨s, hrun, hframes.1, howner 1 _ hobserving, fun t G hG hcritical => ?_⟩
  have hin : Frame.unlock 0 ∈ s.frames 1 := by
    rw [hframes.2]
    exact List.mem_cons_self
  exact halone 0 t 1 G (.unlock 0) hG hin hcritical rfl

end Steps

end NPFoundation.ObjC.Observing
