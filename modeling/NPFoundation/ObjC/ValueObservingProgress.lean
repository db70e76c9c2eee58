import NPFoundation.ObjC.ValueObservingHandlers
import Mathlib.Data.List.Perm.Subperm

/-!
# What was started gets done

The lock is only held in `NPAttachDeallocationHandler`, which calls nothing while it holds it.
So its holder is at the top of a stack and can go on, and whoever waits for it waits for a
thread that can. Every step of a thread takes away from the work there is: a handler that is
attached adds the call of it, but the frame that attached it was worth more.
-/

namespace NPFoundation.ObjC.Observing

open Transition Tally

variable {τ ω η : Type} [Fintype τ] [DecidableEq τ] [DecidableEq ω] [DecidableEq η]
  {s s' : System τ ω η} {t : τ}

/-! ## Who can go on -/

/-- A thread in the middle of something goes on, unless it waits for a lock that is taken. -/
theorem advance_enabled (hc : Control s) (h : Handlers s) {F : Frame ω η}
    {rest : List (Frame ω η)} (hframes : s.frames t = F :: rest)
    (hfree : ∀ o hd, F = .synchronize o hd → s.locks o = none) :
    ∃ s', s.advance t = some s' := by
  have hmem : F ∈ s.frames t := by rw [hframes]; exact List.mem_cons_self
  refine Option.isSome_iff_exists.mp ?_
  cases F with
  | synchronize o hd => simp [System.advance, hframes, hfree o hd rfl]
  | getAssociated o hd =>
      cases hassoc : s.associations o <;> simp [System.advance, hframes, hassoc]
  | create o hd => simp [System.advance, hframes]
  | addHandler o hd b =>
      obtain ⟨v, hv, -⟩ := h.owned o b (.inl (hc.found t o hd b hmem))
      simp [System.advance, hframes, hv]
  | unlock o => simp [System.advance, hframes]
  | handling hd => simp [System.advance, hframes]
  | destruct o => cases hassoc : s.associations o <;> simp [System.advance, hframes, hassoc]
  | dealloc o =>
      obtain ⟨b, n, hlife⟩ := hc.calling hmem
      obtain ⟨v, hv, -⟩ := h.owned o b (.inr ⟨n, hlife⟩)
      cases hnth : v.handlers[n]? <;> simp [System.advance, hframes, hlife, hv, hnth]

/-- The one in the block can go on. -/
theorem holder_advances (hc : Control s) (h : Handlers s) {o : ω} (hlock : s.locks o ≠ none) :
    ∃ t s', s.advance t = some s' := by
  have hpos : 0 < sightings Frame.critical o s.frames := by
    rw [hc.critical o]
    cases hl : s.locks o with
    | none => exact absurd hl hlock
    | some _ => exact Nat.one_pos
  obtain ⟨t, F, hF, hFo⟩ := sightings_pos.mp hpos
  obtain ⟨rest, hframes⟩ := hc.critical_top hF hFo
  refine ⟨t, advance_enabled hc h hframes fun o' hd hsync => ?_⟩
  rw [hsync] at hFo
  exact absurd hFo (by simp [Frame.critical])

/-! ## How much there is to do -/

/-- What is left of a frame. A handler that is attached is called later on. -/
def Frame.work : Frame ω η → ℕ
  | .synchronize _ _ => 7
  | .getAssociated _ _ => 6
  | .create _ _ => 5
  | .addHandler _ _ _ => 4
  | .unlock _ => 1
  | .handling _ => 1
  | .destruct _ => 2
  | .dealloc _ => 1

/-- The objects that handlers were attached to, once for each handler. -/
def attachments (journal : List (Event ω η)) : List ω :=
  journal.filterMap fun
    | .attached o _ => some o
    | _ => none

/-- The objects whose deallocation called a handler, once for each call. -/
def invocations (journal : List (Event ω η)) : List ω :=
  journal.filterMap fun
    | .called o _ => o
    | _ => none

/-- What the threads still have to do, and the handlers that are not called yet. -/
def System.work (s : System τ ω η) : ℕ :=
  total (fun stack => (stack.map Frame.work).sum) s.frames
    + 2 * ((attachments s.journal).length - (invocations s.journal).length)

omit [Fintype τ] [DecidableEq τ] [DecidableEq η] in
theorem count_attachments (journal : List (Event ω η)) (o : ω) :
    (attachments journal).count o = (attachedTo journal o).length := by
  induction journal using List.reverseRecOn with
  | nil => rfl
  | append_singleton journal e ih =>
      cases e with
      | attached o' hd =>
          by_cases ho : o' = o
          · subst ho
            simp [attachments] at ih ⊢
            omega
          · simp [attachments, ho] at ih ⊢
            exact ih
      | _ => simpa [attachments] using ih

omit [Fintype τ] [DecidableEq τ] [DecidableEq η] in
theorem count_invocations (journal : List (Event ω η)) (o : ω) :
    (invocations journal).count o = (calledFor journal (some o)).length := by
  induction journal using List.reverseRecOn with
  | nil => rfl
  | append_singleton journal e ih =>
      cases e with
      | called o' hd =>
          by_cases ho : o' = some o
          · subst ho
            simp [invocations] at ih ⊢
            omega
          · cases o' <;> simp_all [invocations]
      | _ => simpa [invocations] using ih

omit [Fintype τ] [DecidableEq τ] [DecidableEq η] in
/-- No more is called than was attached. -/
theorem invocations_le (h : Handlers s) :
    (invocations s.journal).length ≤ (attachments s.journal).length := by
  refine (List.subperm_ext_iff.mpr fun o _ => ?_).length_le
  rw [count_attachments, count_invocations]
  exact (h.objects o).called_part.length_le

attribute [local simp] System.setStack System.setObject System.setLock System.setAssociated
  System.setObserving System.note

omit [DecidableEq η] in
/-- Whoever goes on has less to do afterwards. -/
theorem work_advance (h : Handlers s) (h' : Handlers s') (hadvance : Advance s t s') :
    s'.work < s.work := by
  have hle := invocations_le h
  have hle' := invocations_le h'
  have hstack := fun stack =>
    total_update (fun stack : List (Frame ω η) => (stack.map Frame.work).sum) s.frames t stack
  unfold System.work
  cases hadvance with
  | synchronize o hd rest hframes hlock =>
      have hswap := hstack (.getAssociated o hd :: rest)
      simp [hframes, Frame.work] at hswap ⊢
      omega
  | absent o hd rest hframes hassoc =>
      have hswap := hstack (.create o hd :: rest)
      simp [hframes, Frame.work] at hswap ⊢
      omega
  | found o hd rest b hframes hassoc =>
      have hswap := hstack (.addHandler o hd b :: rest)
      simp [hframes, Frame.work] at hswap ⊢
      omega
  | create o hd rest hframes =>
      have hswap := hstack (.addHandler o hd s.next :: rest)
      simp [hframes, Frame.work, attachments, invocations] at hswap ⊢
      omega
  | addHandler o hd rest b v hframes hv =>
      have hswap := hstack (.unlock o :: rest)
      simp [hframes, Frame.work, attachments, invocations] at hswap hle hle' ⊢
      omega
  | unlock o rest hframes =>
      have hpop := hstack rest
      simp [hframes, Frame.work] at hpop ⊢
      omega
  | returned hd rest hframes =>
      have hpop := hstack rest
      simp [hframes, Frame.work] at hpop ⊢
      omega
  | destructed o rest hframes hassoc =>
      have hpop := hstack rest
      simp [hframes, Frame.work] at hpop ⊢
      omega
  | removeAssociations o rest b hframes hassoc =>
      have hswap := hstack (.dealloc o :: rest)
      simp [hframes, Frame.work] at hswap ⊢
      omega
  | call o rest b n v hd hframes hlife hv hnth =>
      have hpush := hstack (.handling hd :: .dealloc o :: rest)
      simp [hframes, Frame.work, attachments, invocations] at hpush hle hle' ⊢
      omega
  | finished o rest b n v hframes hlife hv hnth =>
      have hpop := hstack rest
      simp [hframes, Frame.work] at hpop ⊢
      omega

theorem work_run {as : List (Action τ ω η)} {ts : List τ}
    (hrun : run System.step System.start as = some s)
    (hmore : run System.step s (ts.map .advance) = some s') : ts.length + s'.work ≤ s.work := by
  induction ts generalizing s as with
  | nil =>
      obtain rfl := Option.some.inj hmore
      simp
  | cons t ts ih =>
      obtain ⟨s₁, hstep, hrest⟩ := run_cons_some.mp hmore
      have hrun₁ := run_snoc.mpr ⟨s, hrun, hstep⟩
      have hlater := ih hrun₁ hrest
      have hless := work_advance (run_control_handlers hrun).2 (run_control_handlers hrun₁).2
        (advance_cases hstep)
      rw [List.length_cons]
      omega

/-- **No deadlock, and every deallocation comes to its end.** From any state of any interleaving,
threads that only go on with what they are in the middle of do so for no more steps than there is
work; and when none of them can take another step, every call has returned, no lock is taken, and
every object is alive or gone, with each handler that was attached to it called. -/
theorem started_work_is_done (as : List (Action τ ω η)) (s : System τ ω η)
    (hrun : run System.step System.start as = some s) :
    (∀ (ts : List τ) s', run System.step s (ts.map .advance) = some s' → ts.length ≤ s.work)
    ∧ ((∀ t, s.advance t = none) →
      (∀ t, s.frames t = []) ∧ (∀ o, s.locks o = none)
        ∧ ∀ o, s.objects o = .live ∨ (s.objects o = .gone
          ∧ (calledFor s.journal (some o)).Perm (as.filterMap (Action.handlerFor (some o))))) := by
  obtain ⟨hcontrol, hhandlers⟩ := run_control_handlers hrun
  refine ⟨fun ts s' hmore => ?_, fun hstuck => ?_⟩
  · have hwork := work_run hrun hmore
    omega
  · have hlocks : ∀ o, s.locks o = none := by
      intro o
      by_contra hlock
      obtain ⟨t, s', hadvance⟩ := holder_advances hcontrol hhandlers hlock
      rw [hstuck t] at hadvance
      exact absurd hadvance (by simp)
    have hframes : ∀ t, s.frames t = [] := by
      intro t
      cases hstack : s.frames t with
      | nil => rfl
      | cons F rest =>
          obtain ⟨s', hadvance⟩ :=
            advance_enabled hcontrol hhandlers hstack fun o _ _ => hlocks o
          rw [hstuck t] at hadvance
          exact absurd hadvance (by simp)
    have hunseen : ∀ view : Frame ω η → Option ω, ∀ o, ¬ 0 < sightings view o s.frames := by
      intro view o hpos
      obtain ⟨t, F, hF, -⟩ := sightings_pos.mp hpos
      rw [hframes t] at hF
      exact absurd hF (by simp)
    refine ⟨hframes, hlocks, fun o => ?_⟩
    have hdestructs := hunseen Frame.destructs o
    have hdeallocs := hunseen Frame.deallocs o
    rw [hcontrol.destructs o] at hdestructs
    rw [hcontrol.deallocs o] at hdeallocs
    cases hlife : s.objects o with
    | live => exact .inl rfl
    | destructing =>
        rw [hlife] at hdestructs
        exact absurd Nat.one_pos hdestructs
    | calling b n =>
        rw [hlife] at hdeallocs
        exact absurd Nat.one_pos hdeallocs
    | gone =>
        have hok := hhandlers.objects o
        rw [hlife] at hok
        have hsettled := hcontrol.settled (hcontrol.unused (by rw [hlife]; simp))
        rw [(journal_run hrun).2.1 o, ← hok.of_gone.1] at hsettled
        exact .inr ⟨rfl, hsettled⟩

/-- Half way into two attachments, and at their end. -/
theorem started_work_is_done_race :
    (∃ s : System (Fin 2) (Fin 1) ℕ, run System.step System.start
        [.attach 0 (some 0) 10, .attach 1 (some 0) 20, .advance 1] = some s
      ∧ ∀ (ts : List (Fin 2)) s', run System.step s (ts.map .advance) = some s' →
        ts.length ≤ 13)
    ∧ ∃ s : System (Fin 2) (Fin 1) ℕ, run System.step System.start
        [.attach 0 (some 0) 10, .advance 0, .advance 0, .advance 0, .advance 0, .advance 0,
          .release 1 0, .advance 1, .advance 1, .advance 1, .advance 1] = some s
      ∧ ∀ t, s.frames t = [] := by
  obtain ⟨s, hrun⟩ : ∃ s : System (Fin 2) (Fin 1) ℕ, run System.step System.start
      [.attach 0 (some 0) 10, .attach 1 (some 0) 20, .advance 1] = some s := ⟨_, rfl⟩
  obtain ⟨s', hrun'⟩ : ∃ s : System (Fin 2) (Fin 1) ℕ, run System.step System.start
      [.attach 0 (some 0) 10, .advance 0, .advance 0, .advance 0, .advance 0, .advance 0,
        .release 1 0, .advance 1, .advance 1, .advance 1, .advance 1] = some s := ⟨_, rfl⟩
  have hwork : s.work = 13 := by
    rw [← Option.some.inj hrun]
    rfl
  have hstuck : ∀ t, s'.advance t = none := by
    rw [← Option.some.inj hrun']
    intro t
    match t with
    | 0 => rfl
    | 1 => rfl
  exact ⟨⟨s, hrun, hwork ▸ (started_work_is_done _ s hrun).1⟩, s', hrun',
    ((started_work_is_done _ s' hrun').2 hstuck).1⟩

end NPFoundation.ObjC.Observing
