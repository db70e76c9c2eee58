import Mathlib.Algebra.GroupWithZero.Nat
import Mathlib.Data.List.Infix

/-!
# Runs of a partial step function

A system is a state type, an action type and a partial step function: `none`
means the action is not enabled (or is not a legal use of the system). Everything
else in the development is stated over `run`, so the three facts every proof
needs are collected here once:

* a run of a concatenation is a run followed by a run;
* what one step preserves, a whole run preserves;
* the same when every step is only promised to preserve the invariant under a
  side condition, which `Along` threads through the run.
-/

namespace Transition

variable {σ α : Type*} {step : σ → α → Option σ}

/-- Perform the actions in order; `none` as soon as one is not enabled. -/
def run (step : σ → α → Option σ) : σ → List α → Option σ
  | s, [] => some s
  | s, a :: as => (step s a).bind fun s' => run step s' as

@[simp] theorem run_nil (s : σ) : run step s [] = some s := rfl

theorem run_cons (s : σ) (a : α) (as : List α) :
    run step s (a :: as) = (step s a).bind fun s' => run step s' as := rfl

/-- A non-empty run is a step followed by a run. -/
theorem run_cons_some {s s'' : σ} {a : α} {as : List α} :
    run step s (a :: as) = some s'' ↔ ∃ s', step s a = some s' ∧ run step s' as = some s'' := by
  rw [run_cons, Option.bind_eq_some_iff]

theorem run_append (s : σ) (as bs : List α) :
    run step s (as ++ bs) = (run step s as).bind fun s' => run step s' bs := by
  induction as generalizing s with
  | nil => rfl
  | cons a as ih =>
      rw [List.cons_append, run_cons, run_cons]
      cases step s a with
      | none => rfl
      | some s' => exact ih s'

theorem run_append_some {s s'' : σ} {as bs : List α} :
    run step s (as ++ bs) = some s'' ↔
      ∃ s', run step s as = some s' ∧ run step s' bs = some s'' := by
  rw [run_append, Option.bind_eq_some_iff]

/-- A run extended by one action. -/
theorem run_snoc {s s'' : σ} {as : List α} {a : α} :
    run step s (as ++ [a]) = some s'' ↔
      ∃ s', run step s as = some s' ∧ step s' a = some s'' := by
  rw [run_append_some]
  simp only [run_cons_some, run_nil, Option.some.injEq, exists_eq_right]

/-- A system inside of another goes through the same runs. -/
theorem run_map {τ β : Type*} {step' : τ → β → Option τ} (e : σ → τ) (g : α → β)
    (h : ∀ s a, step' (e s) (g a) = (step s a).map e) (s : σ) (as : List α) :
    run step' (e s) (as.map g) = (run step s as).map e := by
  induction as generalizing s with
  | nil => rfl
  | cons a as ih =>
      rw [List.map_cons, run_cons, run_cons, h]
      cases step s a with
      | none => rfl
      | some s' => exact ih s'

/-- Actions under other names. -/
theorem run_actions {β : Type*} (g : β → α) (s : σ) (bs : List β) :
    run step s (bs.map g) = run (fun s b => step s (g b)) s bs := by
  induction bs generalizing s with
  | nil => rfl
  | cons b bs ih =>
      rw [List.map_cons, run_cons, run_cons]
      cases step s (g b) with
      | none => rfl
      | some s' => exact ih s'

/-- Two systems that go through their runs side by side. -/
theorem run_both {τ : Type*} {step₂ : τ → α → Option τ} {both : σ × τ → α → Option (σ × τ)}
    (h : ∀ {s s' t t' a}, step s a = some s' → step₂ t a = some t' → both (s, t) a = some (s', t'))
    {as : List α} {s s' : σ} {t t' : τ} (hs : run step s as = some s')
    (ht : run step₂ t as = some t') : run both (s, t) as = some (s', t') := by
  induction as generalizing s t with
  | nil =>
      obtain rfl := Option.some.inj hs
      obtain rfl := Option.some.inj ht
      rfl
  | cons a as ih =>
      obtain ⟨s₁, hs₁, hs⟩ := run_cons_some.mp hs
      obtain ⟨t₁, ht₁, ht⟩ := run_cons_some.mp ht
      exact run_cons_some.mpr ⟨(s₁, t₁), h hs₁ ht₁, ih hs ht⟩

/-- **The invariant rule.** What every step preserves, every run preserves. -/
theorem run_invariant {I : σ → Prop}
    (hstep : ∀ {s a s'}, I s → step s a = some s' → I s') :
    ∀ {as : List α} {s s' : σ}, I s → run step s as = some s' → I s'
  | [], _, _, hs, h => by rw [run_nil, Option.some.injEq] at h; exact h ▸ hs
  | _ :: _, _, _, hs, h => by
      obtain ⟨s₁, h₁, h₂⟩ := run_cons_some.mp h
      exact run_invariant hstep (hstep hs h₁) h₂

/-- The invariant rule for what ties a state to the actions that led to it. -/
theorem run_history {I : List α → σ → Prop} {s₀ : σ} (hstart : I [] s₀)
    (hstep : ∀ {as s a s'}, I as s → step s a = some s' → I (as ++ [a]) s') {as : List α} {s : σ}
    (h : run step s₀ as = some s) : I as s := by
  induction as using List.reverseRecOn generalizing s with
  | nil => exact Option.some.inj h ▸ hstart
  | append_singleton as a ih =>
      obtain ⟨s₁, hrun, hlast⟩ := run_snoc.mp h
      exact hstep (ih hrun) hlast

/-! ## What is seen of a run -/

section Observed

variable {β : Type*} {f : σ → α → Option β}

/-- What `f` notes down of the steps of a run, from the state a step is taken in and its action. -/
def observed (step : σ → α → Option σ) (f : σ → α → Option β) : σ → List α → List β
  | _, [] => []
  | s, a :: as => (f s a).toList ++ ((step s a).map fun s' => observed step f s' as).getD []

/-- The last step comes last. -/
theorem observed_snoc {as : List α} {s s' : σ} {a : α} (h : run step s as = some s') :
    observed step f s (as ++ [a]) = observed step f s as ++ (f s' a).toList := by
  induction as generalizing s with
  | nil =>
      obtain rfl := Option.some.inj h
      rw [List.nil_append, observed, observed]
      cases step s a <;> simp [observed]
  | cons b as ih =>
      obtain ⟨s₁, h₁, hrest⟩ := run_cons_some.mp h
      rw [List.cons_append, observed, observed, h₁]
      simp only [Option.map_some, Option.getD_some]
      rw [ih hrest, List.append_assoc]

end Observed

/-! ## Side conditions along a run -/

/-- Every step of the run is taken in a state, and with an action, that `C` allows. -/
def Along (step : σ → α → Option σ) (C : σ → α → Prop) : σ → List α → Prop
  | _, [] => True
  | s, a :: as => C s a ∧ ∀ s', step s a = some s' → Along step C s' as

theorem along_cons {C : σ → α → Prop} {s s' : σ} {a : α} {as : List α}
    (h : step s a = some s') :
    Along step C s (a :: as) ↔ C s a ∧ Along step C s' as := by
  simp only [Along, h, Option.some.injEq]
  exact ⟨fun ⟨hc, hr⟩ => ⟨hc, hr s' rfl⟩, fun ⟨hc, hr⟩ => ⟨hc, fun _ he => he ▸ hr⟩⟩

/-- A condition on the actions alone holds along any run of such actions. -/
theorem along_of_forall {C : α → Prop} : ∀ {as : List α} (s : σ), (∀ a ∈ as, C a) →
    Along step (fun _ a => C a) s as
  | [], _, _ => trivial
  | a :: _, _, h => ⟨h a List.mem_cons_self,
      fun s' _ => along_of_forall s' fun b hb => h b (List.mem_cons_of_mem a hb)⟩

/-- Along a run and the one that goes on from it. -/
theorem along_append {C : σ → α → Prop} {as bs : List α} {s : σ} :
    Along step C s (as ++ bs)
      ↔ Along step C s as ∧ ∀ s', run step s as = some s' → Along step C s' bs := by
  induction as generalizing s with
  | nil => simp [Along]
  | cons a as ih =>
      simp only [List.cons_append, Along, ih, run_cons, Option.bind_eq_some_iff]
      constructor
      · rintro ⟨hc, hrest⟩
        refine ⟨⟨hc, fun s' hs' => (hrest s' hs').1⟩, ?_⟩
        rintro s'' ⟨s', hs', hrun⟩
        exact (hrest s' hs').2 s'' hrun
      · rintro ⟨⟨hc, hfirst⟩, hrest⟩
        exact ⟨hc, fun s' hs' => ⟨hfirst s' hs', fun s'' hrun => hrest s'' ⟨s', hs', hrun⟩⟩⟩

/-- A weaker condition holds along the same run. -/
theorem Along.mono {C D : σ → α → Prop} (hCD : ∀ s a, C s a → D s a) : ∀ {as : List α} {s : σ},
    Along step C s as → Along step D s as
  | [], _, _ => trivial
  | _ :: _, _, h => ⟨hCD _ _ h.1, fun s' hs' => Along.mono hCD (h.2 s' hs')⟩

/-- A condition that every state meets holds along any run. -/
theorem along_of_forall_states {C : σ → Prop} (h : ∀ s, C s) : ∀ {as : List α} (s : σ),
    Along step (fun s a => ∀ s', step s a = some s' → C s') s as
  | [], _ => trivial
  | _ :: _, _ => ⟨fun s' _ => h s', fun s' _ => along_of_forall_states h s'⟩

/-- **The invariant rule under a side condition.** -/
theorem run_invariant_along {C : σ → α → Prop} {I : σ → Prop}
    (hstep : ∀ {s a s'}, C s a → I s → step s a = some s' → I s') :
    ∀ {as : List α} {s s' : σ}, Along step C s as → I s → run step s as = some s' → I s'
  | [], _, _, _, hs, h => by rw [run_nil, Option.some.injEq] at h; exact h ▸ hs
  | _ :: _, _, _, hc, hs, h => by
      obtain ⟨s₁, h₁, h₂⟩ := run_cons_some.mp h
      obtain ⟨hca, hcr⟩ := (along_cons h₁).mp hc
      exact run_invariant_along hstep hcr (hstep hca hs h₁) h₂

end Transition
