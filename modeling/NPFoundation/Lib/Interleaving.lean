import NPFoundation.Lib.Effects

/-!
# Programs among others

A program makes its calls to a world that others change in between. A turn is a step of
the others, or the program's next call with the reply to it; which replies the world can
give, and what it is like afterwards, is `answer`.

`Secure` is a rely-guarantee specification: whatever the others do that `rely` allows, each
call of the program keeps `guar`, and what it returns meets `Q`. A call only has to do so
in a world that `cond` allows it in, so that a specification may depend on a condition on
the schedule.
-/

namespace Effects

open Transition

variable {W A C R α β : Type}

/-- What a program runs in. -/
structure Surroundings (W A C R : Type) where
  again : R → Bool
  /-- A step of the others. -/
  act : W → A → Option W
  /-- The world after a call is answered; `none` if this cannot be the answer. -/
  answer : W → C → R → Option W

/-- The world, and what is left of the program. -/
structure Midway (W C R α : Type) where
  world : W
  rest : Prog C R α

inductive Turn (A R : Type) where
  | others (a : A)
  | reply (r : R)

/-- One turn. -/
def Midway.turn (e : Surroundings W A C R) (m : Midway W C R α) :
    Turn A R → Option (Midway W C R α)
  | .others a => (e.act m.world a).map fun w => ⟨w, m.rest⟩
  | .reply r =>
      match m.rest with
      | .ret _ => none
      | .call c retried next =>
          (e.answer m.world c r).map fun w =>
            ⟨w, if retried && e.again r then .call c retried next else next r⟩

/-- The next call is made in a world it is meant for. -/
def Midway.Meets (cond : W → C → Prop) (m : Midway W C R α) : Turn A R → Prop
  | .others _ => True
  | .reply _ =>
      match m.rest with
      | .ret _ => True
      | .call c _ _ => cond m.world c

/-- What the others may do, in any number of steps. -/
structure Relies (e : Surroundings W A C R) (rely : W → W → Prop) : Prop where
  refl : ∀ w, rely w w
  trans : ∀ {w w' w''}, rely w w' → rely w' w'' → rely w w''
  act : ∀ {w a w'}, e.act w a = some w' → rely w w'

section

variable (e : Surroundings W A C R) (rely : W → W → Prop) (cond : W → C → Prop)
  (guar : W → W → Prop)

/-- From this world on, the program keeps `guar` and returns what meets `Q`. -/
def Secure (Q : α → W → Prop) : Prog C R α → W → Prop
  | .ret a, w => ∀ w', rely w w' → Q a w'
  | .call c retried next, w =>
      ∀ w₁, rely w w₁ → cond w₁ c → ∀ r w₂, e.answer w₁ c r = some w₂ →
        guar w₁ w₂ ∧ if retried && e.again r then rely w₁ w₂ else Secure Q (next r) w₂

end

variable {e : Surroundings W A C R} {rely guar : W → W → Prop} {cond : W → C → Prop}
  {Q Q' : α → W → Prop} {p : Prog C R α} {w w' : W}

/-- The others do not break it. -/
theorem secure_stable (he : Relies e rely) (h : Secure e rely cond guar Q p w) (hw : rely w w') :
    Secure e rely cond guar Q p w' := by
  cases p with
  | ret a => exact fun w'' hw' => h w'' (he.trans hw hw')
  | call c retried next => exact fun w₁ hw' => h w₁ (he.trans hw hw')

theorem Secure.mono (h : Secure e rely cond guar Q p w) (hQ : ∀ a w, Q a w → Q' a w) :
    Secure e rely cond guar Q' p w := by
  induction p generalizing w with
  | ret a => exact fun w' hw' => hQ a w' (h w' hw')
  | call c retried next ih =>
      intro w₁ hw₁ hcond r w₂ hr
      obtain ⟨hguar, hnext⟩ := h w₁ hw₁ hcond r w₂ hr
      refine ⟨hguar, ?_⟩
      split
      · rename_i hagain
        rwa [if_pos hagain] at hnext
      · rename_i hagain
        rw [if_neg hagain] at hnext
        exact ih r hnext

/-- One after the other. -/
theorem secure_bind (he : Relies e rely) {f : α → Prog C R β} {Q : β → W → Prop}
    (h : Secure e rely cond guar (fun a w => Secure e rely cond guar Q (f a) w) p w) :
    Secure e rely cond guar Q (p >>= f) w := by
  change Secure e rely cond guar Q (p.bind f) w
  induction p generalizing w with
  | ret a => exact h w (he.refl w)
  | call c retried next ih =>
      intro w₁ hw₁ hcond r w₂ hr
      obtain ⟨hguar, hnext⟩ := h w₁ hw₁ hcond r w₂ hr
      refine ⟨hguar, ?_⟩
      split
      · rename_i hagain
        rwa [if_pos hagain] at hnext
      · rename_i hagain
        rw [if_neg hagain] at hnext
        exact ih r hnext

/-- A step of the others, or an answered call. -/
theorem secure_turn (he : Relies e rely) {m m' : Midway W C R α} {t : Turn A R}
    (hmeets : m.Meets cond t) (h : Secure e rely cond guar Q m.rest m.world)
    (ht : m.turn e t = some m') : Secure e rely cond guar Q m'.rest m'.world := by
  obtain ⟨w, p⟩ := m
  cases t with
  | others a =>
      obtain ⟨w', hw', rfl⟩ := Option.map_eq_some_iff.mp ht
      exact secure_stable he h (he.act hw')
  | reply r =>
      cases p with
      | ret a => exact absurd ht (by simp [Midway.turn])
      | call c retried next =>
          obtain ⟨w', hw', rfl⟩ := Option.map_eq_some_iff.mp ht
          obtain ⟨-, hnext⟩ := h w (he.refl w) hmeets r w' hw'
          by_cases hagain : (retried && e.again r) = true
          · rw [if_pos hagain] at hnext
            simp only [if_pos hagain]
            exact secure_stable (p := .call c retried next) he h hnext
          · rw [if_neg hagain] at hnext
            simp only [if_neg hagain]
            exact hnext

/-- **The rule for whole runs.** Every turn of a run that meets the condition keeps `guar`, if
the others do; and when the program has returned, its value meets `Q`. -/
theorem secure_run (he : Relies e rely) (hguar : ∀ {w w'}, rely w w' → guar w w')
    {ts : List (Turn A R)} {m : Midway W C R α} (h : Secure e rely cond guar Q p w)
    (hmeets : Along (Midway.turn e) (Midway.Meets cond) ⟨w, p⟩ ts)
    (hrun : run (Midway.turn e) ⟨w, p⟩ ts = some m) :
    (∀ a, m.rest = .ret a → Q a m.world)
    ∧ ∀ t m', m.Meets cond t → m.turn e t = some m' → guar m.world m'.world := by
  have hsecure : Secure e rely cond guar Q m.rest m.world :=
    run_invariant_along (I := fun m : Midway W C R α => Secure e rely cond guar Q m.rest m.world)
      (fun hc hs ht => secure_turn he hc hs ht) hmeets h hrun
  refine ⟨?_, ?_⟩
  · intro a ha
    rw [ha] at hsecure
    exact hsecure m.world (he.refl _)
  · intro t m' hm ht
    obtain ⟨w, p⟩ := m
    cases t with
    | others a =>
        obtain ⟨w', hw', rfl⟩ := Option.map_eq_some_iff.mp ht
        exact hguar (he.act hw')
    | reply r =>
        cases p with
        | ret a => exact absurd ht (by simp [Midway.turn])
        | call c retried next =>
            obtain ⟨w', hw', rfl⟩ := Option.map_eq_some_iff.mp ht
            exact (hsecure w (he.refl w) hm r w' hw').1

end Effects
