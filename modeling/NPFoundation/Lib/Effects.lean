import NPFoundation.Lib.Run

/-!
# Programs that make calls

A program is a tree: it has returned, or it makes a call and goes on with the reply. A
call may be one that is repeated as long as the reply asks for another go, which is what a
loop around one system call does; the loop is part of the node, so that programs are still
finite trees. Which replies ask for another go is the parameter `again`.

Where the replies come from is left open. `run` takes them from a list and gives back the
calls that were made; with enough replies there is always a run. `Meets` is for properties
of the calls: a monitor follows them from state to state, and must never get stuck.
-/

namespace Effects

variable {C R α β S : Type}

inductive Prog (C R α : Type) where
  | ret (a : α)
  /-- Make call `c`; if it is one to be `retried`, make it until the reply is final. -/
  | call (c : C) (retried : Bool) (next : R → Prog C R α)

/-- One after the other. -/
def Prog.bind : Prog C R α → (α → Prog C R β) → Prog C R β
  | .ret a, f => f a
  | .call c retried next, f => .call c retried fun r => (next r).bind f

instance : Monad (Prog C R) where
  pure := .ret
  bind := .bind

/-- What a run leaves: the value, the calls with their replies, and the replies not used. -/
structure Ran (C R α : Type) where
  value : α
  trace : List (C × R)
  rest : List R

/-- The same run with some calls before it. -/
def Ran.prepend (trace : List (C × R)) (ran : Ran C R α) : Ran C R α :=
  { ran with trace := trace ++ ran.trace }

/-- Run a program on a list of replies; `none` if there are not enough of them. -/
def Prog.run (again : R → Bool) : Prog C R α → List R → Option (Ran C R α)
  | .ret a, rs => some ⟨a, [], rs⟩
  | .call _ _ _, [] => none
  | .call c retried next, r :: rs =>
      (if retried && again r then Prog.run again (.call c retried next) rs
        else Prog.run again (next r) rs).map (Ran.prepend [(c, r)])

variable {again : R → Bool}

@[simp] theorem run_pure (a : α) (rs : List R) :
    (pure a : Prog C R α).run again rs = some ⟨a, [], rs⟩ := by
  cases rs <;> rfl

@[simp] theorem prepend_nil : (Ran.prepend [] : Ran C R α → Ran C R α) = id := rfl

theorem prepend_prepend (t u : List (C × R)) (ran : Ran C R α) :
    (ran.prepend u).prepend t = ran.prepend (t ++ u) := by
  simp [Ran.prepend]

/-- What comes after a run does not see what came before it. -/
theorem prepend_bind (t : List (C × R)) (o : Option (Ran C R α))
    (g : α → List R → Option (Ran C R β)) :
    (o.map (Ran.prepend t)).bind (fun ran => (g ran.value ran.rest).map (Ran.prepend ran.trace))
      = (o.bind fun ran => (g ran.value ran.rest).map (Ran.prepend ran.trace)).map
          (Ran.prepend t) := by
  cases o with
  | none => rfl
  | some ran =>
      simp only [Option.map_some, Option.bind_some, Option.map_map]
      congr 1
      funext ran'
      exact (prepend_prepend t ran.trace ran').symm

/-- A run of a sequence is a run followed by a run. -/
theorem run_bind (p : Prog C R α) (f : α → Prog C R β) (rs : List R) :
    (p >>= f).run again rs = (p.run again rs).bind fun ran =>
      ((f ran.value).run again ran.rest).map (Ran.prepend ran.trace) := by
  have hret : ∀ (a : α) (rs : List R),
      (Prog.ret a : Prog C R α).run again rs = some ⟨a, [], rs⟩ := run_pure
  change (p.bind f).run again rs = _
  induction rs generalizing p with
  | nil =>
      cases p with
      | ret a => simp [Prog.bind, hret]
      | call c retried next => rfl
  | cons r rs ih =>
      cases p with
      | ret a => simp [Prog.bind, hret]
      | call c retried next =>
          have hloop := ih (.call c retried next)
          rw [Prog.bind] at hloop
          simp only [Prog.bind, Prog.run]
          rw [prepend_bind _ _ fun a rest => (f a).run again rest]
          split
          · rw [hloop]
          · rw [ih]

/-! ## The reply that settles a call -/

/-- The first reply that is final, and the replies after it. -/
def settle (again : R → Bool) : List R → Option (R × List R)
  | [] => none
  | r :: rs => if again r then settle again rs else some (r, rs)

/-- A call that is retried is made once for each reply up to the one that settles it. -/
theorem run_retried (c : C) (next : R → Prog C R α) (rs : List R) :
    (Prog.call c true next).run again rs = (settle again rs).bind fun settled =>
      ((next settled.1).run again settled.2).map
        (Ran.prepend ((rs.takeWhile again ++ [settled.1]).map fun r => (c, r))) := by
  induction rs with
  | nil => rfl
  | cons r rs ih =>
      rw [Prog.run, settle, List.takeWhile_cons, Bool.true_and]
      by_cases h : again r = true
      · rw [if_pos h, if_pos h, if_pos h, ih]
        cases settle again rs with
        | none => rfl
        | some settled =>
            simp only [Option.bind_some, Option.map_map]
            congr 1
      · rw [if_neg h, if_neg h, if_neg h]
        rfl

/-- A program that makes a call begins with it. -/
theorem run_call_head {c : C} {retried : Bool} {next : R → Prog C R α} {rs : List R}
    {ran : Ran C R α} (h : (Prog.call c retried next).run again rs = some ran) :
    ∃ r tail, ran.trace = (c, r) :: tail := by
  cases rs with
  | nil => exact absurd h (by simp [Prog.run])
  | cons r rs =>
      rw [Prog.run] at h
      obtain ⟨ran', -, rfl⟩ := Option.map_eq_some_iff.mp h
      exact ⟨r, ran'.trace, rfl⟩

/-- With replies that are final again and again, a program comes to its end. -/
theorem exists_run (p : Prog C R α) (f : ℕ → R) (hf : ∀ i, ∃ j, i ≤ j ∧ again (f j) = false) :
    ∃ n ran, p.run again ((List.range n).map f) = some ran := by
  induction p generalizing f with
  | ret a => exact ⟨0, _, rfl⟩
  | call c retried next ih =>
      -- the replies from any point on are again such replies
      have hshift : ∀ k, ∀ i, ∃ j, i ≤ j ∧ again (f (j + k)) = false := by
        intro k i
        obtain ⟨j, hj, hfinal⟩ := hf (i + k)
        exact ⟨j - k, by omega, by rw [Nat.sub_add_cancel (by omega)]; exact hfinal⟩
      have hcons : ∀ n, (List.range (n + 1)).map f
          = f 0 :: (List.range n).map fun i => f (i + 1) := by
        intro n
        rw [List.range_succ_eq_map, List.map_cons, List.map_map]
        rfl
      obtain ⟨j, -, hj⟩ := hf 0
      induction j generalizing f with
      | zero =>
          obtain ⟨n, ran, hran⟩ := ih (f 0) (fun i => f (i + 1)) (hshift 1)
          refine ⟨n + 1, ran.prepend [(c, f 0)], ?_⟩
          rw [hcons, Prog.run, hj, Bool.and_false, if_neg (by simp), hran]
          rfl
      | succ j ihj =>
          by_cases hagain : (retried && again (f 0)) = true
          · obtain ⟨n, ran, hran⟩ := ihj (fun i => f (i + 1)) (hshift 1)
              (fun k => by simpa only [Nat.add_assoc] using hshift (k + 1))
              (fun n => by
                rw [List.range_succ_eq_map, List.map_cons, List.map_map]
                rfl) hj
            refine ⟨n + 1, ran.prepend [(c, f 0)], ?_⟩
            rw [hcons, Prog.run, if_pos hagain, hran]
            rfl
          · obtain ⟨n, ran, hran⟩ := ih (f 0) (fun i => f (i + 1)) (hshift 1)
            refine ⟨n + 1, ran.prepend [(c, f 0)], ?_⟩
            rw [hcons, Prog.run, if_neg hagain, hran]
            rfl

/-! ## What is returned -/

/-- On every list of replies, what is returned is as it should be. -/
def Yields (again : R → Bool) (p : Prog C R α) (Q : α → Prop) : Prop :=
  ∀ rs ran, p.run again rs = some ran → Q ran.value

theorem yields_pure {a : α} {Q : α → Prop} (h : Q a) :
    Yields again (pure a : Prog C R α) Q := by
  intro rs ran hran
  rw [run_pure] at hran
  rw [← Option.some.inj hran]
  exact h

theorem yields_call {c : C} {retried : Bool} {next : R → Prog C R α} {Q : α → Prop}
    (h : ∀ r, Yields again (next r) Q) : Yields again (.call c retried next) Q := by
  intro rs
  induction rs with
  | nil => exact fun ran hran => absurd hran (by simp [Prog.run])
  | cons r rs ih =>
      intro ran hran
      rw [Prog.run] at hran
      obtain ⟨ran', hran', rfl⟩ := Option.map_eq_some_iff.mp hran
      split at hran'
      · exact ih ran' hran'
      · exact h r rs ran' hran'

theorem yields_bind {p : Prog C R α} {f : α → Prog C R β} {Q : β → Prop}
    (h : Yields again p fun a => Yields again (f a) Q) : Yields again (p >>= f) Q := by
  intro rs ran hran
  rw [run_bind] at hran
  obtain ⟨ran₁, hran₁, hrest⟩ := Option.bind_eq_some_iff.mp hran
  obtain ⟨ran₂, hran₂, rfl⟩ := Option.map_eq_some_iff.mp hrest
  exact h rs ran₁ hran₁ ran₁.rest ran₂ hran₂

theorem Yields.mono {p : Prog C R α} {Q Q' : α → Prop} (h : Yields again p Q)
    (hQ : ∀ a, Q a → Q' a) : Yields again p Q' :=
  fun rs ran hran => hQ _ (h rs ran hran)

/-! ## Monitors -/

section

variable {m : S → C × R → Option S} {s : S} {Q Q' : S → α → Prop}

/-- On every list of replies, the monitor accepts the calls and ends as it should. -/
def Meets (again : R → Bool) (m : S → C × R → Option S) (p : Prog C R α) (s : S)
    (Q : S → α → Prop) : Prop :=
  ∀ rs ran, p.run again rs = some ran →
    ∃ s', Transition.run m s ran.trace = some s' ∧ Q s' ran.value

theorem meets_pure {a : α} (h : Q s a) : Meets again m (pure a) s Q := by
  intro rs ran hran
  rw [run_pure] at hran
  obtain rfl := Option.some.inj hran
  exact ⟨s, rfl, h⟩

/-- A call, when another go does not change what the monitor has seen. -/
theorem meets_call {c : C} {retried : Bool} {next : R → Prog C R α}
    (hagain : ∀ r, (retried && again r) = true → m s (c, r) = some s)
    (hnext : ∀ r, (retried && again r) = false →
      ∃ s', m s (c, r) = some s' ∧ Meets again m (next r) s' Q) :
    Meets again m (.call c retried next) s Q := by
  intro rs
  induction rs with
  | nil => exact fun ran hran => absurd hran (by simp [Prog.run])
  | cons r rs ih =>
      intro ran hran
      rw [Prog.run] at hran
      obtain ⟨ran', hran', rfl⟩ := Option.map_eq_some_iff.mp hran
      split at hran'
      · rename_i hr
        obtain ⟨s', hs', hq⟩ := ih ran' hran'
        exact ⟨s', Transition.run_cons_some.mpr ⟨s, hagain r hr, hs'⟩, hq⟩
      · rename_i hr
        obtain ⟨s₁, hs₁, hmeets⟩ := hnext r (Bool.eq_false_iff.mpr hr)
        obtain ⟨s', hs', hq⟩ := hmeets rs ran' hran'
        exact ⟨s', Transition.run_cons_some.mpr ⟨s₁, hs₁, hs'⟩, hq⟩

theorem meets_bind {p : Prog C R α} {f : α → Prog C R β} {Q : S → β → Prop}
    (h : Meets again m p s fun s' a => Meets again m (f a) s' Q) :
    Meets again m (p >>= f) s Q := by
  intro rs ran hran
  rw [run_bind] at hran
  obtain ⟨ran₁, hran₁, hrest⟩ := Option.bind_eq_some_iff.mp hran
  obtain ⟨ran₂, hran₂, rfl⟩ := Option.map_eq_some_iff.mp hrest
  obtain ⟨s₁, hs₁, hmeets⟩ := h rs ran₁ hran₁
  obtain ⟨s₂, hs₂, hq⟩ := hmeets ran₁.rest ran₂ hran₂
  exact ⟨s₂, Transition.run_append_some.mpr ⟨s₁, hs₁, hs₂⟩, hq⟩

/-- What a monitor does at the next call of a program that it follows. -/
theorem Meets.call_cases {c : C} {retried : Bool} {next : R → Prog C R α}
    (h : Meets again m (.call c retried next) s Q) {final : R} (hfinal : again final = false)
    (r : R) : ∃ s', m s (c, r) = some s'
      ∧ Meets again m (if retried && again r then .call c retried next else next r) s' Q := by
  generalize hp : (if retried && again r then Prog.call c retried next else next r) = p
  have hrun : ∀ rs, (Prog.call c retried next).run again (r :: rs)
      = (p.run again rs).map (Ran.prepend [(c, r)]) := by
    intro rs
    rw [Prog.run, ← hp]
    split
    · rfl
    · rfl
  have hstep : ∀ rs ran, p.run again rs = some ran → ∃ s', m s (c, r) = some s'
      ∧ ∃ s'', Transition.run m s' ran.trace = some s'' ∧ Q s'' ran.value := by
    intro rs ran hran
    obtain ⟨s'', hs'', hq⟩ := h (r :: rs) (ran.prepend [(c, r)]) (by rw [hrun, hran]; rfl)
    obtain ⟨s', hs', hrest⟩ := Transition.run_cons_some.mp hs''
    exact ⟨s', hs', s'', hrest, hq⟩
  -- some run there is, so the monitor does not get stuck here
  obtain ⟨n, ran, hran⟩ := exists_run p (fun _ => final) fun i => ⟨i, Nat.le_refl i, hfinal⟩
  obtain ⟨s', hs', -⟩ := hstep _ _ hran
  refine ⟨s', hs', fun rs ran' hran' => ?_⟩
  obtain ⟨s₁, hs₁, hrest⟩ := hstep rs ran' hran'
  obtain rfl := Option.some.inj (hs'.symm.trans hs₁)
  exact hrest

theorem meets_pure_inv {a : α} (h : Meets again m (.ret a) s Q) : Q s a := by
  obtain ⟨s', hs', hq⟩ := h [] ⟨a, [], []⟩ rfl
  obtain rfl := Option.some.inj hs'
  exact hq

theorem Meets.mono {p : Prog C R α} (h : Meets again m p s Q) (hQ : ∀ s a, Q s a → Q' s a) :
    Meets again m p s Q' := by
  intro rs ran hran
  obtain ⟨s', hs', hq⟩ := h rs ran hran
  exact ⟨s', hs', hQ s' _ hq⟩

end

end Effects
