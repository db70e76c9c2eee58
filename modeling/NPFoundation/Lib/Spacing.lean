import Mathlib.Algebra.Order.Group.Defs
import Mathlib.Order.Bounds.Basic

/-!
# Points kept apart

From a sorted list of points, keep the first and then every point that is at least `d`
after the last one kept. The points kept are pairwise at least `d` apart, and no other
choice of points that far apart has more of them: whatever another choice takes next, the
greedy one took something no later.
-/

namespace Spacing

variable {α : Type*} [AddCommGroup α] [LinearOrder α] {d t : α} {ts s : List α}

/-- Points pairwise at least `d` apart, in order. -/
def Spaced (d : α) (ts : List α) : Prop := ts.Pairwise fun x y => d ≤ y - x

/-- A point may be kept after the last one kept. -/
def Clear (d : α) : Option α → α → Prop
  | none, _ => True
  | some p, t => d ≤ t - p

instance (last : Option α) (t : α) : Decidable (Clear d last t) :=
  match last with
  | none => inferInstanceAs (Decidable True)
  | some p => inferInstanceAs (Decidable (d ≤ t - p))

/-- The points kept, when `last` was the last one before them. -/
def keep (d : α) : Option α → List α → List α
  | _, [] => []
  | last, t :: ts => if Clear d last t then t :: keep d (some t) ts else keep d last ts

theorem keep_cons_clear {last : Option α} (h : Clear d last t) :
    keep d last (t :: ts) = t :: keep d (some t) ts := if_pos h

theorem keep_cons_dropped {last : Option α} (h : ¬ Clear d last t) :
    keep d last (t :: ts) = keep d last ts := if_neg h

theorem keep_sublist (d : α) (last : Option α) (ts : List α) : (keep d last ts).Sublist ts := by
  induction ts generalizing last with
  | nil => exact List.Sublist.slnil
  | cons t ts ih =>
      by_cases h : Clear d last t
      · rw [keep_cons_clear h]
        exact (ih (some t)).cons_cons t
      · rw [keep_cons_dropped h]
        exact (ih last).cons t

/-- How many of the points are no less than `d` after the one before them, or have none before
them: so many bursts they come in. -/
def bursts (d : α) : Option α → List α → ℕ
  | _, [] => 0
  | last, t :: ts => (if Clear d last t then 1 else 0) + bursts d (some t) ts

/-- One more point begins a burst or does not. -/
theorem bursts_concat (d : α) (last : Option α) (ts : List α) (x : α) :
    bursts d last (ts ++ [x])
      = bursts d last ts + if Clear d (ts.getLast?.or last) x then 1 else 0 := by
  induction ts generalizing last with
  | nil => exact (Nat.zero_add _).symm
  | cons t ts ih =>
      have hlast : (t :: ts).getLast?.or last = ts.getLast?.or (some t) := by
        rw [List.getLast?_cons]
        cases ts.getLast? <;> rfl
      rw [List.cons_append, bursts, bursts, ih, hlast, Nat.add_assoc]

/-- Points that are all moved by `c` come in the same bursts. -/
theorem bursts_add (d c : α) (last : Option α) (ts : List α) :
    bursts d (last.map (· + c)) (ts.map (· + c)) = bursts d last ts := by
  induction ts generalizing last with
  | nil => rfl
  | cons t ts ih =>
      have hclear : Clear d (last.map (· + c)) (t + c) ↔ Clear d last t := by
        cases last with
        | none => exact Iff.rfl
        | some p => rw [Option.map_some, Clear, Clear, add_sub_add_right_eq_sub]
      have hrest : bursts d (some (t + c)) (ts.map (· + c)) = bursts d (some t) ts := ih (some t)
      rw [List.map_cons, bursts, bursts, hrest, if_congr hclear rfl rfl]

/-- A window narrower than `d` holds at most one of the points. -/
theorem window_le_one (h : Spaced d ts) {P : α → Bool}
    (hwindow : ∀ x y, P x → P y → y - x < d) : (ts.filter P).length ≤ 1 := by
  have hkept : Spaced d (ts.filter P) := List.Pairwise.sublist List.filter_sublist h
  match hf : ts.filter P with
  | [] => exact Nat.zero_le _
  | [_] => exact Nat.le_refl _
  | x :: y :: rest =>
      have hx : P x := (List.mem_filter.mp (hf ▸ List.mem_cons_self)).2
      have hy : P y := (List.mem_filter.mp (hf ▸ List.mem_cons_of_mem x List.mem_cons_self)).2
      rw [hf] at hkept
      have hfar := (List.pairwise_cons.mp hkept).1 y List.mem_cons_self
      exact absurd (hwindow x y hx hy) (not_lt.mpr hfar)

variable [IsOrderedAddMonoid α]

/-- What is kept is clear of what was kept before. -/
theorem clear_of_mem_keep {last : Option α} (hsorted : ts.Pairwise (· ≤ ·)) {x : α}
    (hx : x ∈ keep d last ts) : Clear d last x := by
  induction ts generalizing last with
  | nil => exact absurd hx List.not_mem_nil
  | cons t ts ih =>
      obtain ⟨hle, hrest⟩ := List.pairwise_cons.mp hsorted
      by_cases h : Clear d last t
      · cases last with
        | none => trivial
        | some p =>
            have hxs : x ∈ t :: ts := (keep_sublist d (some p) (t :: ts)).mem hx
            -- `x` is `t` or later
            rcases List.mem_cons.mp hxs with rfl | hmem
            · exact h
            · exact h.trans (sub_le_sub_right (hle x hmem) p)
      · rw [keep_cons_dropped h] at hx
        exact ih hrest hx

theorem keep_spaced {last : Option α} (hsorted : ts.Pairwise (· ≤ ·)) :
    Spaced d (keep d last ts) := by
  induction ts generalizing last with
  | nil => exact List.Pairwise.nil
  | cons t ts ih =>
      obtain ⟨-, hrest⟩ := List.pairwise_cons.mp hsorted
      by_cases h : Clear d last t
      · rw [keep_cons_clear h]
        exact List.pairwise_cons.mpr ⟨fun x hx => clear_of_mem_keep hrest hx, ih hrest⟩
      · rw [keep_cons_dropped h]
        exact ih hrest

/-- No other choice has more points. -/
theorem length_le_keep {last : Option α} (hsorted : ts.Pairwise (· ≤ ·)) (hsub : s.Sublist ts)
    (hspaced : Spaced d s) (hclear : ∀ x ∈ s, Clear d last x) :
    s.length ≤ (keep d last ts).length := by
  induction ts generalizing last s with
  | nil =>
      obtain rfl := List.sublist_nil.mp hsub
      exact Nat.zero_le _
  | cons t ts ih =>
      obtain ⟨hle, hrest⟩ := List.pairwise_cons.mp hsorted
      by_cases h : Clear d last t
      · rw [keep_cons_clear h, List.length_cons]
        cases s with
        | nil => exact Nat.zero_le _
        | cons x s =>
            -- the greedy choice takes `t`, which is no later than `x`
            obtain ⟨hx, hs⟩ := List.pairwise_cons.mp hspaced
            have htx : t ≤ x := by
              rcases List.mem_cons.mp (hsub.mem List.mem_cons_self) with rfl | hmem
              · exact le_refl x
              · exact hle x hmem
            have hafter : ∀ y ∈ s, Clear d (some t) y :=
              fun y hy => (hx y hy).trans (sub_le_sub_left htx y)
            have hshort := ih hrest (List.Sublist.tail hsub) hs hafter
            exact Nat.succ_le_succ hshort
      · rw [keep_cons_dropped h]
        rcases List.sublist_cons_iff.mp hsub with hsub' | ⟨s', rfl, -⟩
        · exact ih hrest hsub' hspaced hclear
        · exact absurd (hclear t List.mem_cons_self) h

/-- The number of points kept is the most that can be chosen. -/
theorem keep_greatest (hsorted : ts.Pairwise (· ≤ ·)) :
    IsGreatest {n | ∃ s : List α, s.Sublist ts ∧ Spaced d s ∧ s.length = n}
      (keep d none ts).length := by
  refine ⟨⟨_, keep_sublist d none ts, keep_spaced hsorted, rfl⟩, ?_⟩
  rintro n ⟨s, hsub, hspaced, rfl⟩
  exact length_le_keep hsorted hsub hspaced fun _ _ => trivial

/-! ## What follows on the points -/

/-- The times of `h` answer the points of `p`: each comes no earlier than its point, and no later
than the point after that. The last points need not be answered yet. -/
inductive Follows : List α → List α → Prop where
  | nil {p : List α} : Follows p []
  | cons {x a : α} {p h : List α} : x ≤ a → (∀ y ∈ p.head?, a ≤ y) → Follows p h →
      Follows (x :: p) (a :: h)

variable {p h : List α} {x : α}

omit [AddCommGroup α] [IsOrderedAddMonoid α] in
theorem Follows.snoc_point (hf : Follows p h) (hall : h.length = p.length)
    (hpast : ∀ a ∈ h, a ≤ x) : Follows (p ++ [x]) h := by
  induction hf with
  | nil => exact .nil
  | @cons y a p h hle hnext hf ih =>
      have hlength : h.length = p.length := by simpa using hall
      refine .cons hle (fun z hz => ?_) (ih hlength fun b hb => hpast b (List.mem_cons_of_mem a hb))
      cases p with
      | nil =>
          obtain rfl : x = z := by simpa using hz
          exact hpast a List.mem_cons_self
      | cons y' p => exact hnext z (by simpa using hz)

omit [AddCommGroup α] [IsOrderedAddMonoid α] in
theorem Follows.snoc_answer (hf : Follows p h) (hone : h.length + 1 = p.length)
    (hpast : ∀ y ∈ p, y ≤ x) : Follows p (h ++ [x]) := by
  induction hf with
  | @nil p =>
      cases p with
      | nil => exact absurd hone (by simp)
      | cons y p =>
          obtain rfl : p = [] := by simpa using hone
          exact .cons (hpast y List.mem_cons_self) (fun z hz => absurd hz (by simp)) .nil
  | @cons y a p h hle hnext hf ih =>
      exact .cons hle hnext (ih (by simpa using hone) fun z hz => hpast z (List.mem_cons_of_mem y hz))

omit [AddCommGroup α] [IsOrderedAddMonoid α] in
/-- What answers comes after some point. -/
theorem Follows.exists_point (hf : Follows p h) {c : α} (hc : c ∈ h) : ∃ z ∈ p, z ≤ c := by
  induction hf with
  | nil => exact absurd hc List.not_mem_nil
  | @cons y a p h hle _ _ ih =>
      rcases List.mem_cons.mp hc with rfl | hc
      · exact ⟨y, List.mem_cons_self, hle⟩
      · obtain ⟨z, hz, hzc⟩ := ih hc
        exact ⟨z, List.mem_cons_of_mem y hz, hzc⟩

/-- The answers to points that are `d` apart may come close together, but only two at a time. -/
theorem Follows.window_le_two (hf : Follows p h) (hp : Spaced d p) {P : α → Bool}
    (hwindow : ∀ x y, P x → P y → y - x < d) : (h.filter P).length ≤ 2 := by
  induction hf with
  | nil => exact Nat.zero_le _
  | @cons x a p h hle hnext hf ih =>
      obtain ⟨-, hp'⟩ := List.pairwise_cons.mp hp
      by_cases ha : P a
      · cases hf with
        | nil => simp [ha]
        | @cons y b p h hle' hnext' hf' =>
            -- all that comes after `b` is too far away from `a`
            have hrest : h.filter P = [] := by
              refine List.filter_eq_nil_iff.mpr fun c hc hPc => ?_
              obtain ⟨z, hz, hzc⟩ := hf'.exists_point hc
              have hfar : d ≤ z - y := (List.pairwise_cons.mp hp').1 z hz
              have hay : a ≤ y := hnext y (by simp)
              have hca : d ≤ c - a := hfar.trans (sub_le_sub hzc hay)
              exact absurd (hwindow a c ha hPc) (not_lt.mpr hca)
            rw [List.filter_cons_of_pos ha, List.filter_cons, hrest]
            split <;> simp
      · rw [List.filter_cons_of_neg ha]
        exact ih hp'

end Spacing
