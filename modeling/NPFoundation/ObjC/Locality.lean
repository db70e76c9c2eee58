import NPFoundation.ObjC.ReplaceRace

/-!
# What an installation reaches

The macros are used from many places that know nothing of each other. What a send runs depends
only on the installations for its selector on its class and the classes above: it is as if
there were no others. So two installations that no send can tell apart in this way may come in
either order.
-/

namespace NPFoundation

namespace ObjC

variable {κ σ β : Type} [DecidableEq κ] [DecidableEq σ] {tree : ClassTree κ}
  {installed installed' : Installed κ σ β} {sel : σ}

/-- An installation that a send of `sel` to `cls` may run into. -/
def Installation.concerns (tree : ClassTree κ) (cls : κ) (sel : σ) (i : Installation κ σ β) : Bool :=
  match i.cls, i.sel with
  | some c, some s => c ∈ cls :: tree.ancestors cls ∧ s = sel
  | _, _ => false

/-- No send can run into both. -/
def Installation.Independent (tree : ClassTree κ) (i j : Installation κ σ β) : Prop :=
  ∀ cls cls' sel, i.cls = some cls → j.cls = some cls' → i.sel = some sel → j.sel = some sel →
    cls ≠ cls' ∧ cls ∉ tree.ancestors cls' ∧ cls' ∉ tree.ancestors cls

/-- The same for a selector in some classes. -/
def Installed.AgreeOn (sel : σ) (classes : List κ) (installed installed' : Installed κ σ β) : Prop :=
  ∀ c ∈ classes, installed c sel = installed' c sel

/-! ## Lineages -/

omit [DecidableEq κ] in
/-- Of two classes in a lineage one is the other or above it. -/
theorem ClassTree.Lineage.related {classes : List κ} (h : tree.Lineage classes) {c c' : κ}
    (hc : c ∈ classes) (hc' : c' ∈ classes) :
    c = c' ∨ c ∈ tree.ancestors c' ∨ c' ∈ tree.ancestors c := by
  induction classes with
  | nil => exact absurd hc List.not_mem_nil
  | cons cls above ih =>
      obtain ⟨habove, hrest⟩ := h
      rcases List.mem_cons.mp hc with heq | hmem
      · rcases List.mem_cons.mp hc' with heq' | hmem'
        · exact .inl (heq.trans heq'.symm)
        · exact .inr (.inr (heq ▸ habove ▸ hmem'))
      · rcases List.mem_cons.mp hc' with heq' | hmem'
        · exact .inr (.inl (heq' ▸ habove ▸ hmem))
        · exact ih hrest hmem hmem'

omit [DecidableEq κ] in
/-- The classes above a class of a lineage belong to it. -/
theorem ClassTree.Lineage.ancestors_subset {classes : List κ} (h : tree.Lineage classes) {c : κ}
    (hc : c ∈ classes) : tree.ancestors c ⊆ classes := by
  induction classes with
  | nil => exact absurd hc List.not_mem_nil
  | cons cls above ih =>
      obtain ⟨rfl, hrest⟩ := h
      rcases List.mem_cons.mp hc with rfl | hc
      · exact List.subset_cons_self _ _
      · exact fun c' hc' => List.mem_cons_of_mem cls (ih hrest hc hc')

/-! ## Installing, for one selector in one lineage -/

omit [DecidableEq κ] [DecidableEq σ] in
theorem newLayers_congr {classes : List κ} (hlineage : tree.Lineage classes)
    (h : Installed.AgreeOn sel classes installed installed') {cls : κ} (hcls : cls ∈ classes)
    (kind : InstallKind) (code : β) :
    installed.newLayers tree kind cls sel code = installed'.newLayers tree kind cls sel code := by
  have habove : ((tree.ancestors cls).any fun above => (installed above sel).isSome)
      = (tree.ancestors cls).any fun above => (installed' above sel).isSome := by
    rw [Bool.eq_iff_iff, List.any_eq_true, List.any_eq_true]
    refine exists_congr fun above => and_congr_right fun hmem => ?_
    rw [h above (hlineage.ancestors_subset hcls hmem)]
  unfold Installed.newLayers
  rw [h cls hcls, habove]

/-- An installation elsewhere, or for another selector. -/
theorem agreeOn_install_other {cls : κ} {i : Installation κ σ β}
    (hi : i.concerns tree cls sel = false) :
    Installed.AgreeOn sel (cls :: tree.ancestors cls) (installed.install tree i) installed := by
  intro c hc
  obtain ⟨kind, cls', sel', types, code⟩ := i
  cases cls' with
  | none => rfl
  | some cls' =>
      cases sel' with
      | none => rfl
      | some sel' =>
          simp only [Installed.install]
          cases installed.newLayers tree kind cls' sel' code with
          | none => rfl
          | some layers =>
              refine if_neg ?_
              rintro ⟨rfl, rfl⟩
              exact of_decide_eq_false hi ⟨hc, rfl⟩

/-- The same installation on both. -/
theorem agreeOn_install {cls : κ} {i : Installation κ σ β}
    (h : Installed.AgreeOn sel (cls :: tree.ancestors cls) installed installed')
    (hi : i.concerns tree cls sel = true) :
    Installed.AgreeOn sel (cls :: tree.ancestors cls) (installed.install tree i)
      (installed'.install tree i) := by
  intro c hc
  obtain ⟨kind, cls', sel', types, code⟩ := i
  cases cls' with
  | none => exact h c hc
  | some cls' =>
      cases sel' with
      | none => exact h c hc
      | some sel' =>
          obtain ⟨hmem, rfl⟩ := of_decide_eq_true hi
          simp only [Installed.install]
          rw [newLayers_congr (tree.lineage_ancestors rfl) h hmem]
          cases installed'.newLayers tree kind cls' sel' code with
          | none => exact h c hc
          | some layers =>
              simp only [Installed.put]
              rw [h c hc]

/-- Only the installations that concern a send are left. -/
theorem agreeOn_filter (tree : ClassTree κ) (own : κ → List (σ × String × β)) (cls : κ) (sel : σ)
    (installs : List (Installation κ σ β)) :
    Installed.AgreeOn sel (cls :: tree.ancestors cls) (.all tree own installs)
      (.all tree own (installs.filter (Installation.concerns tree cls sel))) := by
  induction installs using List.reverseRecOn with
  | nil => exact fun _ _ => rfl
  | append_singleton installs i ih =>
      have hlast : Installed.all tree own (installs ++ [i])
          = (Installed.all tree own installs).install tree i := by
        rw [Installed.all, List.foldl_append]
        rfl
      rw [List.filter_append, hlast]
      by_cases hi : i.concerns tree cls sel = true
      · rw [List.filter_cons_of_pos hi, List.filter_nil]
        have hlast' : Installed.all tree own
              (installs.filter (Installation.concerns tree cls sel) ++ [i])
            = (Installed.all tree own
                (installs.filter (Installation.concerns tree cls sel))).install tree i := by
          rw [Installed.all, List.foldl_append]
          rfl
        rw [hlast']
        exact agreeOn_install ih hi
      · rw [List.filter_cons_of_neg hi, List.filter_nil, List.append_nil]
        intro c hc
        exact (agreeOn_install_other (Bool.eq_false_iff.mpr hi) c hc).trans (ih c hc)

/-- What a send runs, with the installations that concern it and with all of them. -/
theorem runs_filter (tree : ClassTree κ) (own : κ → List (σ × String × β))
    (installs : List (Installation κ σ β)) (cls : κ) (sel : σ) (ran : List β) :
    Runs tree (installAll tree own installs) cls sel ran
      ↔ Runs tree (installAll tree own (installs.filter (Installation.concerns tree cls sel)))
          cls sel ran := by
  rw [runs_iff (represents_all tree own installs), runs_iff (represents_all tree own _),
    blocksRun_congr (agreeOn_filter tree own cls sel installs)]

/-- Independent installations do not both concern a send. -/
theorem Installation.Independent.not_both {i j : Installation κ σ β} (h : i.Independent tree j)
    (cls : κ) (sel : σ) : i.concerns tree cls sel = false ∨ j.concerns tree cls sel = false := by
  by_contra hboth
  rw [not_or, Bool.not_eq_false, Bool.not_eq_false] at hboth
  obtain ⟨hi, hj⟩ := hboth
  unfold Installation.concerns at hi hj
  split at hi
  · rename_i c s hc hs
    obtain ⟨hmem, rfl⟩ := of_decide_eq_true hi
    split at hj
    · rename_i c' s' hc' hs'
      obtain ⟨hmem', rfl⟩ := of_decide_eq_true hj
      obtain ⟨hne, hnot, hnot'⟩ := h c c' _ hc hc' hs hs'
      rcases (tree.lineage_ancestors rfl).related hmem hmem' with heq | habove | habove
      · exact hne heq
      · exact hnot habove
      · exact hnot' habove
    · exact absurd hj (by simp)
  · exact absurd hi (by simp)

/-- **Installations reach as far as their selector and the classes below.** Whatever else is
installed, and in whatever order, a send runs what it runs with only the installations for its
selector on its class and the classes above. So neighbours in the order that no send can run into
both of may change places. -/
theorem sends_concern_lineage (tree : ClassTree κ) (own : κ → List (σ × String × β))
    (installs : List (Installation κ σ β)) :
    (∀ cls sel ran, Runs tree (installAll tree own installs) cls sel ran
      ↔ Runs tree (installAll tree own (installs.filter (Installation.concerns tree cls sel)))
          cls sel ran)
    ∧ ∀ before i j after, installs = before ++ i :: j :: after → i.Independent tree j →
      ∀ cls sel ran, Runs tree (installAll tree own installs) cls sel ran
        ↔ Runs tree (installAll tree own (before ++ j :: i :: after)) cls sel ran := by
  refine ⟨runs_filter tree own installs, ?_⟩
  rintro before i j after rfl hindependent cls sel ran
  have hsame : (before ++ i :: j :: after).filter (Installation.concerns tree cls sel)
      = (before ++ j :: i :: after).filter (Installation.concerns tree cls sel) := by
    rcases hindependent.not_both cls sel with hi | hj
    · simp [List.filter_append, List.filter_cons, hi]
    · simp [List.filter_append, List.filter_cons, hj]
  rw [runs_filter, hsame, ← runs_filter]

/-- The subclass overrides one method, and the other is replaced in the superclass. -/
theorem sends_concern_lineage_methods :
    (∀ ran, Runs subclassTree (installAll subclassTree
        (fun cls => if cls then [] else [(false, "v@:", "code"), (true, "v@:", "other")])
        [⟨.override, some true, some false, none, "override"⟩,
          ⟨.replace, some false, some true, none, "replace"⟩]) true false ran
      ↔ Runs subclassTree (installAll subclassTree
        (fun cls => if cls then [] else [(false, "v@:", "code"), (true, "v@:", "other")])
        [⟨.override, some true, some false, none, "override"⟩]) true false ran)
    ∧ ∀ cls sel ran, Runs subclassTree (installAll subclassTree
        (fun cls => if cls then [] else [(false, "v@:", "code"), (true, "v@:", "other")])
        [⟨.override, some true, some false, none, "override"⟩,
          ⟨.replace, some false, some true, none, "replace"⟩]) cls sel ran
      ↔ Runs subclassTree (installAll subclassTree
        (fun cls => if cls then [] else [(false, "v@:", "code"), (true, "v@:", "other")])
        [⟨.replace, some false, some true, none, "replace"⟩,
          ⟨.override, some true, some false, none, "override"⟩]) cls sel ran := by
  obtain ⟨hfilter, hswap⟩ := sends_concern_lineage subclassTree
    (fun cls => if cls then [] else [(false, "v@:", "code"), (true, "v@:", "other")])
    [⟨.override, some true, some false, none, "override"⟩,
      ⟨.replace, some false, some true, none, "replace"⟩]
  refine ⟨hfilter true false, hswap [] _ _ [] rfl fun cls cls' sel _ _ hsel hsel' => ?_⟩
  exact absurd (hsel.trans hsel'.symm) (by simp)

end ObjC

end NPFoundation
