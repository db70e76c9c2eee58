import NPFoundation.Sys.Sys

/-!
# What the helpers acquire, they give back

`Resources` is the account of one call: the descriptors it has open, the mapping it has
made, and whether the handler has seen it. `follow` books a system call with its reply,
and refuses what must not happen: a descriptor used or closed that is not open, a second
mapping, a handler that is shown something else than the mapping, an unmapping before it
or of something else. Every function gets through the account on every list of replies,
with the descriptors it opened closed, each once.
-/

namespace NPFoundation

open Effects

structure Resources where
  descriptors : List Nat
  mapping : Option (Nat × BitVec 64)
  handled : Bool
  deriving DecidableEq, Repr

namespace Resources

def start : Resources := ⟨[], none, false⟩

/-- A call that needs an open descriptor. -/
def needs (s : Resources) (fd : Nat) (s' : Resources) : Option Resources :=
  if fd ∈ s.descriptors then some s' else none

/-- Book one call. -/
def follow (s : Resources) : SysCall × Reply → Option Resources
  | (.open _ _ _, r) =>
      some (if r.failure.isSome then s else { s with descriptors := r.descriptor :: s.descriptors })
  | (.close fd, _) => s.needs fd { s with descriptors := s.descriptors.erase fd }
  | (.stat _, _) => some s
  | (.truncate _ _, _) => some s
  | (.fstatat fd _ _, _) => s.needs fd s
  | (.ftruncate fd _, _) => s.needs fd s
  | (.fcntlGetPath fd, _) => s.needs fd s
  | (.mmap size _ fd, r) =>
      if s.mapping = none ∧ s.handled = false then
        s.needs fd (if r.failure.isSome then s else { s with mapping := some (r.address, size) })
      else none
  | (.handler mapping size _, _) =>
      if s.mapping = some (mapping, size) ∧ s.handled = false then some { s with handled := true }
      else none
  | (.munmap buf size, _) =>
      if s.mapping = some (buf, size) ∧ s.handled = true then some { s with mapping := none }
      else none

/-- The account after an `open` that returned a descriptor. -/
def opened (s : Resources) (fd : Nat) : Resources := { s with descriptors := fd :: s.descriptors }

@[simp] theorem needs_opened (s : Resources) (fd : Nat) (s' : Resources) :
    (s.opened fd).needs fd s' = some s' := if_pos List.mem_cons_self

end Resources

open Resources

/-- A function whose calls can be booked from account `s` on. -/
abbrev Books {α : Type} (p : SysProg α) (s : Resources) (Q : Resources → α → Prop) : Prop :=
  Meets Reply.again follow p s Q

namespace Sys

variable {s : Resources} {diag : Diagnostics} {fd : Nat} {path output : String}

theorem failure_of_again {r : Reply} (h : r.again = true) : r.failure.isSome = true := by
  unfold Reply.again at h
  cases hf : r.failure with
  | none =>
      rw [hf] at h
      exact absurd h (by simp)
  | some failure => rfl

/-! ## One call -/

section

variable {S : Type} {m : S → SysCall × Reply → Option S} {s : S} {c : SysCall} {Q : S → Reply → Prop}

theorem once_meets (h : ∀ r, ∃ s', m s (c, r) = some s' ∧ Q s' r) :
    Meets Reply.again m (once c) s Q := by
  refine meets_call (fun _ hno => absurd hno (by simp)) fun r _ => ?_
  obtain ⟨s', hs', hq⟩ := h r
  exact ⟨s', hs', meets_pure hq⟩

/-- A call that is retried: an attempt that is not the last one must not count. -/
theorem retried_meets (hagain : ∀ r, r.again = true → m s (c, r) = some s)
    (h : ∀ r, r.again = false → ∃ s', m s (c, r) = some s' ∧ Q s' r) :
    Meets Reply.again m (retried c) s Q := by
  refine meets_call (fun r hr => hagain r (by simpa using hr)) fun r hr => ?_
  obtain ⟨s', hs', hq⟩ := h r (by simpa using hr)
  exact ⟨s', hs', meets_pure hq⟩

end

theorem openPath_meets (path : String) (flag : OpenFlag) (other : Nat) :
    Books (openPath diag path flag other) s fun s' v =>
      v.2 = none ∧ s' = s ∨ ∃ fd, v.2 = some fd ∧ s' = s.opened fd := by
  refine meets_bind (retried_meets (fun r hr => ?_) fun r _ => ⟨_, rfl, meets_pure ?_⟩)
  · rw [follow, if_pos (failure_of_again hr)]
  · dsimp only
    split
    · exact .inl ⟨rfl, rfl⟩
    · exact .inr ⟨_, rfl, rfl⟩

theorem close_meets : Books (close diag fd) (s.opened fd) fun s' _ => s' = s := by
  refine meets_bind (once_meets fun r => ⟨s, ?_, meets_pure rfl⟩)
  rw [follow, needs_opened]
  simp [Resources.opened]

theorem stat_meets (path : String) : Books (stat diag path) s fun s' _ => s' = s :=
  meets_bind (retried_meets (fun _ _ => rfl) fun _ _ => ⟨s, rfl, meets_pure rfl⟩)

theorem ftruncate_meets (size : BitVec 64) :
    Books (ftruncate diag fd size) (s.opened fd) fun s' _ => s' = s.opened fd := by
  have hbook : ∀ r, (s.opened fd).follow (.ftruncate fd size, r) = some (s.opened fd) := by
    intro r
    rw [follow, needs_opened]
  exact meets_bind (retried_meets (fun r _ => hbook r) fun r _ => ⟨_, hbook r, meets_pure rfl⟩)

/-! ## What closes what it opens -/

theorem getPath_meets : Books (getPath diag fd output) (s.opened fd) fun s' _ => s' = s := by
  refine meets_bind (once_meets fun r => ⟨_, needs_opened s fd _, ?_⟩)
  refine meets_bind (close_meets.mono ?_)
  rintro s' diag' rfl
  exact meets_pure rfl

/-- `cwd` and `realpath` from the `open` on. -/
theorem open_getPath_meets (path : String) (flag : OpenFlag) (other : Nat) :
    Books (openPath diag path flag other >>= fun v =>
      match v with
      | (diag, fd) =>
          match fd with
          | none => pure (diag, output)
          | some fd => getPath diag fd output) s fun s' _ => s' = s := by
  refine meets_bind ((openPath_meets path flag other).mono ?_)
  rintro s' ⟨diag', result⟩ (⟨rfl, rfl⟩ | ⟨fd, rfl, rfl⟩)
  · exact meets_pure rfl
  · exact getPath_meets

theorem cwd_meets : Books (cwd diag output) s fun s' _ => s' = s :=
  open_getPath_meets "." _ 0

theorem realpath_meets : Books (realpath diag path output) s fun s' _ => s' = s :=
  open_getPath_meets path .readOnly 0

theorem resolveRealerPath_meets (path : String) (realerPath : Bool) :
    Books (resolveRealerPath path realerPath) s fun s' _ => s' = s := by
  unfold resolveRealerPath
  split
  · refine meets_bind (realpath_meets.mono ?_)
    rintro s' v rfl
    exact meets_pure rfl
  · exact meets_pure rfl

/-! ## What leaves a mapping -/

/-- What a helper returns is the mapping in the account, with its length if that was asked for. -/
def Keeps (size : Bool) (s s' : Resources) (mapped : Mapped) : Prop :=
  mapped.mapping = none ∧ s' = s
    ∨ ∃ address len, s' = { s with mapping := some (address, len) }
      ∧ mapped.mapping = some address ∧ mapped.size = if size then some len else none

theorem mapDescriptor_meets (hs : s.mapping = none ∧ s.handled = false) (size realerPath : Bool)
    (mappedSize : BitVec 64) (shared : Bool) :
    Books (mapDescriptor diag path size realerPath mappedSize shared fd) (s.opened fd)
      fun s' v => Keeps size s s' v.2 := by
  have hfree : (s.opened fd).mapping = none ∧ (s.opened fd).handled = false := hs
  have hbook : ∀ r, (s.opened fd).follow (.mmap mappedSize shared fd, r)
      = some (if r.failure.isSome then s.opened fd
        else Resources.opened { s with mapping := some (r.address, mappedSize) } fd) := by
    intro r
    rw [follow, if_pos hfree, needs_opened]
    rfl
  refine meets_bind (once_meets fun r => ⟨_, hbook r, ?_⟩)
  split
  · refine meets_bind (close_meets.mono ?_)
    rintro s' diag' rfl
    exact meets_pure (.inl ⟨rfl, rfl⟩)
  · -- a second descriptor comes and goes while the first is open
    refine meets_bind ((resolveRealerPath_meets path realerPath).mono ?_)
    rintro s' resolved rfl
    refine meets_bind (close_meets.mono ?_)
    rintro s' diag' rfl
    exact meets_pure (.inr ⟨r.address, mappedSize, rfl, rfl, rfl⟩)

theorem mmapReadOnly_meets (hs : s.mapping = none ∧ s.handled = false) (size realerPath : Bool) :
    Books (mmapReadOnly diag path size realerPath) s fun s' v => Keeps size s s' v.2 := by
  refine meets_bind ((stat_meets path).mono ?_)
  rintro s' ⟨diag', statbuf⟩ rfl
  dsimp only
  split
  · exact meets_pure (.inl ⟨rfl, rfl⟩)
  split
  · exact meets_pure (.inl ⟨rfl, rfl⟩)
  refine meets_bind ((openPath_meets path _ _).mono ?_)
  rintro s' ⟨diag', result⟩ (⟨rfl, rfl⟩ | ⟨fd, rfl, rfl⟩)
  · exact meets_pure (.inl ⟨rfl, rfl⟩)
  · exact mapDescriptor_meets hs size realerPath _ false

theorem mmapReadWrite_meets (hs : s.mapping = none ∧ s.handled = false) (size realerPath : Bool) :
    Books (mmapReadWrite diag path size realerPath) s fun s' v => Keeps size s s' v.2 := by
  -- on every early return the descriptor is closed first
  have hclosed : ∀ (diag' : Diagnostics) (fd : Nat), Books
      (close diag' fd >>= fun diag' => pure (diag', Mapped.null)) (s.opened fd)
      fun s' v => Keeps size s s' v.2 := by
    intro diag' fd
    refine meets_bind (close_meets.mono ?_)
    rintro s' diag' rfl
    exact meets_pure (.inl ⟨rfl, rfl⟩)
  refine meets_bind ((openPath_meets path _ _).mono ?_)
  rintro s' ⟨diag', result⟩ (⟨rfl, rfl⟩ | ⟨fd, rfl, rfl⟩)
  · exact meets_pure (.inl ⟨rfl, rfl⟩)
  refine meets_bind ((stat_meets path).mono ?_)
  rintro s' ⟨diag', statbuf⟩ rfl
  dsimp only
  split
  · exact hclosed diag' fd
  split
  · refine meets_bind ((ftruncate_meets 4096).mono ?_)
    rintro s' diag' rfl
    split
    · exact hclosed diag' fd
    · exact mapDescriptor_meets hs size realerPath 4096 true
  · exact mapDescriptor_meets hs size realerPath statbuf.st_size true

/-- `withMmapReadOnly` leaves nothing; if it made a mapping, the handler has seen it. -/
theorem withMmapReadOnly_meets (hs : s.mapping = none ∧ s.handled = false) :
    Books (withMmapReadOnly diag path) s fun s' _ =>
      s' = s ∨ s' = { s with handled := true } := by
  refine meets_bind ((mmapReadOnly_meets hs true true).mono ?_)
  rintro s' ⟨diag', mapped⟩ (⟨hnone, rfl⟩ | ⟨address, len, rfl, hsome, hsize⟩)
  · dsimp only at hnone ⊢
    rw [hnone]
    exact meets_pure (.inl rfl)
  · -- handler, then `munmap`, both with what the account has
    dsimp only at hsome hsize ⊢
    rw [hsome, hsize]
    refine meets_bind (once_meets fun r =>
      ⟨{ s with mapping := some (address, len), handled := true }, ?_, ?_⟩)
    · rw [follow]
      exact if_pos ⟨rfl, hs.2⟩
    · refine meets_bind (once_meets fun r => ⟨{ s with handled := true }, ?_, meets_pure (.inr rfl)⟩)
      rw [follow]
      rw [if_pos ⟨rfl, rfl⟩, ← hs.1]

end Sys

/-! ## The calls themselves -/

section

variable {s s' : Resources} {trace : List (SysCall × Reply)}

/-- A successful `open` that returned `fd`. -/
def opens (fd : Nat) : SysCall × Reply → Bool
  | (.open _ _ _, r) => r.failure.isNone && r.descriptor == fd
  | _ => false

def closes (fd : Nat) : SysCall × Reply → Bool
  | (.close fd', _) => fd' == fd
  | _ => false

/-- The mappings that were made: address and length. -/
def mappings : List (SysCall × Reply) → List (Nat × BitVec 64) :=
  List.filterMap fun
    | (.mmap size _ _, r) => if r.failure.isSome then none else some (r.address, size)
    | _ => none

/-- What the handler was called with. -/
def handlings : List (SysCall × Reply) → List (Nat × BitVec 64) :=
  List.filterMap fun
    | (.handler mapping size _, _) => some (mapping, size)
    | _ => none

/-- What was unmapped. -/
def unmappings : List (SysCall × Reply) → List (Nat × BitVec 64) :=
  List.filterMap fun
    | (.munmap buf size, _) => some (buf, size)
    | _ => none

theorem needs_some {fd : Nat} {s₁ : Resources} (h : s.needs fd s₁ = some s') :
    fd ∈ s.descriptors ∧ s' = s₁ := by
  unfold Resources.needs at h
  split at h
  · exact ⟨‹_›, (Option.some.inj h).symm⟩
  · exact absurd h (by simp)

/-- A call that the account does not have to remember. -/
structure Idle (e : SysCall × Reply) : Prop where
  opens : ∀ fd, opens fd e = false
  closes : ∀ fd, closes fd e = false
  mappings : mappings [e] = []
  handlings : handlings [e] = []
  unmappings : unmappings [e] = []

/-- Everything that can be booked. -/
theorem follow_cases {c : SysCall} {r : Reply} (h : s.follow (c, r) = some s') :
    (∃ path flag other, c = .open path flag other ∧ r.failure = none ∧ s' = s.opened r.descriptor)
    ∨ (∃ fd, c = .close fd ∧ fd ∈ s.descriptors
      ∧ s' = { s with descriptors := s.descriptors.erase fd })
    ∨ (∃ size shared fd, c = .mmap size shared fd ∧ r.failure = none ∧ s.mapping = none
      ∧ s.handled = false ∧ s' = { s with mapping := some (r.address, size) })
    ∨ (∃ mapping size realerPath, c = .handler mapping size realerPath
      ∧ s.mapping = some (mapping, size) ∧ s.handled = false ∧ s' = { s with handled := true })
    ∨ (∃ buf size, c = .munmap buf size ∧ s.mapping = some (buf, size) ∧ s.handled = true
      ∧ s' = { s with mapping := none })
    ∨ s' = s ∧ Idle (c, r) := by
  cases c with
  | «open» path flag other =>
      obtain rfl := Option.some.inj h
      cases hf : r.failure with
      | none => exact .inl ⟨path, flag, other, rfl, rfl, by simp [Resources.opened]⟩
      | some failure =>
          refine .inr (.inr (.inr (.inr (.inr ⟨by simp, ⟨fun fd => ?_, ?_, ?_, ?_, ?_⟩⟩))))
          · simp [opens, hf]
          all_goals simp [closes, mappings, handlings, unmappings]
  | close fd =>
      obtain ⟨hmem, rfl⟩ := needs_some h
      exact .inr (.inl ⟨fd, rfl, hmem, rfl⟩)
  | mmap size shared fd =>
      rw [follow] at h
      split at h
      · rename_i hfree
        obtain ⟨-, rfl⟩ := needs_some h
        cases hf : r.failure with
        | none =>
            exact .inr (.inr (.inl ⟨size, shared, fd, rfl, rfl, hfree.1, hfree.2, by simp⟩))
        | some failure =>
            refine .inr (.inr (.inr (.inr (.inr ⟨by simp, ⟨?_, ?_, ?_, ?_, ?_⟩⟩))))
            all_goals simp [opens, closes, mappings, handlings, unmappings, hf]
      · exact absurd h (by simp)
  | handler mapping size realerPath =>
      rw [follow] at h
      split at h
      · rename_i hseen
        exact .inr (.inr (.inr (.inl ⟨mapping, size, realerPath, rfl, hseen.1, hseen.2,
          (Option.some.inj h).symm⟩)))
      · exact absurd h (by simp)
  | munmap buf size =>
      rw [follow] at h
      split at h
      · rename_i hseen
        exact .inr (.inr (.inr (.inr (.inl ⟨buf, size, rfl, hseen.1, hseen.2,
          (Option.some.inj h).symm⟩))))
      · exact absurd h (by simp)
  | stat path =>
      refine .inr (.inr (.inr (.inr (.inr ⟨(Option.some.inj h).symm, ⟨?_, ?_, ?_, ?_, ?_⟩⟩))))
      all_goals simp [opens, closes, mappings, handlings, unmappings]
  | truncate path size =>
      refine .inr (.inr (.inr (.inr (.inr ⟨(Option.some.inj h).symm, ⟨?_, ?_, ?_, ?_, ?_⟩⟩))))
      all_goals simp [opens, closes, mappings, handlings, unmappings]
  | fstatat fd path flag =>
      refine .inr (.inr (.inr (.inr (.inr ⟨(needs_some h).2, ⟨?_, ?_, ?_, ?_, ?_⟩⟩))))
      all_goals simp [opens, closes, mappings, handlings, unmappings]
  | ftruncate fd size =>
      refine .inr (.inr (.inr (.inr (.inr ⟨(needs_some h).2, ⟨?_, ?_, ?_, ?_, ?_⟩⟩))))
      all_goals simp [opens, closes, mappings, handlings, unmappings]
  | fcntlGetPath fd =>
      refine .inr (.inr (.inr (.inr (.inr ⟨(needs_some h).2, ⟨?_, ?_, ?_, ?_, ?_⟩⟩))))
      all_goals simp [opens, closes, mappings, handlings, unmappings]

/-- The account agrees with the calls. -/
structure Accounts (s : Resources) (trace : List (SysCall × Reply)) : Prop where
  descriptors : ∀ fd, trace.countP (closes fd) + s.descriptors.count fd = trace.countP (opens fd)
  single : (mappings trace).length ≤ 1
  /-- A mapping that was made is there, or was unmapped. -/
  kept : mappings trace = unmappings trace ++ s.mapping.toList
  shown : handlings trace = if s.handled then mappings trace else []
  inOrder : s.handled = false → unmappings trace = []

theorem mappings_snoc (trace : List (SysCall × Reply)) (e : SysCall × Reply) :
    mappings (trace ++ [e]) = mappings trace ++ mappings [e] := List.filterMap_append

theorem handlings_snoc (trace : List (SysCall × Reply)) (e : SysCall × Reply) :
    handlings (trace ++ [e]) = handlings trace ++ handlings [e] := List.filterMap_append

theorem unmappings_snoc (trace : List (SysCall × Reply)) (e : SysCall × Reply) :
    unmappings (trace ++ [e]) = unmappings trace ++ unmappings [e] := List.filterMap_append

/-- A call that is only about descriptors, or about nothing. -/
theorem Accounts.snoc {e : SysCall × Reply} (h : Accounts s trace)
    (hdescriptors : ∀ fd, (closes fd e).toNat + s'.descriptors.count fd
      = s.descriptors.count fd + (opens fd e).toNat)
    (hmapping : s'.mapping = s.mapping) (hhandled : s'.handled = s.handled)
    (hm : mappings [e] = []) (hh : handlings [e] = []) (hu : unmappings [e] = []) :
    Accounts s' (trace ++ [e]) where
  descriptors := by
    intro fd
    have hbefore := h.descriptors fd
    have hstep := hdescriptors fd
    rw [List.countP_append, List.countP_append, List.countP_singleton, List.countP_singleton]
    cases hc : closes fd e <;> cases ho : opens fd e <;> simp [hc, ho] at hstep ⊢ <;> omega
  single := by
    rw [mappings_snoc, hm, List.append_nil]
    exact h.single
  kept := by
    rw [mappings_snoc, unmappings_snoc, hm, hu, hmapping, List.append_nil, List.append_nil]
    exact h.kept
  shown := by
    rw [mappings_snoc, handlings_snoc, hm, hh, hhandled, List.append_nil, List.append_nil]
    exact h.shown
  inOrder := by
    rw [unmappings_snoc, hu, hhandled, List.append_nil]
    exact h.inOrder

theorem countP_snoc_false {p : SysCall × Reply → Bool} {e : SysCall × Reply} (h : p e = false) :
    (trace ++ [e]).countP p = trace.countP p := by
  rw [List.countP_append, List.countP_singleton, h]
  rfl

/-- Nothing was mapped as long as there is no mapping and the handler was not called. -/
theorem Accounts.mappings_eq (h : Accounts s trace) (hhandled : s.handled = false) :
    mappings trace = s.mapping.toList := by
  rw [h.kept, h.inOrder hhandled, List.nil_append]

theorem follow_accounts {c : SysCall} {r : Reply} (h : Accounts s trace)
    (hstep : s.follow (c, r) = some s') : Accounts s' (trace ++ [(c, r)]) := by
  obtain ⟨path, flag, other, rfl, hf, rfl⟩ | ⟨fd, rfl, hmem, rfl⟩
    | ⟨size, shared, fd, rfl, hf, hmapping, hhandled, rfl⟩
    | ⟨mapping, size, realerPath, rfl, hmapping, hhandled, rfl⟩
    | ⟨buf, size, rfl, hmapping, hhandled, rfl⟩ | ⟨rfl, hidle⟩ := follow_cases hstep
  · refine h.snoc (fun fd => ?_) rfl rfl rfl rfl rfl
    simp only [closes, opens, hf, Resources.opened, List.count_cons]
    by_cases heq : r.descriptor = fd <;> simp [heq]
  · refine h.snoc (fun fd' => ?_) rfl rfl rfl rfl rfl
    have hpos : 0 < s.descriptors.count fd := List.count_pos_iff.mpr hmem
    simp only [closes, opens, List.count_erase]
    by_cases heq : fd = fd'
    · subst heq
      simp only [beq_self_eq_true, if_true, Bool.toNat_true, Bool.toNat_false]
      omega
    · simp [heq]
  · have hnone : mappings trace = [] := by rw [h.mappings_eq hhandled, hmapping]; rfl
    have hnew : mappings [(SysCall.mmap size shared fd, r)] = [(r.address, size)] := by
      simp [mappings, hf]
    refine ⟨fun fd' => ?_, ?_, ?_, ?_, fun _ => ?_⟩
    · rw [countP_snoc_false rfl, countP_snoc_false rfl]
      exact h.descriptors fd'
    · rw [mappings_snoc, hnone, hnew]
      exact Nat.le_refl _
    · rw [mappings_snoc, unmappings_snoc, hnone, hnew, h.inOrder hhandled]
      rfl
    · rw [handlings_snoc, h.shown, hhandled]
      rfl
    · rw [unmappings_snoc, h.inOrder hhandled]
      rfl
  · have hmade : mappings trace = [(mapping, size)] := by rw [h.mappings_eq hhandled, hmapping]; rfl
    refine ⟨fun fd' => ?_, ?_, ?_, ?_, fun hno => absurd hno (by simp)⟩
    · rw [countP_snoc_false rfl, countP_snoc_false rfl]
      exact h.descriptors fd'
    · rw [mappings_snoc, hmade]
      exact Nat.le_refl _
    · rw [mappings_snoc, unmappings_snoc, hmade, h.inOrder hhandled, hmapping]
      rfl
    · rw [handlings_snoc, mappings_snoc, h.shown, hhandled, hmade]
      rfl
  · -- only one mapping was made, so this is the first one unmapped
    have hnone : unmappings trace = [] := by
      have hkept := h.kept
      have hsingle := h.single
      rw [hkept, hmapping, List.length_append] at hsingle
      exact List.eq_nil_of_length_eq_zero (by simp at hsingle; simp [hsingle])
    have hmade : mappings trace = [(buf, size)] := by rw [h.kept, hnone, hmapping]; rfl
    refine ⟨fun fd' => ?_, ?_, ?_, ?_, fun hno => ?_⟩
    · rw [countP_snoc_false rfl, countP_snoc_false rfl]
      exact h.descriptors fd'
    · rw [mappings_snoc, hmade]
      exact Nat.le_refl _
    · rw [mappings_snoc, unmappings_snoc, hmade, hnone]
      rfl
    · rw [handlings_snoc, mappings_snoc, h.shown, hhandled, hmade]
      rfl
    · rw [hhandled] at hno
      exact absurd hno (by simp)
  · refine h.snoc (fun fd => ?_) rfl rfl hidle.mappings hidle.handlings hidle.unmappings
    rw [hidle.opens, hidle.closes, Bool.toNat_false, Nat.zero_add]
    rfl

theorem start_accounts : Accounts .start [] := ⟨fun _ => rfl, Nat.zero_le _, rfl, rfl, fun _ => rfl⟩

theorem run_accounts (h : Transition.run follow .start trace = some s) : Accounts s trace := by
  induction trace using List.reverseRecOn generalizing s with
  | nil =>
      obtain rfl := Option.some.inj h
      exact start_accounts
  | append_singleton trace e ih =>
      obtain ⟨s₁, hs₁, hstep⟩ := Transition.run_snoc.mp h
      exact follow_accounts (ih hs₁) hstep

/-- Every call was in order, and every descriptor that was opened was closed as often. -/
structure Clean (trace : List (SysCall × Reply)) : Prop where
  booked : (Transition.run follow .start trace).isSome
  closed : ∀ fd, trace.countP (closes fd) = trace.countP (opens fd)

/-- The mapping that was made is what is returned, and its length is what is reported. -/
def Returns (size : Bool) (trace : List (SysCall × Reply)) (mapped : Sys.Mapped) : Prop :=
  unmappings trace = [] ∧ (mappings trace = [] ∧ mapped.mapping = none
    ∨ ∃ address len, mappings trace = [(address, len)] ∧ mapped.mapping = some address
      ∧ mapped.size = if size then some len else none)

theorem clean_of_run (h : Transition.run follow .start trace = some s) (hs : s.descriptors = []) :
    Clean trace := by
  refine ⟨by rw [h]; rfl, fun fd => ?_⟩
  have hbalance := (run_accounts h).descriptors fd
  rwa [hs, List.count_nil, Nat.add_zero] at hbalance

theorem returns_of_keeps {size : Bool} {mapped : Sys.Mapped}
    (h : Transition.run follow .start trace = some s) (hkeeps : Sys.Keeps size .start s mapped) :
    Clean trace ∧ Returns size trace mapped := by
  have haccounts := run_accounts h
  rcases hkeeps with ⟨hnone, rfl⟩ | ⟨address, len, rfl, hsome, hsize⟩
  · exact ⟨clean_of_run h rfl, haccounts.inOrder rfl, .inl ⟨haccounts.mappings_eq rfl, hnone⟩⟩
  · exact ⟨clean_of_run h rfl, haccounts.inOrder rfl,
      .inr ⟨address, len, haccounts.mappings_eq rfl, hsome, hsize⟩⟩

/-- On answers that are final again and again the function returns, and whenever it does, its calls
and its result are as they should be. -/
def Ensures {α : Type} (p : SysProg α) (P : List (SysCall × Reply) → α → Prop) : Prop :=
  (∀ replies : ℕ → Reply, (∀ i, ∃ j, i ≤ j ∧ (replies j).again = false) →
    ∃ n ran, p.run Reply.again ((List.range n).map replies) = some ran)
  ∧ ∀ rs ran, p.run Reply.again rs = some ran → P ran.trace ran.value

theorem ensures_of_meets {α S : Type} {m : S → SysCall × Reply → Option S} {s₀ : S} {p : SysProg α}
    {Q : S → α → Prop} {P : List (SysCall × Reply) → α → Prop} (h : Meets Reply.again m p s₀ Q)
    (hP : ∀ {trace s a}, Transition.run m s₀ trace = some s → Q s a → P trace a) :
    Ensures p P := by
  refine ⟨fun replies hfinal => exists_run p replies hfinal, fun rs ran hran => ?_⟩
  obtain ⟨s, hs, hq⟩ := h rs ran hran
  exact hP hs hq

/-- **Nothing leaks.** Whatever the system answers: `cwd`, `realpath` and the three `mmap` helpers
use and close only descriptors they have open, and close each of them once; the two that return a
mapping return the one that was made, with its length if that was asked for; `withMmapReadOnly`
shows its handler the mapping that was made, if there is one, and then unmaps that. -/
theorem helpers_leak_nothing (diag : Diagnostics) (path output : String) (size realerPath : Bool) :
    Ensures (Sys.cwd diag output) (fun trace _ => Clean trace)
    ∧ Ensures (Sys.realpath diag path output) (fun trace _ => Clean trace)
    ∧ Ensures (Sys.mmapReadOnly diag path size realerPath)
        (fun trace v => Clean trace ∧ Returns size trace v.2)
    ∧ Ensures (Sys.mmapReadWrite diag path size realerPath)
        (fun trace v => Clean trace ∧ Returns size trace v.2)
    ∧ Ensures (Sys.withMmapReadOnly diag path)
        (fun trace _ => Clean trace ∧ (mappings trace).length ≤ 1
          ∧ handlings trace = mappings trace ∧ unmappings trace = mappings trace) := by
  refine ⟨?_, ?_, ?_, ?_, ?_⟩
  · exact ensures_of_meets (Sys.cwd_meets (s := start))
      fun h hs => clean_of_run h (by rw [hs]; rfl)
  · exact ensures_of_meets (Sys.realpath_meets (s := start))
      fun h hs => clean_of_run h (by rw [hs]; rfl)
  · exact ensures_of_meets (Sys.mmapReadOnly_meets (s := start) ⟨rfl, rfl⟩ size realerPath)
      returns_of_keeps
  · exact ensures_of_meets (Sys.mmapReadWrite_meets (s := start) ⟨rfl, rfl⟩ size realerPath)
      returns_of_keeps
  · refine ensures_of_meets (Sys.withMmapReadOnly_meets (s := start) ⟨rfl, rfl⟩) fun h hs => ?_
    have haccounts := run_accounts h
    rcases hs with rfl | rfl
    · -- no mapping was made
      refine ⟨clean_of_run h rfl, haccounts.single, haccounts.shown.trans ?_, ?_⟩
      · exact (haccounts.mappings_eq rfl).symm
      · rw [haccounts.inOrder rfl]
        exact (haccounts.mappings_eq rfl).symm
    · refine ⟨clean_of_run h rfl, haccounts.single, haccounts.shown, ?_⟩
      rw [haccounts.kept]
      exact (List.append_nil _).symm

end

end NPFoundation
