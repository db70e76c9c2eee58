import NPFoundation.Sys.Resources
import Mathlib.Logic.Function.Basic

/-!
# One descriptor table, many threads

A descriptor is a number, and as soon as it is closed the next `open` of any thread may get it
again. Closing or using a number that one does not hold any more hits a file of somebody else, and
nobody is told. So `close` must not be retried on `EINTR`, and no helper may close twice.

Here every thread of a process calls the functions of `Sys`, each on the descriptors that it holds,
and other code opens and closes descriptors of its own. The system calls of all of them interleave.
-/

namespace NPFoundation.Descriptors

open Effects Resources Transition

/-! ## The process -/

/-- A call into `Sys`. -/
inductive Request where
  | open (path : String) (flag : OpenFlag) (other : Nat)
  | close (fd : Nat)
  | stat (path : String)
  | fstatat (fd : Nat) (path : String) (flag : Nat)
  | truncate (path : String) (size : BitVec 64)
  | ftruncate (fd : Nat) (size : BitVec 64)
  | cwd (output : String)
  | realpath (input output : String)
  | dirExists (path : String)
  | fileExists (path : String)
  | mmapReadOnly (path : String) (size realerPath : Bool)
  | withMmapReadOnly (path : String)
  | mmapReadWrite (path : String) (size realerPath : Bool)
  | munmap (buf : Nat) (size : BitVec 64)

/-- The descriptor a caller passes. -/
def Request.descriptor : Request → Option Nat
  | .close fd => some fd
  | .fstatat fd _ _ => some fd
  | .ftruncate fd _ => some fd
  | _ => none

/-- The call, by a caller that holds the descriptors `held`, up to the ones that it holds then. -/
def Request.program (diag : Diagnostics) (held : List Nat) : Request → SysProg (List Nat)
  | .open path flag other =>
      Sys.openPath diag path flag other >>= fun v => pure (v.2.toList ++ held)
  | .close fd => Sys.close diag fd >>= fun _ => pure (held.erase fd)
  | .stat path => Sys.stat diag path >>= fun _ => pure held
  | .fstatat fd path flag => Sys.fstatat diag fd path flag >>= fun _ => pure held
  | .truncate path size => Sys.truncate diag path size >>= fun _ => pure held
  | .ftruncate fd size => Sys.ftruncate diag fd size >>= fun _ => pure held
  | .cwd output => Sys.cwd diag output >>= fun _ => pure held
  | .realpath input output => Sys.realpath diag input output >>= fun _ => pure held
  | .dirExists path => Sys.dirExists path >>= fun _ => pure held
  | .fileExists path => Sys.fileExists path >>= fun _ => pure held
  | .mmapReadOnly path size realerPath =>
      Sys.mmapReadOnly diag path size realerPath >>= fun _ => pure held
  | .withMmapReadOnly path => Sys.withMmapReadOnly diag path >>= fun _ => pure held
  | .mmapReadWrite path size realerPath =>
      Sys.mmapReadWrite diag path size realerPath >>= fun _ => pure held
  | .munmap buf size => Sys.munmap diag buf size >>= fun _ => pure held

/-- The descriptor a system call works on. -/
def descriptor : SysCall → Option Nat
  | .close fd => some fd
  | .fstatat fd _ _ => some fd
  | .ftruncate fd _ => some fd
  | .fcntlGetPath fd => some fd
  | .mmap _ _ fd => some fd
  | _ => none

/-- Who opened a descriptor. -/
inductive Owner (τ : Type) where
  | thread (t : τ)
  /-- Code that does not go through `Sys`, the block passed to `withMmapReadOnly` included. -/
  | elsewhere
  deriving DecidableEq

variable {τ : Type}

structure Process (τ : Type) where
  /-- The descriptors that are open. -/
  table : Nat → Option (Owner τ)
  /-- What each thread still has to do of its call; after it, the descriptors it holds. -/
  threads : τ → SysProg (List Nat)

inductive Action (τ : Type) where
  | call (t : τ) (diag : Diagnostics) (request : Request)
  /-- The next system call of a thread is answered. -/
  | reply (t : τ) (r : Reply)
  | openElsewhere (fd : Nat)
  | closeElsewhere (fd : Nat)

def Process.start : Process τ := ⟨fun _ => none, fun _ => .ret []⟩

/-- The table after a call of thread `t`. An `open` gets a number that is free. A `close` frees its
number whatever it reports. -/
def answer (t : τ) (table : Nat → Option (Owner τ)) : SysCall → Reply →
    Option (Nat → Option (Owner τ))
  | .open _ _ _, r =>
      if r.failure.isSome then some table
      else if table r.descriptor = none then
        some (Function.update table r.descriptor (some (.thread t)))
      else none
  | .close fd, _ => some (Function.update table fd none)
  | _, _ => some table

variable [DecidableEq τ]

/-- A thread calls when its last call has returned, and passes only descriptors that it holds. -/
def step (p : Process τ) : Action τ → Option (Process τ)
  | .call t diag request =>
      match p.threads t with
      | .ret held =>
          if request.descriptor.all (· ∈ held) then
            some { p with threads := Function.update p.threads t (request.program diag held) }
          else none
      | .call _ _ _ => none
  | .reply t r =>
      match p.threads t with
      | .ret _ => none
      | .call c retried next =>
          (answer t p.table c r).map fun table =>
            ⟨table, Function.update p.threads t
              (if retried && r.again then .call c retried next else next r)⟩
  | .openElsewhere fd =>
      if p.table fd = none then
        some { p with table := Function.update p.table fd (some .elsewhere) }
      else none
  | .closeElsewhere fd =>
      if p.table fd = some .elsewhere then
        some { p with table := Function.update p.table fd none }
      else none

/-! ## The calls of one thread -/

section

variable {s : Resources} {diag : Diagnostics} {fd : Nat}

theorem close_held (h : fd ∈ s.descriptors) :
    Books (Sys.close diag fd) s fun s' _ => s'.descriptors = s.descriptors.erase fd :=
  meets_bind (Sys.once_meets fun _ => ⟨_, if_pos h, meets_pure rfl⟩)

theorem fstatat_held (h : fd ∈ s.descriptors) (path : String) (flag : Nat) :
    Books (Sys.fstatat diag fd path flag) s fun s' _ => s' = s :=
  meets_bind (Sys.retried_meets (fun _ _ => if_pos h) fun _ _ => ⟨s, if_pos h, meets_pure rfl⟩)

theorem ftruncate_held (h : fd ∈ s.descriptors) (size : BitVec 64) :
    Books (Sys.ftruncate diag fd size) s fun s' _ => s' = s :=
  meets_bind (Sys.retried_meets (fun _ _ => if_pos h) fun _ _ => ⟨s, if_pos h, meets_pure rfl⟩)

theorem truncate_books (path : String) (size : BitVec 64) :
    Books (Sys.truncate diag path size) s fun s' _ => s' = s :=
  meets_bind (Sys.retried_meets (fun _ _ => rfl) fun _ _ => ⟨s, rfl, meets_pure rfl⟩)

theorem munmap_books {buf : Nat} {size : BitVec 64} (h : s.mapping = some (buf, size))
    (hhandled : s.handled = true) :
    Books (Sys.munmap diag buf size) s fun s' _ => s'.descriptors = s.descriptors :=
  meets_bind (Sys.once_meets fun _ => ⟨_, if_pos ⟨h, hhandled⟩, meets_pure rfl⟩)

/-- A call that leaves the descriptors as they were. -/
theorem unchanged {α : Type} {p : SysProg α} {held : List Nat} (hs : s.descriptors = held)
    (h : Books p s fun s' _ => s'.descriptors = s.descriptors) :
    Books (p >>= fun _ => pure held) s fun s' held' => s'.descriptors = held' :=
  meets_bind (h.mono fun _ _ hs' => meets_pure (hs'.trans hs))

theorem keeps_descriptors {size : Bool} {s' : Resources} {mapped : Sys.Mapped}
    (h : Sys.Keeps size s s' mapped) : s'.descriptors = s.descriptors := by
  rcases h with ⟨-, rfl⟩ | ⟨address, len, rfl, -⟩
  · rfl
  · rfl

/-- **Every function of `Sys`** works on descriptors that the caller holds or that it opened
itself, and leaves the caller the ones it says. -/
theorem program_books (diag : Diagnostics) (held : List Nat) (request : Request)
    (hheld : request.descriptor.all (· ∈ held)) :
    ∃ s : Resources, s.descriptors = held
      ∧ Books (request.program diag held) s fun s' held' => s'.descriptors = held' := by
  have hmem : ∀ {fd}, request.descriptor = some fd → fd ∈ held := by
    intro fd hfd
    rw [hfd] at hheld
    simpa using hheld
  cases request with
  | «open» path flag other =>
      refine ⟨⟨held, none, false⟩, rfl, meets_bind ((Sys.openPath_meets path flag other).mono ?_)⟩
      rintro s' ⟨diag', result⟩ (⟨rfl, rfl⟩ | ⟨fd, rfl, rfl⟩)
      · exact meets_pure rfl
      · exact meets_pure rfl
  | close fd =>
      exact ⟨⟨held, none, false⟩, rfl,
        meets_bind ((close_held (hmem rfl)).mono fun _ _ hs' => meets_pure hs')⟩
  | stat path =>
      refine ⟨⟨held, none, false⟩, rfl, unchanged rfl ((Sys.stat_meets path).mono ?_)⟩
      rintro s' v rfl
      rfl
  | fstatat fd path flag =>
      refine ⟨⟨held, none, false⟩, rfl, unchanged rfl ((fstatat_held (hmem rfl) path flag).mono ?_)⟩
      rintro s' v rfl
      rfl
  | truncate path size =>
      refine ⟨⟨held, none, false⟩, rfl, unchanged rfl ((truncate_books path size).mono ?_)⟩
      rintro s' v rfl
      rfl
  | ftruncate fd size =>
      refine ⟨⟨held, none, false⟩, rfl, unchanged rfl ((ftruncate_held (hmem rfl) size).mono ?_)⟩
      rintro s' v rfl
      rfl
  | cwd output =>
      refine ⟨⟨held, none, false⟩, rfl, unchanged rfl (Sys.cwd_meets.mono ?_)⟩
      rintro s' v rfl
      rfl
  | realpath input output =>
      refine ⟨⟨held, none, false⟩, rfl, unchanged rfl (Sys.realpath_meets.mono ?_)⟩
      rintro s' v rfl
      rfl
  | dirExists path =>
      refine ⟨⟨held, none, false⟩, rfl, unchanged rfl (meets_bind ((Sys.stat_meets path).mono ?_))⟩
      rintro s' v rfl
      exact meets_pure rfl
  | fileExists path =>
      refine ⟨⟨held, none, false⟩, rfl, unchanged rfl (meets_bind ((Sys.stat_meets path).mono ?_))⟩
      rintro s' v rfl
      exact meets_pure rfl
  | mmapReadOnly path size realerPath =>
      exact ⟨⟨held, none, false⟩, rfl, unchanged rfl
        ((Sys.mmapReadOnly_meets ⟨rfl, rfl⟩ size realerPath).mono fun _ _ => keeps_descriptors)⟩
  | withMmapReadOnly path =>
      refine ⟨⟨held, none, false⟩, rfl, unchanged rfl
        ((Sys.withMmapReadOnly_meets ⟨rfl, rfl⟩).mono ?_)⟩
      rintro s' v (rfl | rfl)
      · rfl
      · rfl
  | mmapReadWrite path size realerPath =>
      exact ⟨⟨held, none, false⟩, rfl, unchanged rfl
        ((Sys.mmapReadWrite_meets ⟨rfl, rfl⟩ size realerPath).mono fun _ _ => keeps_descriptors)⟩
  | munmap buf size => exact ⟨⟨held, some (buf, size), true⟩, rfl, unchanged rfl (munmap_books rfl rfl)⟩

end

/-! ## Whose descriptors they are -/

/-- What thread `t` holds is what the table says is its. -/
structure Holds (t : τ) (table : Nat → Option (Owner τ)) (held : List Nat) : Prop where
  nodup : held.Nodup
  mem_iff : ∀ fd, fd ∈ held ↔ table fd = some (.thread t)

/-- What a thread holds after a system call. -/
def booked (held : List Nat) : SysCall → Reply → List Nat
  | .open _ _ _, r => if r.failure.isSome then held else r.descriptor :: held
  | .close fd, _ => held.erase fd
  | _, _ => held

theorem follow_booked {s s' : Resources} {c : SysCall} {r : Reply}
    (h : s.follow (c, r) = some s') :
    s'.descriptors = booked s.descriptors c r ∧ ∀ fd, descriptor c = some fd → fd ∈ s.descriptors := by
  cases c with
  | «open» path flag other =>
      obtain rfl := Option.some.inj h
      refine ⟨?_, fun fd hfd => absurd hfd (by simp [descriptor])⟩
      rw [booked]
      split
      · rfl
      · rfl
  | close fd =>
      obtain ⟨hmem, rfl⟩ := needs_some h
      refine ⟨rfl, ?_⟩
      rintro fd' hfd
      exact Option.some.inj hfd ▸ hmem
  | fstatat fd path flag =>
      obtain ⟨hmem, rfl⟩ := needs_some h
      refine ⟨rfl, ?_⟩
      rintro fd' hfd
      exact Option.some.inj hfd ▸ hmem
  | ftruncate fd size =>
      obtain ⟨hmem, rfl⟩ := needs_some h
      refine ⟨rfl, ?_⟩
      rintro fd' hfd
      exact Option.some.inj hfd ▸ hmem
  | fcntlGetPath fd =>
      obtain ⟨hmem, rfl⟩ := needs_some h
      refine ⟨rfl, ?_⟩
      rintro fd' hfd
      exact Option.some.inj hfd ▸ hmem
  | mmap size shared fd =>
      obtain ⟨-, h⟩ := Option.ite_none_right_eq_some.mp h
      obtain ⟨hmem, rfl⟩ := needs_some h
      refine ⟨?_, ?_⟩
      · split
        · rfl
        · rfl
      · rintro fd' hfd
        exact Option.some.inj hfd ▸ hmem
  | stat path =>
      obtain rfl := Option.some.inj h
      exact ⟨rfl, fun fd hfd => absurd hfd (by simp [descriptor])⟩
  | truncate path size =>
      obtain rfl := Option.some.inj h
      exact ⟨rfl, fun fd hfd => absurd hfd (by simp [descriptor])⟩
  | handler mapping size realerPath =>
      obtain ⟨-, h⟩ := Option.ite_none_right_eq_some.mp h
      obtain rfl := Option.some.inj h
      exact ⟨rfl, fun fd hfd => absurd hfd (by simp [descriptor])⟩
  | munmap buf size =>
      obtain ⟨-, h⟩ := Option.ite_none_right_eq_some.mp h
      obtain rfl := Option.some.inj h
      exact ⟨rfl, fun fd hfd => absurd hfd (by simp [descriptor])⟩

omit [DecidableEq τ] in
/-- An `open` adds to the table, a `close` takes from it, and nothing else changes it. -/
theorem answer_cases {t : τ} {table table' : Nat → Option (Owner τ)} {c : SysCall} {r : Reply}
    (h : answer t table c r = some table') (held : List Nat) :
    (table' = table ∧ booked held c r = held)
      ∨ (table r.descriptor = none ∧ booked held c r = r.descriptor :: held
        ∧ table' = Function.update table r.descriptor (some (.thread t)))
      ∨ ∃ fd, descriptor c = some fd ∧ booked held c r = held.erase fd
        ∧ table' = Function.update table fd none := by
  cases c with
  | «open» path flag other =>
      simp only [answer] at h
      split at h
      · rename_i hfailed
        exact .inl ⟨(Option.some.inj h).symm, if_pos hfailed⟩
      · rename_i hok
        obtain ⟨hfree, h⟩ := Option.ite_none_right_eq_some.mp h
        exact .inr (.inl ⟨hfree, if_neg hok, (Option.some.inj h).symm⟩)
  | close fd => exact .inr (.inr ⟨fd, rfl, rfl, (Option.some.inj h).symm⟩)
  | _ => exact .inl ⟨(Option.some.inj h).symm, rfl⟩

section

variable {t u : τ} {table table' : Nat → Option (Owner τ)} {held held' : List Nat} {fd : Nat}
  {c : SysCall} {r : Reply} {p p' : Process τ} {a : Action τ}

omit [DecidableEq τ] in
/-- Somebody else's descriptor comes or goes. -/
theorem Holds.update (h : Holds t table held) {x : Option (Owner τ)} (hx : x ≠ some (.thread t))
    (hfd : table fd ≠ some (.thread t)) : Holds t (Function.update table fd x) held where
  nodup := h.nodup
  mem_iff := by
    intro fd'
    rw [h.mem_iff]
    rcases eq_or_ne fd' fd with rfl | hne
    · rw [Function.update_self]
      exact iff_of_false hfd hx
    · rw [Function.update_of_ne hne]

omit [DecidableEq τ] in
/-- The thread that made the call. -/
theorem Holds.answer (h : Holds t table held) (hanswer : answer t table c r = some table') :
    Holds t table' (booked held c r) := by
  rcases answer_cases hanswer held with ⟨rfl, hbooked⟩ | ⟨hfree, hbooked, rfl⟩
    | ⟨fd, -, hbooked, rfl⟩
  · rw [hbooked]
    exact h
  · rw [hbooked]
    refine ⟨List.nodup_cons.mpr ⟨fun hmem => ?_, h.nodup⟩, fun fd' => ?_⟩
    · rw [h.mem_iff, hfree] at hmem
      exact absurd hmem (by simp)
    · rw [List.mem_cons]
      rcases eq_or_ne fd' r.descriptor with rfl | hne
      · simp
      · rw [Function.update_of_ne hne, ← h.mem_iff]
        exact or_iff_right hne
  · rw [hbooked]
    refine ⟨h.nodup.erase fd, fun fd' => ?_⟩
    rw [h.nodup.mem_erase_iff]
    rcases eq_or_ne fd' fd with rfl | hne
    · simp
    · rw [Function.update_of_ne hne, ← h.mem_iff]
      exact and_iff_right hne

omit [DecidableEq τ] in
/-- **The other threads** are not touched by it, since a call that is for a descriptor is for one of
the caller's own. -/
theorem Holds.answer_other (h : Holds u table held') (hne : u ≠ t) (hown : Holds t table held)
    (hmem : ∀ fd, descriptor c = some fd → fd ∈ held)
    (hanswer : Descriptors.answer t table c r = some table') : Holds u table' held' := by
  have hthread : (some (.thread t) : Option (Owner τ)) ≠ some (.thread u) := by
    intro heq
    exact hne (Owner.thread.inj (Option.some.inj heq)).symm
  rcases answer_cases hanswer held with ⟨rfl, -⟩ | ⟨hfree, -, rfl⟩ | ⟨fd, hfd, -, rfl⟩
  · exact h
  · exact h.update hthread (by rw [hfree]; simp)
  · refine h.update (by simp) ?_
    rw [(hown.mem_iff fd).mp (hmem fd hfd)]
    exact hthread

/-- The account of each thread fits the table, and what is left of its call can be booked. -/
def Inv (p : Process τ) : Prop :=
  ∀ t, ∃ s : Resources, Holds t p.table s.descriptors
    ∧ Books (p.threads t) s fun s' held => s'.descriptors = held

omit [DecidableEq τ] in
theorem inv_start : Inv (.start : Process τ) := by
  intro t
  refine ⟨.start, ⟨List.nodup_nil, fun fd => ?_⟩, meets_pure rfl⟩
  simp [Resources.start, Process.start]

omit [DecidableEq τ] in
theorem Inv.update (h : Inv p) {x : Option (Owner τ)} (hx : ∀ t, x ≠ some (.thread t))
    (hfd : ∀ t, p.table fd ≠ some (.thread t)) :
    Inv { p with table := Function.update p.table fd x } := by
  intro t
  obtain ⟨s, hholds, hbooks⟩ := h t
  exact ⟨s, hholds.update (hx t) (hfd t), hbooks⟩

/-- A reply without a failure, that gives out descriptor `fd`. -/
def Reply.gives (fd : Nat) : Reply := ⟨none, fd, ⟨0, .other⟩, "", 0⟩

/-- The next call of a thread can be booked. -/
theorem follows {retried : Bool} {next : Reply → SysProg (List Nat)} {s : Resources}
    {Q : Resources → List Nat → Prop} (hbooks : Books (.call c retried next) s Q) (r : Reply) :
    ∃ s', s'.descriptors = booked s.descriptors c r
      ∧ (∀ fd, descriptor c = some fd → fd ∈ s.descriptors)
      ∧ Books (if retried && r.again then .call c retried next else next r) s' Q := by
  obtain ⟨s', hs', hrest⟩ :=
    hbooks.call_cases (show (Reply.gives 0).again = false from rfl) r
  obtain ⟨hdescriptors, hmem⟩ := follow_booked hs'
  exact ⟨s', hdescriptors, hmem, hrest⟩

/-- **One step.** -/
theorem inv_step (h : Inv p) (hstep : step p a = some p') : Inv p' := by
  cases a with
  | call t diag request =>
      simp only [step] at hstep
      split at hstep
      · rename_i held hidle
        obtain ⟨hheld, heq⟩ := Option.ite_none_right_eq_some.mp hstep
        obtain rfl := Option.some.inj heq
        intro u
        rcases eq_or_ne u t with rfl | hne
        · obtain ⟨s, hholds, hbooks⟩ := h u
          rw [hidle] at hbooks
          have hs := meets_pure_inv hbooks
          obtain ⟨s₁, hs₁, hrest⟩ := program_books diag held request hheld
          refine ⟨s₁, by rw [hs₁, ← hs]; exact hholds, ?_⟩
          dsimp only
          rw [Function.update_self]
          exact hrest
        · obtain ⟨s, hholds, hbooks⟩ := h u
          refine ⟨s, hholds, ?_⟩
          dsimp only
          rw [Function.update_of_ne hne]
          exact hbooks
      · exact absurd hstep (by simp)
  | reply t r =>
      simp only [step] at hstep
      split at hstep
      · exact absurd hstep (by simp)
      · rename_i c retried next hcall
        obtain ⟨table, hanswer, rfl⟩ := Option.map_eq_some_iff.mp hstep
        obtain ⟨s, hholds, hbooks⟩ := h t
        rw [hcall] at hbooks
        obtain ⟨s', hs', hmem, hrest⟩ := follows hbooks r
        intro u
        rcases eq_or_ne u t with rfl | hne
        · refine ⟨s', by rw [hs']; exact hholds.answer hanswer, ?_⟩
          dsimp only
          rw [Function.update_self]
          exact hrest
        · obtain ⟨su, hholdsu, hbooksu⟩ := h u
          refine ⟨su, hholdsu.answer_other hne hholds hmem hanswer, ?_⟩
          dsimp only
          rw [Function.update_of_ne hne]
          exact hbooksu
  | openElsewhere fd =>
      obtain ⟨hfree, heq⟩ := Option.ite_none_right_eq_some.mp hstep
      obtain rfl := Option.some.inj heq
      exact h.update (fun t => by simp) fun t => by rw [hfree]; simp
  | closeElsewhere fd =>
      obtain ⟨helse, heq⟩ := Option.ite_none_right_eq_some.mp hstep
      obtain rfl := Option.some.inj heq
      exact h.update (fun t => by simp) fun t => by rw [helse]; simp

/-- **Nobody touches the descriptors of another.** In every interleaving of threads that call the
functions of `Sys` with other code that opens and closes descriptors, and whatever the system
answers: a system call on a descriptor is made only by the thread that opened it, while it is
open. Between its calls a thread has exactly those open that `open` returned to it and it did not
close since, so the other functions leave none behind and take none away. -/
theorem descriptors_never_crossed (as : List (Action τ)) (p : Process τ)
    (hrun : run step .start as = some p) :
    (∀ t c retried next fd, p.threads t = .call c retried next → descriptor c = some fd →
      p.table fd = some (.thread t))
    ∧ ∀ t held, p.threads t = .ret held →
      held.Nodup ∧ ∀ fd, fd ∈ held ↔ p.table fd = some (.thread t) := by
  have h : Inv p := run_invariant inv_step inv_start hrun
  refine ⟨fun t c retried next fd hcall hfd => ?_, fun t held hidle => ?_⟩
  · obtain ⟨s, hholds, hbooks⟩ := h t
    rw [hcall] at hbooks
    obtain ⟨-, -, hmem, -⟩ := follows hbooks (Reply.gives 0)
    exact (hholds.mem_iff fd).mp (hmem fd hfd)
  · obtain ⟨s, hholds, hbooks⟩ := h t
    rw [hidle] at hbooks
    obtain rfl := meets_pure_inv hbooks
    exact ⟨hholds.nodup, hholds.mem_iff⟩

end

/-- Thread `t` closes its descriptor and hears `EINTR`, and thread `u` gets the number. -/
def reusedNumber (t u : τ) : List (Action τ) :=
  [.call t .quiet (.open "a" .readOnly 0), .reply t (Reply.gives 3), .call t .quiet (.close 3),
    .call u .quiet (.realpath "b" ""),
    .reply t { Reply.gives 0 with failure := some ⟨EINTR, "Interrupted system call"⟩ },
    .reply u (Reply.gives 3)]

/-- There is nothing left for `t` to close: the number is that of `u` now. -/
theorem descriptors_never_crossed_reused :
    ∃ p : Process (Fin 2), run step .start (reusedNumber 0 1) = some p
      ∧ p.table 3 = some (.thread 1) ∧ ∀ fd, p.table fd ≠ some (.thread 0) := by
  obtain ⟨p, hrun⟩ : ∃ p : Process (Fin 2), run step .start (reusedNumber 0 1) = some p := ⟨_, rfl⟩
  have hidle : p.threads 0 = .ret [] := by
    cases hrun
    rfl
  obtain ⟨retried, next, hcall⟩ : ∃ retried next,
      p.threads 1 = .call (.fcntlGetPath 3) retried next := by
    cases hrun
    exact ⟨_, _, rfl⟩
  obtain ⟨hused, hheld⟩ := descriptors_never_crossed _ p hrun
  refine ⟨p, hrun, hused 1 _ _ _ 3 hcall rfl, fun fd hfd => ?_⟩
  have hmem := ((hheld 0 [] hidle).2 fd).mpr hfd
  exact absurd hmem (by simp)

end NPFoundation.Descriptors
