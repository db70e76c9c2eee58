import NPFoundation.Sys.EarlierErrors
import NPFoundation.Sys.Resources

/-!
# One error for each failure

A sequence of calls to `Sys` shares one `Diagnostics`, which is looked at once in the end.
What should be in it is read off the system calls that were made: one error for each that
failed for good. An attempt that is made again has not failed for good, a `close` that was
interrupted has closed its descriptor, and the calls made to find the `realerPath` of a
mapping must not disturb the caller's diagnostics.

Those last ones are told from the others by where they stand. Between a successful `mmap`
and the `close` of the descriptor it mapped there is nothing else: the path is opened,
the new descriptor is asked for its path and closed. `Place` follows a helper through
that and refuses anything that does not fit.
-/

namespace NPFoundation

open Effects Diagnostics

/-- What an error calls the call that failed. -/
def SysCall.what : SysCall → String
  | .open _ _ _ => "open()"
  | .close _ => "close()"
  | .stat _ => "stat()"
  | .fstatat _ _ _ => "fstatat()"
  | .truncate _ _ => "truncate()"
  | .ftruncate _ _ => "ftruncate()"
  | .fcntlGetPath _ => "fcntl(F_GETPATH)"
  | .mmap size _ _ => "mmap(size=0x" ++ Sys.hex size ++ ")"
  | .munmap _ _ => "munmap()"
  | .handler _ _ _ => ""

/-- The calls that are made again on `EAGAIN` and `EINTR`. -/
def SysCall.isRetried : SysCall → Bool
  | .open _ _ _ => true
  | .stat _ => true
  | .fstatat _ _ _ => true
  | .truncate _ _ => true
  | .ftruncate _ _ => true
  | _ => false

/-- A call that failed for good: not an attempt that is made again, not a `close` that was
interrupted, and not the caller's block, which is no system call. -/
def definitive : SysCall × Reply → Option Failure
  | (.close _, r) => r.failure.filter fun failure => failure.errno != EINTR
  | (.handler _ _ _, _) => none
  | (c, r) => if c.isRetried && r.again then none else r.failure

/-- Where in a helper the calls have come to. -/
inductive Place where
  /-- Nothing is being resolved. -/
  | plain
  /-- Descriptor `fd` has been mapped. -/
  | mapped (fd : Nat)
  /-- The path has been opened again, as `resolving`. -/
  | opened (fd resolving : Nat)
  /-- That descriptor has been asked for its path. -/
  | asked (fd resolving : Nat)
  /-- What was there to find has been found, or not. -/
  | resolved (fd : Nat)
  deriving DecidableEq, Repr

namespace Place

/-- The place after a call; `none` if the call does not belong there. -/
def next : Place → SysCall × Reply → Option Place
  | plain, (.mmap _ _ fd, r) => some (if r.failure.isSome then plain else mapped fd)
  | plain, _ => some plain
  | mapped fd, (.open _ _ _, r) =>
      some (if r.again then mapped fd
        else if r.failure.isSome then resolved fd else opened fd r.descriptor)
  | mapped fd, (.close fd', _) => if fd' = fd then some plain else none
  | opened fd resolving, (.fcntlGetPath fd', _) =>
      if fd' = resolving then some (asked fd resolving) else none
  | asked fd resolving, (.close fd', _) => if fd' = resolving then some (resolved fd) else none
  | resolved fd, (.close fd', _) => if fd' = fd then some plain else none
  | _, _ => none

/-- The call is made only to resolve the path. -/
def resolves : Place → SysCall → Bool
  | mapped _, .open _ _ _ => true
  | opened _ _, _ => true
  | asked _ _, _ => true
  | _, _ => false

end Place

/-- Where the calls have come to, and the errors for those that failed for good so far. -/
structure Channel where
  place : Place
  errors : List Message
  deriving DecidableEq, Repr

namespace Channel

def start : Channel := ⟨.plain, []⟩

/-- The error that a call should leave. -/
def due (s : Channel) (e : SysCall × Reply) : List Message :=
  if s.place.resolves e.1 then [] else reported e.1.what (definitive e)

def follow (s : Channel) (e : SysCall × Reply) : Option Channel :=
  (s.place.next e).map fun place => ⟨place, s.errors ++ s.due e⟩

end Channel

/-- One error for each call of a trace that failed for good, in order, those that resolve
`realerPath` left out; `none` for a trace that ends inside of a helper or does not follow one. -/
def definitiveFailures (trace : List (SysCall × Reply)) : Option (List Message) :=
  (Transition.run Channel.follow .start trace).bind fun s =>
    if s.place = .plain then some s.errors else none

namespace Sys

/-! ## Sequences of calls -/

/-- The functions of `Sys` that report into a `Diagnostics`, with the rest of their arguments. -/
inductive Wrapper where
  | open (path : String) (flag : OpenFlag) (other : Nat)
  | close (fd : Nat)
  | stat (path : String)
  | fstatat (fd : Nat) (path : String) (flag : Nat)
  | truncate (path : String) (size : BitVec 64)
  | ftruncate (fd : Nat) (size : BitVec 64)
  | cwd (output : String)
  | realpath (input output : String)
  | mmapReadOnly (path : String) (size realerPath : Bool)
  | mmapReadWrite (path : String) (size realerPath : Bool)
  | withMmapReadOnly (path : String)
  | munmap (buf : Nat) (size : BitVec 64)
  deriving DecidableEq, Repr

/-- The diagnostics after one call. -/
def Wrapper.call (diag : Diagnostics) : Wrapper → SysProg Diagnostics
  | .open path flag other => do return (← openPath diag path flag other).1
  | .close fd => Sys.close diag fd
  | .stat path => do return (← Sys.stat diag path).1
  | .fstatat fd path flag => do return (← Sys.fstatat diag fd path flag).1
  | .truncate path size => Sys.truncate diag path size
  | .ftruncate fd size => Sys.ftruncate diag fd size
  | .cwd output => do return (← Sys.cwd diag output).1
  | .realpath input output => do return (← Sys.realpath diag input output).1
  | .mmapReadOnly path size realerPath => do return (← Sys.mmapReadOnly diag path size realerPath).1
  | .mmapReadWrite path size realerPath => do
      return (← Sys.mmapReadWrite diag path size realerPath).1
  | .withMmapReadOnly path => Sys.withMmapReadOnly diag path
  | .munmap buf size => Sys.munmap diag buf size

/-- One call after the other on one `Diagnostics`. -/
def sequence (diag : Diagnostics) : List Wrapper → SysProg Diagnostics
  | [] => return diag
  | w :: ws => do
      let diag ← w.call diag
      sequence diag ws

/-- A function whose calls can be followed from `s` on. -/
abbrev Follows {α : Type} (p : SysProg α) (s : Channel) (Q : Channel → α → Prop) : Prop :=
  Meets Reply.again Channel.follow p s Q

/-- Between two functions: what is collected is what was there and what is due. -/
def Told (base : List Message) (s : Channel) (diag : Diagnostics) : Prop :=
  s.place = .plain ∧ diag.errors = base ++ s.errors

variable {base : List Message} {s : Channel} {diag : Diagnostics} {c : SysCall} {r : Reply}
  {fd : Nat} {path output : String}

theorem told_report (h : diag.errors = base ++ s.errors) (what : String)
    (failure : Option Failure) :
    Told base ⟨.plain, s.errors ++ reported what failure⟩ (diag.report what failure) := by
  refine ⟨rfl, ?_⟩
  rw [report_errors, h, List.append_assoc]

/-! ## One call -/

theorem definitive_of_again (hc : c.isRetried = true) (hr : r.again = true) :
    definitive (c, r) = none := by
  cases c with
  | close _ => exact absurd hc (by simp [SysCall.isRetried])
  | handler _ _ _ => rfl
  | _ => simp only [definitive, hc, hr, Bool.and_self, if_true]

theorem definitive_of_final (hc : c.isRetried = true) (hr : r.again = false) :
    definitive (c, r) = r.failure := by
  cases c with
  | close _ => exact absurd hc (by simp [SysCall.isRetried])
  | handler _ _ _ => exact absurd hc (by simp [SysCall.isRetried])
  | _ => simp [definitive, hr]

theorem follow_plain (hs : s.place = .plain) (hc : ∀ size shared fd, c ≠ .mmap size shared fd)
    (r : Reply) :
    s.follow (c, r) = some ⟨.plain, s.errors ++ reported c.what (definitive (c, r))⟩ := by
  obtain ⟨place, errors⟩ := s
  obtain rfl : place = .plain := hs
  cases c with
  | mmap size shared fd => exact absurd rfl (hc size shared fd)
  | _ => rfl

/-- A call that is made until it is settled leaves an error if that went wrong. -/
theorem retried_told (hc : c.isRetried = true) (h : Told base s diag) :
    Follows (retried c) s fun s' r => Told base s' (diag.report c.what r.failure) := by
  have hmmap : ∀ size shared fd, c ≠ .mmap size shared fd := by
    intro size shared fd heq
    rw [heq] at hc
    exact absurd hc (by simp [SysCall.isRetried])
  refine retried_meets (fun r hr => ?_) (fun r hr => ?_)
  · rw [follow_plain h.1 hmmap, definitive_of_again hc hr]
    simp [reported, ← h.1]
  · refine ⟨_, follow_plain h.1 hmmap r, ?_⟩
    rw [definitive_of_final hc hr]
    exact told_report h.2 c.what r.failure

/-- So does a call that is made once. -/
theorem once_told (hc : ∀ size shared fd, c ≠ .mmap size shared fd) (h : Told base s diag) :
    Follows (once c) s fun s' r => Told base s' (diag.report c.what (definitive (c, r))) :=
  once_meets fun r => ⟨_, follow_plain h.1 hc r, told_report h.2 c.what _⟩

/-! ## The wrappers around one call -/

theorem openPath_told (h : Told base s diag) (path : String) (flag : OpenFlag) (other : Nat) :
    Follows (openPath diag path flag other) s fun s' v => Told base s' v.1 :=
  meets_bind ((retried_told rfl h).mono fun _ _ ht => meets_pure ht)

theorem stat_told (h : Told base s diag) (path : String) :
    Follows (stat diag path) s fun s' v => Told base s' v.1 :=
  meets_bind ((retried_told rfl h).mono fun _ _ ht => meets_pure ht)

theorem fstatat_told (h : Told base s diag) (fd : Nat) (path : String) (flag : Nat) :
    Follows (fstatat diag fd path flag) s fun s' v => Told base s' v.1 :=
  meets_bind ((retried_told rfl h).mono fun _ _ ht => meets_pure ht)

theorem truncate_told (h : Told base s diag) (path : String) (size : BitVec 64) :
    Follows (truncate diag path size) s (Told base) :=
  meets_bind ((retried_told rfl h).mono fun _ _ ht => meets_pure ht)

theorem ftruncate_told (h : Told base s diag) (fd : Nat) (size : BitVec 64) :
    Follows (ftruncate diag fd size) s (Told base) :=
  meets_bind ((retried_told rfl h).mono fun _ _ ht => meets_pure ht)

theorem munmap_told (h : Told base s diag) (buf : Nat) (size : BitVec 64) :
    Follows (munmap diag buf size) s (Told base) :=
  meets_bind ((once_told (by simp) h).mono fun _ _ ht => meets_pure ht)

/-- A descriptor that was mapped is closed by the helper, whether or not a path was resolved. -/
theorem close_told (hs : s.place = .plain ∨ s.place = .mapped fd ∨ s.place = .resolved fd)
    (h : diag.errors = base ++ s.errors) : Follows (close diag fd) s (Told base) := by
  have hfollow : ∀ r, s.follow (.close fd, r)
      = some ⟨.plain, s.errors ++ reported "close()" (definitive (.close fd, r))⟩ := by
    intro r
    obtain ⟨place, errors⟩ := s
    rcases hs with hs | hs | hs
    · obtain rfl : place = .plain := hs
      rfl
    · obtain rfl : place = .mapped fd := hs
      simp [Channel.follow, Place.next, Channel.due, Place.resolves, SysCall.what]
    · obtain rfl : place = .resolved fd := hs
      simp [Channel.follow, Place.next, Channel.due, Place.resolves, SysCall.what]
  exact meets_bind (once_meets fun r => ⟨_, hfollow r, meets_pure (told_report h _ _)⟩)

/-! ## Paths -/

/-- `cwd` and `realpath` from the `open` on. -/
theorem open_getPath_told (h : Told base s diag) (path : String) (flag : OpenFlag) (other : Nat) :
    Follows (openPath diag path flag other >>= fun v =>
      match v with
      | (diag, fd) =>
          match fd with
          | none => pure (diag, output)
          | some fd => getPath diag fd output) s fun s' v => Told base s' v.1 := by
  refine meets_bind ((openPath_told h path flag other).mono ?_)
  intro s' v ht
  obtain ⟨diag', result⟩ := v
  cases result with
  | none => exact meets_pure ht
  | some fd =>
      refine meets_bind ((once_told (by simp) ht).mono ?_)
      intro s' r ht
      refine meets_bind ((close_told (.inl ht.1) ht.2).mono ?_)
      intro s' diag' ht
      exact meets_pure ht

theorem cwd_told (h : Told base s diag) (output : String) :
    Follows (cwd diag output) s fun s' v => Told base s' v.1 :=
  open_getPath_told h "." _ 0

theorem realpath_told (h : Told base s diag) (input output : String) :
    Follows (realpath diag input output) s fun s' v => Told base s' v.1 :=
  open_getPath_told h input .readOnly 0

/-! ## The helpers -/

section

variable {errors : List Message}

/-- The `open` of a resolution. -/
theorem openPath_silent (path : String) (flag : OpenFlag) (other : Nat) :
    Follows (openPath diag path flag other) ⟨.mapped fd, errors⟩ fun s' v =>
      v.2 = none ∧ s' = ⟨.resolved fd, errors⟩
        ∨ ∃ resolving, v.2 = some resolving ∧ s' = ⟨.opened fd resolving, errors⟩ := by
  have hfollow : ∀ r, Channel.follow ⟨.mapped fd, errors⟩ (.open path flag other, r)
      = some ⟨if r.again then .mapped fd
        else if r.failure.isSome then .resolved fd else .opened fd r.descriptor, errors⟩ := by
    intro r
    simp [Channel.follow, Place.next, Channel.due, Place.resolves]
  refine meets_bind (retried_meets (fun r hr => ?_) (fun r hr => ?_))
  · rw [hfollow, if_pos hr]
  · rw [hfollow, hr]
    refine ⟨_, rfl, meets_pure ?_⟩
    dsimp only
    cases r.failure with
    | none => exact .inr ⟨_, rfl, rfl⟩
    | some failure => exact .inl ⟨rfl, rfl⟩

/-- What a resolution does with the descriptor. -/
theorem getPath_silent (resolving : Nat) :
    Follows (getPath diag resolving output) ⟨.opened fd resolving, errors⟩ fun s' _ =>
      s' = ⟨.resolved fd, errors⟩ := by
  refine meets_bind (once_meets fun r => ⟨⟨.asked fd resolving, errors⟩, ?_, ?_⟩)
  · simp [Channel.follow, Place.next, Channel.due, Place.resolves]
  · refine meets_bind (meets_bind (once_meets fun r => ⟨⟨.resolved fd, errors⟩, ?_, ?_⟩))
    · simp [Channel.follow, Place.next, Channel.due, Place.resolves]
    · exact meets_pure (meets_pure rfl)

/-- Whatever comes of the resolution of a path, no error is due for it. -/
theorem resolveRealerPath_silent (path : String) (realerPath : Bool) :
    Follows (resolveRealerPath path realerPath) ⟨.mapped fd, errors⟩ fun s' _ =>
      (s'.place = .mapped fd ∨ s'.place = .resolved fd) ∧ s'.errors = errors := by
  unfold resolveRealerPath
  split
  · refine meets_bind (meets_bind ((openPath_silent path .readOnly 0).mono ?_))
    intro s' v hv
    obtain ⟨diag', result⟩ := v
    rcases hv with ⟨hnone, hs'⟩ | ⟨resolving, hsome, hs'⟩
    · obtain rfl : result = none := hnone
      rw [hs']
      exact meets_pure (meets_pure ⟨.inr rfl, rfl⟩)
    · obtain rfl : result = some resolving := hsome
      rw [hs']
      refine (getPath_silent resolving).mono ?_
      intro s' v hs'
      rw [hs']
      exact meets_pure ⟨.inr rfl, rfl⟩
  · exact meets_pure ⟨.inl rfl, rfl⟩

end

/-- A mapping and what comes after it; without one there is an error, and the descriptor is closed
all the same. -/
theorem mapDescriptor_told (h : Told base s diag) (path : String) (size realerPath : Bool)
    (mappedSize : BitVec 64) (shared : Bool) (fd : Nat) :
    Follows (mapDescriptor diag path size realerPath mappedSize shared fd) s
      fun s' v => Told base s' v.1 := by
  obtain ⟨place, errors⟩ := s
  obtain ⟨hplace, herrors⟩ := h
  obtain rfl : place = .plain := hplace
  have hfollow : ∀ r, Channel.follow ⟨.plain, errors⟩ (.mmap mappedSize shared fd, r)
      = some ⟨if r.failure.isSome then .plain else .mapped fd, errors
        ++ reported ("mmap(size=0x" ++ hex mappedSize ++ ")") r.failure⟩ := by
    intro r
    rfl
  refine meets_bind (once_meets fun r => ⟨_, hfollow r, ?_⟩)
  split
  · have ht := told_report herrors ("mmap(size=0x" ++ hex mappedSize ++ ")") r.failure
    refine meets_bind ((close_told (.inl rfl) ht.2).mono ?_)
    intro s' diag' ht
    exact meets_pure ht
  · rename_i hf
    have hnone : r.failure = none := by simpa using hf
    have hsame : errors ++ reported ("mmap(size=0x" ++ hex mappedSize ++ ")") none = errors :=
      List.append_nil errors
    rw [hnone, hsame]
    refine meets_bind ((resolveRealerPath_silent path realerPath).mono ?_)
    intro s' resolved hs'
    obtain ⟨hplace, hsame⟩ := hs'
    refine meets_bind ((close_told (.inr hplace) (by rw [hsame]; exact herrors)).mono ?_)
    intro s' diag' ht
    exact meets_pure ht

theorem mmapReadOnly_told (h : Told base s diag) (path : String) (size realerPath : Bool) :
    Follows (mmapReadOnly diag path size realerPath) s fun s' v => Told base s' v.1 := by
  refine meets_bind ((stat_told h path).mono ?_)
  intro s' v ht
  dsimp only
  split
  · exact meets_pure ht
  split
  · exact meets_pure ht
  refine meets_bind ((openPath_told ht path _ _).mono ?_)
  intro s' v ht
  obtain ⟨diag', result⟩ := v
  cases result with
  | none => exact meets_pure ht
  | some fd => exact mapDescriptor_told ht path size realerPath _ false fd

theorem mmapReadWrite_told (h : Told base s diag) (path : String) (size realerPath : Bool) :
    Follows (mmapReadWrite diag path size realerPath) s fun s' v => Told base s' v.1 := by
  -- on every early return the descriptor is closed first
  have hclosed : ∀ {s : Channel} {diag : Diagnostics} (fd : Nat), Told base s diag →
      Follows (close diag fd >>= fun diag => pure (diag, Mapped.null)) s
        fun s' v => Told base s' v.1 := by
    intro s diag fd ht
    refine meets_bind ((close_told (.inl ht.1) ht.2).mono ?_)
    intro s' diag' ht
    exact meets_pure ht
  refine meets_bind ((openPath_told h path _ _).mono ?_)
  intro s' v ht
  obtain ⟨diag', result⟩ := v
  cases result with
  | none => exact meets_pure ht
  | some fd =>
      refine meets_bind ((stat_told ht path).mono ?_)
      intro s' v ht
      dsimp only
      split
      · exact hclosed fd ht
      split
      · refine meets_bind ((ftruncate_told ht fd 4096).mono ?_)
        intro s' diag' ht
        split
        · exact hclosed fd ht
        · exact mapDescriptor_told ht path size realerPath 4096 true fd
      · exact mapDescriptor_told ht path size realerPath _ true fd

theorem withMmapReadOnly_told (h : Told base s diag) (path : String) :
    Follows (withMmapReadOnly diag path) s (Told base) := by
  refine meets_bind ((mmapReadOnly_told h path true true).mono ?_)
  intro s' v ht
  obtain ⟨diag', mapped⟩ := v
  dsimp only
  split
  · exact meets_pure ht
  · -- the block is no system call, so nothing is due for it
    refine meets_bind ((once_told (by simp) ht).mono ?_)
    intro s' r ht
    exact munmap_told ht _ _

/-! ## Sequences -/

theorem call_told (h : Told base s diag) (w : Wrapper) : Follows (w.call diag) s (Told base) := by
  have hfirst : ∀ {α : Type} {p : SysProg (Diagnostics × α)},
      Follows p s (fun s' v => Told base s' v.1) →
      Follows (p >>= fun v => pure v.1) s (Told base) := by
    intro α p hp
    exact meets_bind (hp.mono fun _ _ ht => meets_pure ht)
  cases w with
  | «open» path flag other => exact hfirst (openPath_told h path flag other)
  | close fd => exact close_told (.inl h.1) h.2
  | stat path => exact hfirst (stat_told h path)
  | fstatat fd path flag => exact hfirst (fstatat_told h fd path flag)
  | truncate path size => exact truncate_told h path size
  | ftruncate fd size => exact ftruncate_told h fd size
  | cwd output => exact hfirst (cwd_told h output)
  | realpath input output => exact hfirst (realpath_told h input output)
  | mmapReadOnly path size realerPath => exact hfirst (mmapReadOnly_told h path size realerPath)
  | mmapReadWrite path size realerPath => exact hfirst (mmapReadWrite_told h path size realerPath)
  | withMmapReadOnly path => exact withMmapReadOnly_told h path
  | munmap buf size => exact munmap_told h buf size

theorem sequence_told (h : Told base s diag) (ws : List Wrapper) :
    Follows (sequence diag ws) s (Told base) := by
  induction ws generalizing s diag with
  | nil => exact meets_pure h
  | cons w ws ih =>
      refine meets_bind ((call_told h w).mono ?_)
      intro s' diag' ht
      exact ih ht

/-- **The error channel is complete and exact.** On every sequence of calls to `Sys` with one
`Diagnostics`, whatever the system answers: with answers that are final again and again the
sequence comes to its end; and then the errors are those from before, followed by one for each
system call that failed for good, in order. So there is an error in the end exactly when there was
one before or some call failed for good. -/
theorem error_channel_exact (diag : Diagnostics) (ws : List Wrapper) :
    Ensures (sequence diag ws) fun trace diag' =>
      ∃ failed, definitiveFailures trace = some failed ∧ diag'.errors = diag.errors ++ failed
        ∧ (diag'.hasError = true ↔ diag.hasError = true ∨ failed ≠ []) := by
  have hstart : Told diag.errors .start diag := ⟨rfl, (List.append_nil _).symm⟩
  refine ensures_of_meets (sequence_told hstart ws) ?_
  intro trace s diag' hrun ht
  obtain ⟨hplace, herrors⟩ := ht
  refine ⟨s.errors, ?_, herrors, ?_⟩
  · rw [definitiveFailures, hrun, Option.bind_some, if_pos hplace]
  · simp only [Diagnostics.hasError, herrors]
    cases diag.errors <;> cases s.errors <;> simp

end Sys

end NPFoundation
