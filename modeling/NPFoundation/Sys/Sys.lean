import NPFoundation.Lib.Effects
import NPFoundation.Sys.Diagnostics
import Mathlib.Data.BitVec

/-!
# `Sys`: wrappers around system calls

Every function is a program over system calls. It takes the caller's `Diagnostics` and
gives it back; what the C++ functions write through pointers is part of what they return.
A null pointer argument is `false`, and nothing is written for it.

A reply has all that any of the calls could fill in, so that every reply is one to every
call. On success of `mmap` the address is not null: without `MAP_FIXED` it never is.
-/

namespace NPFoundation

open Effects

/-- A failed call: `errno`, and what `strerror` says about it. -/
structure Failure where
  errno : Nat
  text : String
  deriving DecidableEq, Repr

def EINTR : Nat := 4

def EAGAIN : Nat := 35

inductive FileKind where
  | regular
  | directory
  | other
  deriving DecidableEq, Repr

/-- The fields of a `struct stat` that are looked at. -/
structure Stat where
  /-- An `off_t`. -/
  st_size : BitVec 64
  st_mode : FileKind
  deriving DecidableEq, Repr

/-- What the system answers to a call. -/
structure Reply where
  failure : Option Failure
  /-- The descriptor of a successful `open`. -/
  descriptor : Nat
  /-- What is in the buffer after `stat` or `fstatat`. -/
  stat : Stat
  /-- What a successful `fcntl(F_GETPATH)` writes. -/
  path : String
  /-- Where a successful `mmap` put the mapping. -/
  address : Nat
  deriving DecidableEq, Repr

/-- The flags of an `open`. -/
structure OpenFlag where
  readWrite : Bool
  create : Bool
  directory : Bool
  deriving DecidableEq, Repr

/-- `O_RDONLY`. -/
def OpenFlag.readOnly : OpenFlag := ⟨false, false, false⟩

inductive SysCall where
  | open (path : String) (flag : OpenFlag) (other : Nat)
  | close (fd : Nat)
  | stat (path : String)
  | fstatat (fd : Nat) (path : String) (flag : Nat)
  | truncate (path : String) (size : BitVec 64)
  | ftruncate (fd : Nat) (size : BitVec 64)
  /-- `fcntl(fd, F_GETPATH, ...)`. -/
  | fcntlGetPath (fd : Nat)
  /-- `PROT_READ` alone and `MAP_PRIVATE`, or with `PROT_WRITE` and `MAP_SHARED`. -/
  | mmap (size : BitVec 64) (shared : Bool) (fd : Nat)
  | munmap (buf : Nat) (size : BitVec 64)
  /-- No system call: the block that `withMmapReadOnly` was given. -/
  | handler (mapping : Nat) (size : BitVec 64) (realerPath : String)
  deriving DecidableEq, Repr

abbrev SysProg (α : Type) := Prog SysCall Reply α

/-- The reply is a failure with `EAGAIN` or `EINTR`. -/
def Reply.again (r : Reply) : Bool :=
  match r.failure with
  | none => false
  | some failure => failure.errno == EAGAIN || failure.errno == EINTR

/-- A call in a `do ... while` that retries it. -/
def retried (c : SysCall) : SysProg Reply := .call c true .ret

/-- A call that is made once. -/
def once (c : SysCall) : SysProg Reply := .call c false .ret

/-- `"... failed with errno=%d, %s"`. -/
def Failure.message (failure : Failure) (what : String) : String :=
  what ++ " failed with errno=" ++ toString failure.errno ++ ", " ++ failure.text

/-- Report a failure, if it is one. -/
def Diagnostics.report (diag : Diagnostics) (what : String) (failure : Option Failure) :
    Diagnostics :=
  match failure with
  | none => diag
  | some failure => diag.error (failure.message what)

namespace Sys

/-- `open`; the descriptor is `none` where it would be negative. -/
def openPath (diag : Diagnostics) (path : String) (flag : OpenFlag) (other : Nat) :
    SysProg (Diagnostics × Option Nat) := do
  let r ← retried (.open path flag other)
  return (diag.report "open()" r.failure,
    if r.failure.isSome then none else some r.descriptor)

/-- `close`. It is not retried, and `EINTR` is no error. -/
def close (diag : Diagnostics) (fd : Nat) : SysProg Diagnostics := do
  let r ← once (.close fd)
  return diag.report "close()" (r.failure.filter fun failure => failure.errno != EINTR)

/-- `stat`; the buffer afterwards. -/
def stat (diag : Diagnostics) (path : String) : SysProg (Diagnostics × Stat) := do
  let r ← retried (.stat path)
  return (diag.report "stat()" r.failure, r.stat)

def fstatat (diag : Diagnostics) (fd : Nat) (path : String) (flag : Nat) :
    SysProg (Diagnostics × Stat) := do
  let r ← retried (.fstatat fd path flag)
  return (diag.report "fstatat()" r.failure, r.stat)

def truncate (diag : Diagnostics) (path : String) (size : BitVec 64) : SysProg Diagnostics := do
  let r ← retried (.truncate path size)
  return diag.report "truncate()" r.failure

def ftruncate (diag : Diagnostics) (fd : Nat) (size : BitVec 64) : SysProg Diagnostics := do
  let r ← retried (.ftruncate fd size)
  return diag.report "ftruncate()" r.failure

/-- What `cwd` and `realpath` do with the descriptor; the output buffer afterwards. -/
def getPath (diag : Diagnostics) (fd : Nat) (output : String) :
    SysProg (Diagnostics × String) := do
  let r ← once (.fcntlGetPath fd)
  let diag ← close (diag.report "fcntl(F_GETPATH)" r.failure) fd
  return (diag, if r.failure.isSome then output else r.path)

/-- `cwd`. -/
def cwd (diag : Diagnostics) (output : String) : SysProg (Diagnostics × String) := do
  let (diag, fd) ← openPath diag "." { OpenFlag.readOnly with directory := true } 0
  match fd with
  | none => return (diag, output)
  | some fd => getPath diag fd output

/-- `realpath`. -/
def realpath (diag : Diagnostics) (input output : String) : SysProg (Diagnostics × String) := do
  let (diag, fd) ← openPath diag input .readOnly 0
  match fd with
  | none => return (diag, output)
  | some fd => getPath diag fd output

/-- `dirExists`. -/
def dirExists (path : String) : SysProg Bool := do
  let (diag, statbuf) ← stat .quiet path
  return !diag.hasError && statbuf.st_mode == .directory

/-- `fileExists`. -/
def fileExists (path : String) : SysProg Bool := do
  let (diag, statbuf) ← stat .quiet path
  return !diag.hasError && statbuf.st_mode == .regular

/-- `resolveRealerPath`: the buffer afterwards, unless it is null. -/
def resolveRealerPath (path : String) (realerPath : Bool) : SysProg (Option String) := do
  if realerPath then
    let resolved ← realpath .quiet path ""
    return some resolved.2
  else return none

/-- What the two `mmap` helpers return, and what they wrote through their pointers: `none` where
nothing was written. -/
structure Mapped where
  mapping : Option Nat
  size : Option (BitVec 64)
  realerPath : Option String
  deriving DecidableEq, Repr

def Mapped.null : Mapped := ⟨none, none, none⟩

/-- `%0lX`. -/
def hex (n : BitVec 64) : String := String.ofList ((Nat.toDigits 16 n.toNat).map Char.toUpper)

/-- The end of both helpers: map, report the size, resolve the path, close. -/
def mapDescriptor (diag : Diagnostics) (path : String) (size realerPath : Bool)
    (mappedSize : BitVec 64) (shared : Bool) (fd : Nat) : SysProg (Diagnostics × Mapped) := do
  let r ← once (.mmap mappedSize shared fd)
  if r.failure.isSome then
    let diag ← close (diag.report ("mmap(size=0x" ++ hex mappedSize ++ ")") r.failure) fd
    return (diag, .null)
  else
    let resolved ← resolveRealerPath path realerPath
    let diag ← close diag fd
    return (diag, ⟨some r.address, if size then some mappedSize else none, resolved⟩)

/-- `mmapReadOnly`. -/
def mmapReadOnly (diag : Diagnostics) (path : String) (size realerPath : Bool) :
    SysProg (Diagnostics × Mapped) := do
  let (diag, statbuf) ← stat diag path
  if diag.hasError then return (diag, .null)
  else if statbuf.st_size.toInt ≤ 0 then
    return (diag, { Mapped.null with size := if size then some 0 else none })
  else
    let (diag, fd) ← openPath diag path .readOnly 0
    match fd with
    | none => return (diag, .null)
    | some fd => mapDescriptor diag path size realerPath statbuf.st_size false fd

/-- `munmap`. -/
def munmap (diag : Diagnostics) (buf : Nat) (size : BitVec 64) : SysProg Diagnostics := do
  let r ← once (.munmap buf size)
  return diag.report "munmap()" r.failure

/-- `withMmapReadOnly`. -/
def withMmapReadOnly (diag : Diagnostics) (path : String) : SysProg Diagnostics := do
  let (diag, mapped) ← mmapReadOnly diag path true true
  match mapped.mapping with
  | none => return diag
  | some mapping =>
      let _ ← once (.handler mapping (mapped.size.getD 0) (mapped.realerPath.getD ""))
      munmap diag mapping (mapped.size.getD 0)

/-- `mmapReadWrite`. -/
def mmapReadWrite (diag : Diagnostics) (path : String) (size realerPath : Bool) :
    SysProg (Diagnostics × Mapped) := do
  let (diag, fd) ← openPath diag path ⟨true, true, false⟩ 0o666
  match fd with
  | none => return (diag, .null)
  | some fd =>
      let (diag, statbuf) ← stat diag path
      if diag.hasError then
        let diag ← close diag fd
        return (diag, .null)
      else if statbuf.st_size.toInt ≤ 0 then
        let diag ← ftruncate diag fd 4096
        if diag.hasError then
          let diag ← close diag fd
          return (diag, .null)
        else mapDescriptor diag path size realerPath 4096 true fd
      else mapDescriptor diag path size realerPath statbuf.st_size true fd

end Sys

end NPFoundation
