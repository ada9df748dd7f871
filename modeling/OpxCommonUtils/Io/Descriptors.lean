import Mathlib.Data.List.Basic
import Mathlib.Logic.Function.Basic

/-!
# Descriptors (`src/std_file_utils.c`, `src/std_system.c`, `src/std_socket_tools.cpp`)

The routines that duplicate and redirect descriptors, and those that open a file or a socket in
another network namespace. A `Process` is the table of the descriptors, the namespaces of the thread
and of the leader of its thread group, and a script that says which of the system calls to come
fail; a script that is used up lets all calls succeed that can.
-/

namespace OpxCommonUtils.Io

/-- What a descriptor refers to: a file the process had, a network namespace, or what was opened or
created in the namespace the thread was in. -/
inductive File where
  | given (id : Nat)
  | netns (ns : Nat)
  | opened (name : List UInt8) (ns : Nat)
  | socket (ns : Nat) (bound : Bool)
  deriving DecidableEq

/-- The kernel's view of the thread. `ns` is the namespace the thread is in, `leader` the one of the
leader of its thread group, where that is another thread. `named` are the namespaces below
`/var/run/netns`. -/
structure Process where
  limit : Nat
  files : Nat → Option File
  ns : Nat
  leader : Option Nat
  named : List UInt8 → Option Nat
  failures : List Bool

namespace Process

/-- What a descriptor refers to; a negative number refers to nothing. -/
def file (p : Process) (fd : Int) : Option File := if 0 ≤ fd then p.files fd.toNat else none

/-- A descriptor refers to something else, or to nothing. -/
def setFile (p : Process) (fd : Nat) (f : Option File) : Process :=
  { p with files := Function.update p.files fd f }

/-- The next call is made: whether the kernel lets it succeed. -/
def call (p : Process) : Bool × Process :=
  match p.failures with
  | [] => (true, p)
  | f :: failures => (!f, { p with failures })

/-- The lowest descriptor that is free. -/
def lowest (p : Process) : Option Nat :=
  (List.range p.limit).find? fun fd => (p.files fd).isNone

/-- A call that makes a descriptor for `f`: the descriptor or `-1`. -/
def install (p : Process) (f : Option File) : Int × Process :=
  match p.call, f with
  | (true, p), some f =>
    match p.lowest with
    | some fd => (fd, p.setFile fd (some f))
    | none => (-1, p)
  | (_, p), _ => (-1, p)

/-- `dup`. -/
def dup (p : Process) (fd : Int) : Int × Process := p.install (p.file fd)

/-- `dup2`: whether it succeeds. -/
def dup2 (p : Process) (oldfd : Int) (newfd : Nat) : Bool × Process :=
  match p.call, p.file oldfd with
  | (true, p), some f => if newfd < p.limit then (true, p.setFile newfd (some f)) else (false, p)
  | (_, p), _ => (false, p)

/-- `close`: whether it succeeds. A descriptor is closed also when an error is reported. -/
def close (p : Process) (fd : Int) : Bool × Process :=
  match p.call, p.file fd with
  | (ok, p), some _ => (ok, p.setFile fd.toNat none)
  | (_, p), none => (false, p)

/-- `setns`: whether it succeeds. -/
def setns (p : Process) (fd : Int) : Bool × Process :=
  match p.call, p.file fd with
  | (true, p), some (.netns ns) => (true, { p with ns })
  | (_, p), _ => (false, p)

/-! ## Duplicates -/

/-- `close_fds` (`std_file_utils.c:97-102`). -/
def closeFds (p : Process) : List Int → Process
  | [] => p
  | fd :: fds => closeFds (p.close fd).2 fds

/-- The loop of `std_file_clone_fds`; `fclones` are the duplicates that were made. -/
def cloneLoop (p : Process) (fclones : List Int) : List Int → Option (List Int) × Process
  | [] => (some fclones, p)
  | fd :: fin =>
    match p.dup fd with
    | (clone, p) =>
      if clone = -1 then (none, p.closeFds fclones) else cloneLoop p (fclones ++ [clone]) fin

/-- `std_file_clone_fds` (`std_file_utils.c:104-114`): the duplicates, or `none` on an error. -/
def stdFileCloneFds (p : Process) (fin : List Int) : Option (List Int) × Process :=
  p.cloneLoop [] fin

/-- `std_redir_stdoutin` (`std_file_utils.c:117-140`): whether it answers `STD_ERR_OK`. -/
def stdRedirStdoutin (p : Process) (fd : Int) : Bool × Process :=
  match p.stdFileCloneFds [0, 1] with
  | (some [ofd0, ofd1], p) =>
    let (ok, p) : Bool × Process :=
      match p.dup2 fd 0 with
      | (false, p) => (false, p)
      | (true, p) =>
        match p.dup2 fd 1 with
        | (false, p) => (false, (p.dup2 ofd0 0).2)
        | (true, p) => (true, p)
    (ok, p.closeFds [ofd0, ofd1])
  | (_, p) => (false, p)

/-! ## Network namespaces -/

/-- The part of a name that fits behind `/var/run/netns/` in an array of `NSNET_SZ` characters. -/
def nsnetName (name : List UInt8) : List UInt8 := name.take 112

/-- What `/proc/self/ns/net` stands for: the namespace of the leader of the thread group, which is
not the namespace of another thread that has entered one of its own. -/
def selfNs (p : Process) : Nat := p.leader.getD p.ns

/-- The name of a namespace as `open` finds it. -/
def openNetns (p : Process) (name : List UInt8) : Int × Process :=
  p.install ((p.named (nsnetName name)).map .netns)

/-- `std_sys_set_netns` (`std_system.c:130-184`): whether it answers `STD_ERR_OK`, and
`prev_ns_handle`. -/
def stdSysSetNetns (p : Process) (name : List UInt8) : Bool × Int × Process :=
  match p.install (some (.netns p.selfNs)) with
  | (prev, p) =>
    if prev < 0 then (false, -1, p)
    else
      match p.openNetns name with
      | (sock, p) =>
        if sock < 0 then (false, -1, (p.close prev).2)
        else
          match p.setns sock with
          | (ok, p) =>
            let p := (p.close sock).2
            if ok then (true, prev, p) else (false, -1, (p.close prev).2)

/-- `std_sys_reset_netns` (`std_system.c:186-204`): whether it answers `STD_ERR_OK`. That the
namespace could not be set is no error. -/
def stdSysResetNetns (p : Process) (prev : Int) : Bool × Process :=
  match p.setns prev with
  | (_, p) => p.close prev

/-- `std_netns_fd_open` (`std_file_utils.c:233-258`): whether it answers `STD_ERR_OK`, and `fd`,
which is not changed when the namespace cannot be set. -/
def stdNetnsFdOpen (p : Process) (name filename : List UInt8) (fd : Int) : Bool × Int × Process :=
  match p.stdSysSetNetns name with
  | (false, _, p) => (false, fd, p)
  | (true, prev, p) =>
    match p.install (some (.opened filename p.ns)) with
    | (fd, p) => (decide (0 ≤ fd), fd, (p.stdSysResetNetns prev).2)

end Process

end OpxCommonUtils.Io
