import OpxCommonUtils.Misc.CString

/-!
# Changing the permissions of a file (`src/std_user_perm.cpp`)

The system answers for a path with its mode or with an `errno`; whether it refuses a change of the
mode is a parameter. A `char *` is what is left of its string.
-/

namespace OpxCommonUtils.User

/-- `mode_t`. -/
abbrev Mode := BitVec 32

/-- `t_std_error`, with the number in its last part. -/
inductive TStdError where
  | ok
  | fail (err : Nat)
  | param (elem : UInt8)
  deriving DecidableEq, Repr

/-- The files of the system: what `stat` answers, and the `errno` of a `chmod` that is refused. -/
structure Files where
  stat : StdString → Except Nat Mode
  refuses : StdString → Mode → Option Nat

/-- The bits of a mode that `chmod` changes. -/
def modeBits : Mode := 0xfff

/-- `chmod` of the system. -/
def Files.chmod (d : Files) (path : StdString) (mod : Mode) : Except Nat Files :=
  match d.stat path with
  | .error err => .error err
  | .ok st =>
    match d.refuses path mod with
    | some err => .error err
    | none =>
      let st := (st &&& ~~~modeBits) ||| (mod &&& modeBits)
      .ok { d with stat := fun other => if other = path then .ok st else d.stat other }

def S_IRUSR : Mode := 0x100
def S_IWUSR : Mode := 0x080
def S_IXUSR : Mode := 0x040
def S_IRGRP : Mode := 0x020
def S_IWGRP : Mode := 0x010
def S_IXGRP : Mode := 0x008
def S_IROTH : Mode := 0x004
def S_IWOTH : Mode := 0x002
def S_IXOTH : Mode := 0x001

/-- `_perm_map` (`std_user_perm.cpp:88-110`). The characters are `a`, `o`, `g` and `u`, and `r`,
`w` and `x`. -/
def permMap : List (UInt8 × List (UInt8 × Mode)) := [
  (97, [(114, S_IRUSR ||| S_IRGRP ||| S_IROTH),
        (119, S_IWUSR ||| S_IWGRP ||| S_IWOTH),
        (120, S_IXUSR ||| S_IXGRP ||| S_IXOTH)]),
  (111, [(114, S_IROTH), (119, S_IWOTH), (120, S_IXOTH)]),
  (103, [(114, S_IRGRP), (119, S_IWGRP), (120, S_IXGRP)]),
  (117, [(114, S_IRUSR), (119, S_IWUSR), (120, S_IXUSR)])]

/-- `_valid_oper`: `=`, `+` or `-` (`std_user_perm.cpp:111-113`). -/
def validOper (elem : UInt8) : Bool := elem = 61 ∨ elem = 43 ∨ elem = 45

/-- `*perm_str`: the NUL stands behind the last character. -/
def elemAt (permStr : StdString) : UInt8 := permStr.headD 0

/-- The loop of `_chomp` (`std_user_perm.cpp:140-145`). -/
def chompPerms (it : List (UInt8 × Mode)) : StdString → Mode → StdString × Mode
  | [], mod => ([], mod)
  | elem :: permStr, mod =>
    match it.lookup elem with
    | none => (elem :: permStr, mod)
    | some bits => chompPerms it permStr (mod ||| bits)

/-- `_chomp` (`std_user_perm.cpp:115-148`): what is left of the string, the operator and the mode,
or where the string is invalid. -/
def chomp (permStr : StdString) (mod : Mode) :
    Exec (Except StdString (StdString × UInt8 × Mode)) :=
  let named := (permMap.lookup (elemAt permStr)).isSome
  let user := if named then elemAt permStr else 117
  let permStr := if named then permStr.tail else permStr
  let signed := validOper (elemAt permStr)
  let op := if signed then elemAt permStr else 43
  let permStr := if signed then permStr.tail else permStr
  match permMap.lookup user with
  | none => .error .assertion
  | some it =>
    match it.lookup (elemAt permStr) with
    | none => .ok (.error permStr)
    | some _ =>
      let (permStr, mod) := chompPerms it permStr mod
      .ok (.ok (permStr, op, mod))

/-- `all_mode_mask` (`std_user_perm.cpp:158-160`). -/
def allModeMask : Mode :=
  S_IWUSR ||| S_IWGRP ||| S_IWOTH ||| (S_IRUSR ||| S_IRGRP ||| S_IROTH) |||
    (S_IXUSR ||| S_IXGRP ||| S_IXOTH)

/-- The loop of `std_user_chmod` (`std_user_perm.cpp:174-192`): the mode, or the character at which
the string is invalid. -/
def chmodLoop (stMode : Mode) : Nat → StdString → Mode → Exec (Except UInt8 Mode)
  | 0, _, _ => .error .diverges
  | fuel + 1, permStr, mod =>
    if elemAt permStr = 0 then .ok (.ok mod)
    else do
      match ← chomp permStr 0 with
      | .error permStr => return .error (elemAt permStr)
      | .ok (permStr, op, chMod) =>
        let mod := if op = 61 then chMod
          else if mod = 0 then stMode &&& allModeMask else mod
        let mod := if op = 43 then mod ||| chMod else mod
        let mod := if op = 45 then mod &&& ~~~chMod else mod
        chmodLoop stMode fuel permStr mod

/-- `std_user_chmod` (`std_user_perm.cpp:153-199`). -/
def stdUserChmod (d : Files) (path permStr : StdString) : Exec (TStdError × Files) :=
  match d.stat path with
  | .error err => .ok (.fail err, d)
  | .ok buf => do
    match ← chmodLoop buf (permStr.length + 1) permStr 0 with
    | .error elem => return (.param elem, d)
    | .ok mod =>
      match d.chmod path mod with
      | .error err => return (.fail err, d)
      | .ok d => return (.ok, d)

/-- The nine permission bits of a path. -/
def Files.permissions (d : Files) (path : StdString) : Mode :=
  match d.stat path with
  | .error _ => 0
  | .ok st => st &&& allModeMask

end OpxCommonUtils.User
