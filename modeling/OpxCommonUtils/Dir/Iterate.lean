import OpxCommonUtils.Misc.CString

/-!
# Directories (`src/std_directory_readdir_r.cpp`, `src/std_directory_common.cpp`)

`opendir` is a function of the path that answers with the entries that `readdir_r` will deliver or
with an error number; it and the callback may change a world of their own. The buffer for an entry
can be allocated.
-/

namespace OpxCommonUtils.Dir

/-! ## `dirent.h` -/

def DT_FIFO : Nat := 1
def DT_CHR : Nat := 2
def DT_DIR : Nat := 4
def DT_BLK : Nat := 6
def DT_REG : Nat := 8
def DT_LNK : Nat := 10
def DT_SOCK : Nat := 12

/-- `struct dirent`. -/
structure Dirent where
  dName : StdString
  dType : Nat
  deriving DecidableEq, Repr

/-- `ENOENT`. -/
def ENOENT : Nat := 2

/-! ## `std_directory.h` -/

/-- `std_dir_file_TYPE_t`. -/
inductive FileType where
  | DIR
  | FILE
  | LINK
  | OTHER
  deriving DecidableEq, Repr

/-- What `std_dir_iterate` returns. -/
inductive StdError where
  | ok
  | nexist
  | fail (errno : Nat)
  deriving DecidableEq, Repr

/-- The type that is derived from `d_type` (`std_directory_readdir_r.cpp:69-73`). -/
def fileType (dType : Nat) : FileType :=
  let t := .OTHER
  let t := if dType &&& DT_LNK ≠ 0 then .LINK else t
  let t := if dType &&& DT_REG ≠ 0 then .FILE else t
  if dType &&& DT_DIR ≠ 0 then .DIR else t

variable {σ : Type}

/-- `std_dir_init` (`std_directory_common.cpp:42-50`). -/
def stdDirInit (opendir : StdString → σ → Except Nat (List Dirent) × σ) (entName : StdString)
    (w : σ) : Except StdError (List Dirent) × σ :=
  match opendir entName w with
  | (.error errno, w) => (.error (if errno = ENOENT then .nexist else .fail errno), w)
  | (.ok entries, w) => (.ok entries, w)

/-- The string of an entry: `ent_name`, `/` and `d_name`. -/
def pathname (entName dName : StdString) : StdString := entName ++ 47 :: dName

/-- The loop of `std_dir_iterate` over the entries of `entName`, where `iterate` is the recursive
call. -/
def readLoop (iterate : StdString → σ → Exec (StdError × σ))
    (cb : StdString → FileType → σ → Bool × σ) (recurse : Bool) (entName : StdString) :
    List Dirent → σ → Exec σ
  | [], w => .ok w
  | result :: rest, w =>
    let t := fileType result.dType
    if t = .DIR ∧ result.dName = [46] then readLoop iterate cb recurse entName rest w
    else if t = .DIR ∧ result.dName = [46, 46] then readLoop iterate cb recurse entName rest w
    else do
      let w ←
        if t = .DIR ∧ recurse then do
          let (_, w) ← iterate (pathname entName result.dName) w
          pure w
        else pure w
      let (more, w) := cb (pathname entName result.dName) t w
      if more then readLoop iterate cb recurse entName rest w else .ok w

/-- `std_dir_iterate` (`std_directory_readdir_r.cpp:39-93`). -/
def stdDirIterate (opendir : StdString → σ → Except Nat (List Dirent) × σ)
    (cb : StdString → FileType → σ → Bool × σ) (recurse : Bool) :
    (fuel : Nat) → StdString → σ → Exec (StdError × σ)
  | 0, _, _ => .error .diverges
  | fuel + 1, entName, w =>
    match stdDirInit opendir entName w with
    | (.error rc, w) => .ok (rc, w)
    | (.ok entries, w) => do
      let w ← readLoop (stdDirIterate opendir cb recurse fuel) cb recurse entName entries w
      return (.ok, w)

end OpxCommonUtils.Dir
