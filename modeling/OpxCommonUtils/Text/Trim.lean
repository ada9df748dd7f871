import OpxCommonUtils.Misc.Bytes
import OpxCommonUtils.Text.ConfigFile

/-!
# Trimming a string in place (`src/std_string_utils.cpp`)

The memory begins at the first character of the string.
-/

namespace OpxCommonUtils.Text

/-- `strlen`: a string without NUL is read beyond its memory. -/
def strlen (str : Mem) : Exec Nat :=
  if 0 ∈ str then .ok (StdString.cStr str).length else .error (.badPointer str.length)

/-- `str[ix]`. -/
def charAt (str : Mem) (ix : Nat) : Exec UInt8 := do return (← str.load ix 1).headD 0

/-- `strchr`: the place of the character in the string. -/
def strchr (str : Mem) (c : UInt8) : Exec (Option Nat) := do
  let mx ← strlen str
  return StdString.indexOf [c] (str.take mx)

/-- `check_fun` with its context. -/
abbrev CheckFun := UInt8 → Exec Bool

/-- `is_space_wrapper` (`std_string_utils.cpp:237-239`). -/
def isSpaceWrapper : CheckFun := fun c => .ok (isspace c)

/-- `is_char_match_wrapper` (`std_string_utils.cpp:241-251`). -/
def isCharMatchWrapper (fmt : StdString) : CheckFun := fun c => do
  assertThat (fmt.length != 0)
  return fmt.contains c

/-- The loop of `ltrim` (`std_string_utils.cpp:257-260`) with `n` positions to go. -/
def ltrimLoop (check : CheckFun) (str : Mem) : Nat → Nat → Exec Nat
  | 0, ix => .ok ix
  | n + 1, ix => do
    let c ← charAt str ix
    if ← check c then ltrimLoop check str n (ix + 1) else return ix

/-- `ltrim` (`std_string_utils.cpp:253-264`). -/
def ltrimBuf (check : CheckFun) (str : Mem) : Exec Mem := do
  let mx ← strlen str
  let ix ← ltrimLoop check str mx 0
  if ix ≠ 0 then str.store 0 (← str.load ix (mx - ix + 1)) else return str

/-- The loop of `rtrim` (`std_string_utils.cpp:270-275`): it stops at the first character without
looking at it. -/
def rtrimLoop (check : CheckFun) (str : Mem) : Nat → Exec Mem
  | 0 => .ok str
  | mx + 1 => do
    let c ← charAt str (mx + 1)
    if ← check c then rtrimLoop check str mx else str.store (mx + 2) [0]

/-- `rtrim` (`std_string_utils.cpp:266-277`). -/
def rtrimBuf (check : CheckFun) (str : Mem) : Exec Mem := do
  let mx ← strlen str
  if mx = 0 then return str else rtrimLoop check str (mx - 1)

/-- The check for a set of characters, or for white space. -/
def checkFor : Option StdString → CheckFun
  | none => isSpaceWrapper
  | some fmt => isCharMatchWrapper fmt

/-- `std_remove_trailing_whitespace` (`std_string_utils.cpp:280-283`). -/
def stdRemoveTrailingWhitespace (str : Mem) (wsDelim : Option StdString) : Exec Mem :=
  rtrimBuf (checkFor wsDelim) str

/-- `std_remove_leading_whitespace` (`std_string_utils.cpp:284-287`). -/
def stdRemoveLeadingWhitespace (str : Mem) (wsDelim : Option StdString) : Exec Mem :=
  ltrimBuf (checkFor wsDelim) str

/-- `std_remove_comment_and_trailing_whitespace` (`std_string_utils.cpp:289-294`). -/
def stdRemoveCommentAndTrailingWhitespace (str : Mem) : Exec Mem := do
  let str ← match ← strchr str 35 with
    | none => pure str
    | some ptr => str.store ptr [0]
  stdRemoveTrailingWhitespace str none

end OpxCommonUtils.Text
