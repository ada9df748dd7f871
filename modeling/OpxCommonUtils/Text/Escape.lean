import OpxCommonUtils.Misc.CString

/-!
# Splitting a string at delimiters that may be escaped (`src/std_string_utils.cpp`)

The loops take the number of rounds they may make. A handler of exceptions is the branch that the
exception leads to.
-/

namespace OpxCommonUtils.Text

open StdString

/-- The loop of `std_find_string_with_esc` (`std_string_utils.cpp:139-148`). When `compare`
throws, the handler returns `npos`. -/
def stdFindStringWithEscLoop (str delim esc : StdString) : Nat → Nat → Option Nat →
    Exec (Option Nat)
  | _, _, none => .ok none
  | 0, _, some _ => .error .diverges
  | fuel + 1, ix, some e =>
    if (find str esc ix).isSome then
      match endsAt str esc e with
      | none => .ok none
      | some true => stdFindStringWithEscLoop str delim esc fuel (e + 1) (find str delim (e + 1))
      | some false => .ok (some e)
    else .ok (some e)

/-- `std_find_string_with_esc` (`std_string_utils.cpp:133-153`). -/
def stdFindStringWithEsc (str : StdString) (ix : Nat) (delim esc : StdString) :
    Exec (Option Nat) :=
  if str.length ≤ ix then .ok none
  else stdFindStringWithEscLoop str delim esc (str.length + 1) ix (find str delim ix)

/-- The loop of `std_string_replace_with_esc` (`std_string_utils.cpp:158-169`). -/
def stdStringReplaceWithEscLoop (fromStr toStr delim : StdString) : Nat → StdString → Nat →
    Exec StdString
  | 0, _, _ => .error .diverges
  | fuel + 1, str, startPos =>
    match find str fromStr startPos with
    | none => .ok str
    | some startPos =>
      if find str delim startPos = some (startPos + fromStr.length) then
        stdStringReplaceWithEscLoop fromStr toStr delim fuel
          (str.replace startPos fromStr.length toStr) startPos
      else
        stdStringReplaceWithEscLoop fromStr toStr delim fuel str (startPos + fromStr.length)

/-- `std_string_replace_with_esc` (`std_string_utils.cpp:155-175`): the string it leaves. -/
def stdStringReplaceWithEsc (str fromStr toStr delim : StdString) : Exec StdString :=
  stdStringReplaceWithEscLoop fromStr toStr delim (str.length + 1) str 0

/-- The loop of `std_parse_string_with_esc` (`std_string_utils.cpp:188-199`). -/
def stdParseStringWithEscLoop (data delim esc : StdString) : Nat → Nat → List StdString →
    Exec (Option (List StdString))
  | 0, _, _ => .error .diverges
  | fuel + 1, ix, vect =>
    if ix < data.length then do
      let e := (← stdFindStringWithEsc data ix delim esc).getD data.length
      match data.substr ix (e - ix) with
      | none => return none
      | some found =>
        let found ← stdStringReplaceWithEsc found esc [] delim
        stdParseStringWithEscLoop data delim esc fuel (e + delim.length) (vect ++ [found.cStr])
    else return some vect

/-- `std_parse_string_with_esc` (`std_string_utils.cpp:177-205`): the tokens of the handle, or
`none` when it returns false. -/
def stdParseStringWithEsc (string delim esc : StdString) : Exec (Option (List StdString)) :=
  stdParseStringWithEscLoop string delim esc (string.length + 1) 0 []

end OpxCommonUtils.Text
