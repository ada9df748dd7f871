import OpxCommonUtils.Misc.CString

/-!
# Splitting a string at a delimiter (`src/std_string_utils.cpp`)

A handle is the vector of tokens. The scan takes the number of rounds it may make.
-/

namespace OpxCommonUtils.Text

open StdString

/-- The loop of `std_parse_string` (`std_string_utils.cpp:115-124`). -/
def stdParseStringLoop (data delim : StdString) : Nat → Nat → List StdString →
    Exec (Option (List StdString))
  | 0, _, _ => .error .diverges
  | fuel + 1, ix, vect =>
    if ix < data.length then
      let e := (find data delim ix).getD data.length
      match data.substr ix (e - ix) with
      | none => .ok none
      | some found =>
        stdParseStringLoop data delim fuel (e + delim.length) (vect ++ [found.cStr])
    else .ok (some vect)

/-- `std_parse_string` (`std_string_utils.cpp:106-131`): the handle, or `none` when it returns
false. -/
def stdParseString (string delim : StdString) : Exec (Option (List StdString)) :=
  stdParseStringLoop string delim (string.length + 1) 0 []

/-- `std_parse_string_num_tokens` (`std_string_utils.cpp:212-215`). -/
def stdParseStringNumTokens (parsed : List StdString) : Nat := parsed.length

/-- `std_parse_string_at` (`std_string_utils.cpp:217-223`). -/
def stdParseStringAt (parsed : List StdString) (index : Nat) : Option StdString :=
  if h : index < parsed.length then some (parsed.get ⟨index, h⟩).cStr else none

/-- `std_parse_string_next` (`std_string_utils.cpp:225-229`): the token and the index it leaves. -/
def stdParseStringNext (parsed : List StdString) (index : Nat) : Option StdString × Nat :=
  let p := stdParseStringAt parsed index
  (p, if p.isSome then index + 1 else index)

/-- The tokens that a caller reads from an index on, until `std_parse_string_next` has none
(`unit_test/std_string_utils.c:45-49`). -/
def readTokens (parsed : List StdString) : Nat → Nat → Exec (List StdString)
  | 0, _ => .error .diverges
  | fuel + 1, index =>
    match stdParseStringNext parsed index with
    | (none, _) => .ok []
    | (some ptr, index) => do return ptr :: (← readTokens parsed fuel index)

end OpxCommonUtils.Text
