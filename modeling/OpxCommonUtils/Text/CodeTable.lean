import OpxCommonUtils.Misc.CString

/-!
# Text and code tables (`src/std_string_utils.cpp`)
-/

namespace OpxCommonUtils.Text

/-- `strcmp`: a number of the sign of the comparison. -/
def strcmp : StdString → StdString → Int
  | [], [] => 0
  | [], _ :: _ => -1
  | _ :: _, [] => 1
  | c :: s, d :: t => if c = d then strcmp s t else if c < d then -1 else 1

/-- `strncmp`, which compares `n` characters at most. -/
def strncmp : StdString → StdString → (n : Nat) → Int
  | _, _, 0 => 0
  | [], [], _ + 1 => 0
  | [], _ :: _, _ + 1 => -1
  | _ :: _, [], _ + 1 => 1
  | c :: s, d :: t, n + 1 => if c = d then strncmp s t n else if c < d then -1 else 1

/-- `std_code_text_t`. -/
structure StdCodeText where
  code : UInt32
  text : StdString
  deriving DecidableEq, Repr

/-- `(int)code`. -/
def StdCodeText.intCode (e : StdCodeText) : Int := e.code.toBitVec.toInt

/-- The loop of `std_text_to_code`. -/
def textToCodeLoop (text : StdString) (textSz : UInt32) : List StdCodeText → Int
  | [] => -1
  | e :: table =>
    if textSz ≠ 0 then
      if strncmp e.text text textSz.toNat = 0 then e.intCode else textToCodeLoop text textSz table
    else
      if strcmp e.text text = 0 then e.intCode else textToCodeLoop text textSz table

/-- `std_text_to_code` (`std_string_utils.cpp:66-86`); `none` is a null pointer. -/
def stdTextToCode (text : StdString) (textSz : UInt32) (table : Option (List StdCodeText)) : Int :=
  match table with
  | none => -1
  | some table => textToCodeLoop text textSz table

/-- The loop of `std_code_to_text`. -/
def codeToTextLoop (code : UInt32) : List StdCodeText → Option StdString
  | [] => none
  | e :: table => if e.code = code then some e.text else codeToTextLoop code table

/-- `std_code_to_text` (`std_string_utils.cpp:88-104`). -/
def stdCodeToText (code : UInt32) (table : Option (List StdCodeText)) : Option StdString :=
  match table with
  | none => none
  | some table => codeToTextLoop code table

end OpxCommonUtils.Text
