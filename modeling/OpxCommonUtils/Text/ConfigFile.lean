import OpxCommonUtils.Misc.CString
import OpxCommonUtils.Misc.StdMap
import Mathlib.Data.List.DropRight

/-!
# Configuration files (`src/std_config_file.cpp`)

A configuration is a map from the names of groups to maps from keys to values. A file is the list
of its characters. The writer takes how much of each `fwrite` reaches the file; the reader takes
the lines that `fgets` cuts from the file. An exception ends the reader with `ENOMEM`.
-/

namespace OpxCommonUtils.Text

open StdString

/-- `t_std_error`, with the number in its last part. -/
inductive TStdError where
  | ok
  | noent
  | nomem
  | errno
  deriving DecidableEq, Repr

/-- `map_of_strings_t`. -/
abbrev MapOfStrings := StdMap StdString StdString

/-- `config_file_t`. -/
abbrev ConfigFile := StdMap StdString MapOfStrings

/-- `isspace` in the C locale. -/
def isspace (c : UInt8) : Bool := c = 32 ∨ 9 ≤ c ∧ c ≤ 13

/-- `ltrim` (`std_config_file.cpp:47-51`). -/
def ltrim (s : StdString) : StdString := s.dropWhile isspace

/-- `rtrim` (`std_config_file.cpp:53-57`). -/
def rtrim (s : StdString) : StdString := s.rdropWhile isspace

/-- `trim` (`std_config_file.cpp:59-61`). -/
def trim (s : StdString) : StdString := ltrim (rtrim s)

/-- The strings of the writer and the characters the reader looks for
(`std_config_file.cpp:204-206`). -/
abbrev openS : StdString := [91]

@[inherit_doc openS] abbrev closeS : StdString := [93]

@[inherit_doc openS] abbrev equals : StdString := [61]

@[inherit_doc openS] abbrev newline : StdString := [10]

/-- `d->map[group][key] = value`. -/
def ConfigFile.assign (d : ConfigFile) (group key value : StdString) : ConfigFile :=
  d.alter group fun m => some ((m.getD ∅).insert key value)

/-- `std_config_file_create` (`std_config_file.cpp:63-71`). -/
def stdConfigFileCreate : ConfigFile := ∅

/-- `std_config_file_set` (`std_config_file.cpp:184-192`). -/
def stdConfigFileSet (d : ConfigFile) (group key str : StdString) : ConfigFile :=
  d.assign group.cStr key.cStr str.cStr

/-- `std_config_file_get` (`std_config_file.cpp:173-182`). -/
def stdConfigFileGet (d : ConfigFile) (group key : StdString) : Option StdString :=
  d[group.cStr]?.bind fun m => m[key.cStr]?.map cStr

/-- `handle_section` (`std_config_file.cpp:73-78`). Its caller has found both brackets. -/
def handleSection (section_ : StdString) : Option StdString := do
  let p ← find section_ openS 0
  let last ← find section_ closeS 0
  section_.substr (p + 1) (last - (p + 1))

/-- `handle_keyfield` (`std_config_file.cpp:80-87`). Its caller has found the `=`. -/
def handleKeyfield (line section_ : StdString) (d : ConfigFile) : Option ConfigFile := do
  let len ← find line equals 0
  let key ← line.substr 0 len
  let value ← line.substr (len + 1) line.length
  return d.assign section_ (trim key) (trim value)

/-- `BUFF_LEN`. -/
def BUFF_LEN : Nat := 1024

/-- What is read of a file up to a newline, `n` characters at most, and what is left of it. -/
def readLine : Nat → StdString → StdString × StdString
  | 0, file => ([], file)
  | _ + 1, [] => ([], [])
  | n + 1, c :: file =>
    if c = 10 then ([c], file) else (c :: (readLine n file).1, (readLine n file).2)

/-- `fgets` with a buffer of `n` characters. -/
def fgets (n : Nat) (file : StdString) : Option (StdString × StdString) :=
  if file = [] then none else some (readLine (n - 1) file)

/-- The loop of `load_file` (`std_config_file.cpp:110-126`). -/
def loadFileLoop : Nat → StdString → ConfigFile → StdString → Exec (TStdError × ConfigFile)
  | 0, _, _, _ => .error .diverges
  | fuel + 1, section_, d, file =>
    match fgets BUFF_LEN file with
    | none => .ok (.ok, d)
    | some (line, file) =>
      let data := line.cStr
      if find data openS 0 = some 0 ∧ find data closeS 0 ≠ none then
        match handleSection data with
        | none => .ok (.nomem, d)
        | some section_ => loadFileLoop fuel section_ d file
      else if find data equals 0 = none then loadFileLoop fuel section_ d file
      else
        match handleKeyfield data section_ d with
        | none => .ok (.nomem, d)
        | some d => loadFileLoop fuel section_ d file

/-- `load_file` (`std_config_file.cpp:91-130`) of a file that exists or not. -/
def loadFile (d : ConfigFile) (file : Option StdString) : Exec (TStdError × ConfigFile) :=
  match file with
  | none => .ok (.noent, d)
  | some file => loadFileLoop (file.length + 1) [] d file

/-- `std_config_file_open` (`std_config_file.cpp:132-146`): the configuration of the handle, which
is closed after an error. -/
def stdConfigFileOpen (file : Option StdString) : Exec (TStdError × Option ConfigFile) := do
  let (rc, d) ← loadFile stdConfigFileCreate file
  return (rc, if rc = .ok then some d else none)

/-- The state of the writer: the return code, the file, and the calls of `fwrite` made. -/
structure Writer where
  rc : TStdError
  file : StdString
  calls : Nat
  deriving DecidableEq

/-- `fwrite` of a whole string, and whether it wrote all of it. A call writes as much as `takes`
says, or everything. -/
def Writer.fwrite (takes : Nat → Option Nat) (w : Writer) (buff : StdString) : Writer × Bool :=
  let n := min ((takes w.calls).getD buff.length) buff.length
  ({ w with file := w.file ++ buff.take n, calls := w.calls + 1 }, n = buff.length)

/-- The line of a key. -/
def keyLine (x : StdString × StdString) : StdString := x.1 ++ equals ++ x.2 ++ newline

/-- The line of a group. -/
def groupLine (group : StdString) : StdString := openS ++ group ++ closeS ++ newline

/-- The loop over the keys of a group (`std_config_file.cpp:221-230`). -/
def writeKeys (takes : Nat → Option Nat) : List (StdString × StdString) → Writer → Writer
  | [], w => w
  | x :: l, w =>
    let (w, all) := w.fwrite takes (keyLine x)
    if all then writeKeys takes l w else { w with rc := .errno }

/-- The loop over the groups (`std_config_file.cpp:210-231`). It goes on to the next group when a
key of this one could not be written. -/
def writeGroups (takes : Nat → Option Nat) : List (StdString × MapOfStrings) → Writer → Writer
  | [], w => w
  | x :: l, w =>
    let (w, all) := w.fwrite takes (groupLine x.1)
    if all then writeGroups takes l (writeKeys takes x.2.toList w) else { w with rc := .errno }

/-- `std_config_file_write` (`std_config_file.cpp:195-238`) of a file that can be opened: the
return code and the file. -/
def stdConfigFileWrite (takes : Nat → Option Nat) (d : ConfigFile) : TStdError × StdString :=
  let w := writeGroups takes d.toList ⟨.ok, [], 0⟩
  (w.rc, w.file)

end OpxCommonUtils.Text
