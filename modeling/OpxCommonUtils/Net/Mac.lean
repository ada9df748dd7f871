import OpxCommonUtils.Misc.Numerals

/-!
# MAC addresses (`src/std_mac_utils.c`)

`snprintf` and `sscanf` are modelled for the formats that are used.
-/

namespace OpxCommonUtils.Net

/-- `HAL_MAC_ADDR_LEN`. -/
abbrev HAL_MAC_ADDR_LEN : Nat := 6

/-- `hal_mac_addr_t`. -/
abbrev HalMacAddr := Fin HAL_MAC_ADDR_LEN → UInt8

/-! ## `snprintf` -/

/-- A digit below 16, in lower case. -/
def hexDigit (n : Nat) : UInt8 := if n < 10 then .ofNat (48 + n) else .ofNat (87 + n)

/-- `%02x`. -/
def hex2 (b : UInt8) : StdString := [hexDigit (b.toNat / 16), hexDigit (b.toNat % 16)]

/-- `snprintf(buff, len, ...)` of a string: the buffer it leaves. -/
def snprintf (buff : List UInt8) (len : Nat) (s : StdString) : List UInt8 :=
  if len = 0 then buff
  else
    let out := s.take (len - 1) ++ [0]
    out ++ buff.drop out.length

/-- `std_mac_to_string` (`std_mac_utils.c:26-32`): the buffer it leaves. -/
def stdMacToString (mac : HalMacAddr) (buff : List UInt8) (len : Nat) : List UInt8 :=
  snprintf buff len
    (hex2 (mac 0) ++ 58 :: (hex2 (mac 1) ++ 58 :: (hex2 (mac 2) ++ 58 ::
      (hex2 (mac 3) ++ 58 :: (hex2 (mac 4) ++ 58 :: hex2 (mac 5))))))

/-! ## `sscanf` -/

/-- Where the standard leaves the conversion `%x` open or libraries differ: what is stored for a
number, with a minus sign or without, that an `unsigned int` does not hold, and whether a prefix
`0x` that no digit follows is read as 0 and not as a failure to match. -/
structure Scanf where
  large : Bool → Nat → UInt32
  bare : Bool

/-- What is stored for a number with a minus sign or without. -/
def Scanf.store (F : Scanf) (neg : Bool) (n : Nat) : UInt32 :=
  if n < 2 ^ 32 then if neg then -.ofNat n else .ofNat n else F.large neg n

/-- `isspace`. -/
def isSpace (c : UInt8) : Bool := c = 32 ∨ 9 ≤ c ∧ c ≤ 13

/-- The digits of a number behind its sign and its prefix: what is stored for them, and what follows
them. -/
def scanDigits (F : Scanf) (neg : Bool) (s : StdString) : Option (UInt32 × StdString) :=
  let digits := s.takeWhile (isDigit 16)
  if digits = [] then none
  else some (F.store neg (numeral 16 digits), s.dropWhile (isDigit 16))

/-- A number behind its sign. -/
def scanNumber (F : Scanf) (neg : Bool) (s : StdString) : Option (UInt32 × StdString) :=
  match s with
  | 48 :: x :: t =>
    if x = 120 ∨ x = 88 then
      match scanDigits F neg t with
      | none => if F.bare then some (0, t) else none
      | some r => some r
    else scanDigits F neg s
  | s => scanDigits F neg s

/-- `%x`: the number stored and what follows it. -/
def scanHex (F : Scanf) (s : StdString) : Option (UInt32 × StdString) :=
  match s.dropWhile isSpace with
  | 43 :: t => scanNumber F false t
  | 45 :: t => scanNumber F true t
  | t => scanNumber F false t

/-- `n` conversions `%x` with colons between them: the numbers stored up to the first failure. -/
def scanFields (F : Scanf) : (n : Nat) → StdString → List UInt32
  | 0, _ => []
  | n + 1, s =>
    match scanHex F s with
    | none => []
    | some (v, rest) =>
      match rest with
      | 58 :: rest => v :: scanFields F n rest
      | _ => [v]

/-- `std_string_to_mac` (`std_mac_utils.c:34-46`): what it returns and the address it leaves, all of
which it writes. The array `tmp` is not initialised, and nothing looks at the length. -/
def stdStringToMac (F : Scanf) (tmp : Fin HAL_MAC_ADDR_LEN → UInt32) (buff : StdString) :
    Bool × HalMacAddr :=
  let read := scanFields F HAL_MAC_ADDR_LEN buff
  (true, fun ix => (read[ix.val]?.getD (tmp ix)).toUInt8)

end OpxCommonUtils.Net
