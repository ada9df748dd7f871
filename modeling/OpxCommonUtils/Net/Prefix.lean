import OpxCommonUtils.Misc.Numerals
import OpxCommonUtils.Text.ConfigFile
import OpxCommonUtils.Text.Split

/-!
# IP prefixes (`src/std_ip_utils.c`)

The functions of the system that read an address are parameters.
-/

namespace OpxCommonUtils.Net

open Text

/-- The address families that `getaddrinfo` has numeric hosts of. -/
inductive Family where
  | inet
  | inet6
  deriving DecidableEq, Repr

/-- The width of an address in bits. -/
def Family.width : Family → Nat
  | .inet => 32
  | .inet6 => 128

/-- What the system makes of strings: `getaddrinfo` with `AI_NUMERICHOST` finds the family of a
numeric address, `inet_pton` its bytes. -/
structure Resolver where
  getaddrinfo : StdString → Option Family
  inetPton : Family → StdString → Option (List UInt8)

/-- `std_ip_addr_t`: the family, if it was set, and the bytes of the union. -/
structure StdIpAddr where
  afIndex : Option Family
  u : List UInt8
  deriving DecidableEq, Repr

/-- `std_get_ip_type` (`std_ip_utils.c:245-277`): the type, or `none` when it returns false. -/
def stdGetIpType (R : Resolver) (ipStr : StdString) : Option Family := R.getaddrinfo ipStr

/-- `std_str_to_ip` (`std_ip_utils.c:279-303`): what it returns and the address it leaves. -/
def stdStrToIp (R : Resolver) (ipStr : StdString) (holder : StdIpAddr) : Bool × StdIpAddr :=
  match stdGetIpType R ipStr with
  | none => (false, holder)
  | some ipType =>
    let holder := { holder with afIndex := some ipType }
    match R.inetPton ipType ipStr with
    | none => (false, holder)
    | some bytes => (true, { holder with u := bytes ++ holder.u.drop bytes.length })

/-- `std_splice_prefix_string` (`std_ip_utils.c:307-337`): the two parts, or `none` when it returns
false. -/
def stdSplicePrefixString (ipPrefixStr : StdString) : Exec (Option (StdString × StdString)) := do
  match ← stdParseString ipPrefixStr [47] with
  | none => return none
  | some handle =>
    if stdParseStringNumTokens handle ≠ 2 then return none
    let (ipPart, index) := stdParseStringNext handle 0
    let (lenPart, _) := stdParseStringNext handle index
    match ipPart, lenPart with
    | some ipPart, some lenPart => return some (ipPart, lenPart)
    | _, _ => return none

/-- The base of a numeral for `strtoul` with the base 0, and the digits. -/
def detectBase (s : StdString) : Nat × StdString :=
  match s with
  | 48 :: x :: d :: rest =>
    if (x = 120 ∨ x = 88) ∧ isDigit 16 d then (16, d :: rest) else (8, s)
  | 48 :: _ => (8, s)
  | _ => (10, s)

/-- The sign of a numeral, whether it is a minus, and what is behind it. -/
def takeSign (s : StdString) : Bool × StdString :=
  match s with
  | 45 :: rest => (true, rest)
  | 43 :: rest => (false, rest)
  | _ => (false, s)

/-- `strtoul` with the base 0: white space, a sign, and the longest numeral. -/
def strtoul (s : StdString) : Nat :=
  let (negative, s) := takeSign (s.dropWhile isspace)
  let (base, s) := detectBase s
  let n := numeral base (s.takeWhile (isDigit base))
  if 2 ^ 64 ≤ n then 2 ^ 64 - 1 else if negative then (2 ^ 64 - n) % 2 ^ 64 else n

/-- `std_str_to_ip_prefix` (`std_ip_utils.c:339-359`): what it returns, the address and the
`mask_len` it leaves. -/
def stdStrToIpPrefix (R : Resolver) (ipPrefixStr : StdString) (holder : StdIpAddr)
    (maskLen : Nat) : Exec (Bool × StdIpAddr × Nat) := do
  match ← stdSplicePrefixString ipPrefixStr with
  | none => return (false, holder, maskLen)
  | some (ipPart, lenPart) =>
    match stdStrToIp R ipPart holder with
    | (false, holder) => return (false, holder, maskLen)
    | (true, holder) => return (true, holder, strtoul lenPart % 2 ^ 8)

end OpxCommonUtils.Net
