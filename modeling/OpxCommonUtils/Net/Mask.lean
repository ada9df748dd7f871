import OpxCommonUtils.Misc.Bytes

/-!
# Masks of IP addresses (`src/std_ip_utils.c`)
-/

namespace OpxCommonUtils.Net

/-- `NBBY`. -/
def NBBY : Nat := 8

/-- `std_ip_v4_prefix_len_to_mask` (`std_ip_utils.c:44-55`): the mask as a number of the host. -/
def stdIpV4PrefixLenToMask (prefixLen : Nat) : BitVec 32 :=
  if NBBY * 4 < prefixLen then 0
  else
    -- for the length 1 the difference wraps
    let maskVal : BitVec 32 :=
      if prefixLen ≠ 0 then (1#32 <<< (NBBY * 4 - prefixLen)) - 1 else 0xffffffff
    ~~~maskVal

/-- `mask_val` (`std_ip_utils.c:60`). -/
def maskVal : List UInt8 := [0x00, 0x80, 0xc0, 0xe0, 0xf0, 0xf8, 0xfc, 0xfe]

/-- `std_ip_v6_prefix_len_to_mask` (`std_ip_utils.c:57-78`): the memory it leaves. -/
def stdIpV6PrefixLenToMask (mem : Mem) (maskPtr : Option Nat) (maskLen prefixLen : Nat) :
    Exec Mem :=
  match maskPtr with
  | none => .ok mem
  | some maskPtr =>
    if prefixLen = 0 then .ok mem
    else do
      let nbytes := prefixLen / NBBY
      let mem ← mem.store maskPtr (List.replicate nbytes 0xff)
      let maskPtr := maskPtr + nbytes
      let maskLen := (maskLen + 2 ^ 64 - nbytes) % 2 ^ 64
      if maskLen = 0 then return mem
      let mem ← mem.store maskPtr [maskVal.getD (prefixLen % NBBY) 0]
      mem.store (maskPtr + 1) (List.replicate (maskLen - 1) 0)

/-- `bit_pos` (`std_ip_utils.c:157-174`), which is 0 at all other places. -/
def bitPos (b : UInt8) : Int :=
  match b with
  | 0x80 => 1
  | 0xc0 => 2
  | 0xe0 => 3
  | 0xf0 => 4
  | 0xf8 => 5
  | 0xfc => 6
  | 0xfe => 7
  | 0xff => 8
  | _ => 0

/-- The sum of two `int`s, which wraps. -/
def intAdd (a b : Int) : Int := (a + b).bmod (2 ^ 32)

/-- The loop of `std_ip_v6_mask_to_prefix_len` (`std_ip_utils.c:182-184`) with `n` bytes to go. -/
def maskToPrefixLenLoop (mem : Mem) (maskPtr : Nat) : Nat → Nat → Int → Exec Int
  | 0, _, prefixLen => .ok prefixLen
  | n + 1, ix, prefixLen => do
    let bytes ← mem.load (maskPtr + ix) 1
    maskToPrefixLenLoop mem maskPtr n (ix + 1) (intAdd prefixLen (bitPos (bytes.headD 0)))

/-- `std_ip_v6_mask_to_prefix_len` (`std_ip_utils.c:154-187`). -/
def stdIpV6MaskToPrefixLen (mem : Mem) (maskPtr : Option Nat) (addrLen : Nat) : Exec Int :=
  match maskPtr with
  | none => .ok 0
  | some maskPtr => maskToPrefixLenLoop mem maskPtr addrLen 0 0

/-- `std_ip_v4_mask_to_prefix_len` (`std_ip_utils.c:116-152`), with the loop and the table of the
function for IPv6 over the bytes of `htonl(in_mask)`. -/
def stdIpV4MaskToPrefixLen (inMask : BitVec 32) : Exec Int :=
  if inMask = 0 then .ok 0
  else maskToPrefixLenLoop (leBytes 4 inMask.toNat).reverse 0 4 0 0

/-! ## Both families -/

/-- `HAL_INET4_FAMILY`, which is `AF_INET`. -/
def halInet4Family : Nat := 2

/-- `HAL_INET6_LEN`, the size of the union of the addresses. -/
def halInet6Len : Nat := 16

/-- `hal_ip_addr_t`: the family and the bytes of the union. -/
structure HalIpAddr where
  afIndex : Nat
  u : Mem
  deriving DecidableEq, Repr

/-- `u.v4_addr`, as the host reads it. -/
def HalIpAddr.v4Addr (a : HalIpAddr) (e : Endian) : BitVec 32 := BitVec.ofNat 32 (e.nat (a.u.take 4))

/-- `std_ip_get_mask_from_prefix_len` (`std_ip_utils.c:80-100`): the mask it leaves. -/
def stdIpGetMaskFromPrefixLen (e : Endian) (afIndex prefixLen : Nat) : Exec HalIpAddr := do
  let u : Mem := List.replicate halInet6Len 0
  if afIndex = halInet4Family then
    let u ← u.store 0 (e.bytes 4 (stdIpV4PrefixLenToMask prefixLen).toNat)
    return { afIndex, u }
  else
    let u ← stdIpV6PrefixLenToMask u (some 0) halInet6Len prefixLen
    return { afIndex, u }

end OpxCommonUtils.Net
