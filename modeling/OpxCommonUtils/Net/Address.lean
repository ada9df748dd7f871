import OpxCommonUtils.Net.Mask

/-!
# Addresses in order (`src/std_ip_utils.c`)
-/

namespace OpxCommonUtils.Net

/-- `memcmp` of as many bytes as both have: the difference of the first two that differ. -/
def memcmp : List UInt8 → List UInt8 → Int
  | x :: xs, y :: ys => if x = y then memcmp xs ys else (x.toNat : Int) - y.toNat
  | _, _ => 0

/-- `STD_IP_AFINDEX_TO_ADDR_LEN` (`std_ip_utils.h:49-50`). -/
def stdIpAfindexToAddrLen (afIndex : Nat) : Nat :=
  if afIndex = halInet4Family then 4 else halInet6Len

/-- `std_ip_cmp_ip_addr` (`std_ip_utils.c:102-114`). The difference of the families is unsigned and
returned as an `int`. -/
def stdIpCmpIpAddr (a b : HalIpAddr) : Int :=
  if a.afIndex ≠ b.afIndex then ((a.afIndex : Int) - b.afIndex).bmod (2 ^ 32)
  else
    let len := stdIpAfindexToAddrLen a.afIndex
    memcmp (a.u.take len) (b.u.take len)

end OpxCommonUtils.Net
