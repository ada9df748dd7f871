import OpxCommonUtils.Misc.Heap

/-!
# Searches in bit arrays

The bit arrays of `std_bit_masks.h` and the two searches of `std_bit_masks.c`. A bit array is the
list of its bytes; a byte outside it, or an index outside one of the lookup tables, is a fault.
-/

namespace OpxCommonUtils.Bits

/-- `STD_BYTES_FOR_BITS` (`std_bit_masks.h:62-63`). -/
def stdBytesForBits (numbits : Nat) : Nat := (if numbits % 8 = 0 then 0 else 1) + numbits / 8

/-- `STD_BIT_ARRAY_TEST` (`std_bit_masks.h:116-117`), for a bit of the array. -/
def stdBitArrayTest (array : List UInt8) (bitoffset : Nat) : Prop :=
  (array.getD (bitoffset / 8) 0).toNat &&& (1 <<< (bitoffset % 8)) ≠ 0

instance (array : List UInt8) (bitoffset : Nat) : Decidable (stdBitArrayTest array bitoffset) :=
  inferInstanceAs (Decidable (_ ≠ _))

/-- `highest_bit`: the number of the highest set bit, counted from 1 (`std_bit_masks.c:63-81`). -/
def highestBit : List Nat := [
  0,1,2,2,3,3,3,3,4,4,4,4,4,4,4,4,
  5,5,5,5,5,5,5,5,5,5,5,5,5,5,5,5,
  6,6,6,6,6,6,6,6,6,6,6,6,6,6,6,6,
  6,6,6,6,6,6,6,6,6,6,6,6,6,6,6,6,
  7,7,7,7,7,7,7,7,7,7,7,7,7,7,7,7,
  7,7,7,7,7,7,7,7,7,7,7,7,7,7,7,7,
  7,7,7,7,7,7,7,7,7,7,7,7,7,7,7,7,
  7,7,7,7,7,7,7,7,7,7,7,7,7,7,7,7,
  8,8,8,8,8,8,8,8,8,8,8,8,8,8,8,8,
  8,8,8,8,8,8,8,8,8,8,8,8,8,8,8,8,
  8,8,8,8,8,8,8,8,8,8,8,8,8,8,8,8,
  8,8,8,8,8,8,8,8,8,8,8,8,8,8,8,8,
  8,8,8,8,8,8,8,8,8,8,8,8,8,8,8,8,
  8,8,8,8,8,8,8,8,8,8,8,8,8,8,8,8,
  8,8,8,8,8,8,8,8,8,8,8,8,8,8,8,8,
  8,8,8,8,8,8,8,8,8,8,8,8,8,8,8,8]

/-- `lowest_bit`: the number of the lowest set bit, counted from 1 (`std_bit_masks.c:83-101`). -/
def lowestBit : List Nat := [
  0,1,2,1,3,1,2,1,4,1,2,1,3,1,2,1,
  5,1,2,1,3,1,2,1,4,1,2,1,3,1,2,1,
  6,1,2,1,3,1,2,1,4,1,2,1,3,1,2,1,
  5,1,2,1,3,1,2,1,4,1,2,1,3,1,2,1,
  7,1,2,1,3,1,2,1,4,1,2,1,3,1,2,1,
  5,1,2,1,3,1,2,1,4,1,2,1,3,1,2,1,
  6,1,2,1,3,1,2,1,4,1,2,1,3,1,2,1,
  5,1,2,1,3,1,2,1,4,1,2,1,3,1,2,1,
  8,1,2,1,3,1,2,1,4,1,2,1,3,1,2,1,
  5,1,2,1,3,1,2,1,4,1,2,1,3,1,2,1,
  6,1,2,1,3,1,2,1,4,1,2,1,3,1,2,1,
  5,1,2,1,3,1,2,1,4,1,2,1,3,1,2,1,
  7,1,2,1,3,1,2,1,4,1,2,1,3,1,2,1,
  5,1,2,1,3,1,2,1,4,1,2,1,3,1,2,1,
  6,1,2,1,3,1,2,1,4,1,2,1,3,1,2,1,
  5,1,2,1,3,1,2,1,4,1,2,1,3,1,2,1]

/-- A read of an element of an array. -/
def readAt {α : Type} (array : List α) (ix : Nat) : Exec α :=
  match array[ix]? with
  | some x => .ok x
  | none => .error (.badPointer ix)

/-- A `size_t` as an `int`. -/
def sizeToInt (n : Nat) : Int := (n : Int).bmod (2 ^ 32)

/-- `std_find_last_bit8` (`std_bit_masks.c:103-106`); the mask is an `unsigned int`. -/
def stdFindLastBit8 (byte fromBit : Nat) : Exec Nat :=
  let mask := (2 ^ 32 - 1) >>> fromBit
  readAt highestBit (byte &&& mask)

/-- `std_find_first_bit8` (`std_bit_masks.c:108-111`). -/
def stdFindFirstBit8 (byte fromBit : Nat) : Exec Nat :=
  let mask := ((2 ^ 32 - 1) <<< fromBit) % 2 ^ 32
  readAt lowestBit (byte &&& mask)

/-- The loop of `std_find_first_bit` over the `count` bytes from `ix` on
(`std_bit_masks.c:127-130`). A byte that is not 0 has a bit, so `pos` is at least 1. -/
def findFirstLoop (array : List UInt8) : (count ix : Nat) → Exec Int
  | 0, _ => pure (-1)
  | count + 1, ix => do
    let byte ← readAt array ix
    if byte = 0 then findFirstLoop array count (ix + 1)
    else do
      let pos ← stdFindFirstBit8 byte.toNat 0
      pure (sizeToInt (pos - 1 + ix * 8))

/-- `std_find_first_bit` (`std_bit_masks.c:113-132`). -/
def stdFindFirstBit (array : List UInt8) (len fromBit : Nat) : Exec Int :=
  if len ≤ fromBit then pure (-1)
  else
    let ix := fromBit / 8
    let mx := len / 8 + if len % 8 ≠ 0 then 1 else 0
    let bit := fromBit % 8
    if bit ≠ 0 then do
      let byte ← readAt array ix
      let pos ← stdFindFirstBit8 byte.toNat bit
      if pos ≠ 0 then pure (sizeToInt (pos - 1 + ix * 8))
      else findFirstLoop array (mx - (ix + 1)) (ix + 1)
    else findFirstLoop array (mx - ix) ix

/-- The loop of `std_find_last_bit`, downwards over the first `count` bytes: `count` is `mx + 1`
(`std_bit_masks.c:152-156`). -/
def findLastLoop (array : List UInt8) : (count : Nat) → Exec Int
  | 0 => pure (-1)
  | mx + 1 => do
    let byte ← readAt array mx
    if byte ≠ 0 then do
      let pos ← stdFindLastBit8 byte.toNat 0
      pure (sizeToInt (pos - 1 + mx * 8))
    else findLastLoop array mx

/-- `std_find_last_bit` (`std_bit_masks.c:134-158`). -/
def stdFindLastBit (array : List UInt8) (len fromBit : Nat) : Exec Int :=
  if len ≤ fromBit then pure (-1)
  else
    let upto := len - fromBit
    let mx := upto / 8 + if upto % 8 ≠ 0 then 1 else 0
    if mx = 0 then pure (-1)
    else
      let mx := mx - 1
      let bit := upto % 8
      if bit ≠ 0 then do
        let byte ← readAt array mx
        let pos ← stdFindLastBit8 byte.toNat bit
        if pos ≠ 0 then pure (sizeToInt (pos - 1 + mx * 8))
        else if mx = 0 then pure (-1)
        else findLastLoop array mx
      else findLastLoop array (mx + 1)

end OpxCommonUtils.Bits
