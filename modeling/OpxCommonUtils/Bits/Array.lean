import OpxCommonUtils.Bits.Search

/-!
# Creating and changing bit arrays

The arrays of `std_bitmap_create_array`, the macros that set and clear one bit, and
`std_complement_bitmaparray`. All of them work on whole bytes.
-/

namespace OpxCommonUtils.Bits

/-- `bittobytelen` (`std_bit_masks.c:31-33`); the length comes as an `unsigned int`. -/
def bittobytelen (len : Nat) : Nat :=
  let len := len % 2 ^ 32
  len / 8 + if len % 8 = 0 then 0 else 1

/-- `std_bitmap_create_array_with_pattern` (`std_bit_masks.c:35-41`); `malloc` may fail. -/
def stdBitmapCreateArrayWithPattern (memory : Bool) (len : Nat) (pattern : UInt8) :
    Option (List UInt8) :=
  if memory then some (List.replicate (bittobytelen len) pattern) else none

/-- `std_bitmap_create_array_clear_bits` (`std_bit_masks.c:43-45`). -/
def stdBitmapCreateArrayClearBits (memory : Bool) (len : Nat) : Option (List UInt8) :=
  stdBitmapCreateArrayWithPattern memory len 0

/-- `std_bitmap_create_array` (`std_bit_masks.c:47-49`). -/
def stdBitmapCreateArray (memory : Bool) (len : Nat) : Option (List UInt8) :=
  stdBitmapCreateArrayWithPattern memory len 0xff

/-- A change of one element of an array. -/
def changeAt {α : Type} (array : List α) (ix : Nat) (change : α → α) : Exec (List α) := do
  let x ← readAt array ix
  pure (array.set ix (change x))

/-- The `uint8_t` with one bit. -/
def bitMask (bitoffset : Nat) : UInt8 := UInt8.ofNat (1 <<< (bitoffset % 8))

/-- `STD_BIT_ARRAY_SET` (`std_bit_masks.h:101-102`). -/
def stdBitArraySet (array : List UInt8) (bitoffset : Nat) : Exec (List UInt8) :=
  changeAt array (bitoffset / 8) (· ||| bitMask bitoffset)

/-- `STD_BIT_ARRAY_CLR` (`std_bit_masks.h:110-111`). -/
def stdBitArrayClr (array : List UInt8) (bitoffset : Nat) : Exec (List UInt8) :=
  changeAt array (bitoffset / 8) (· &&& ~~~bitMask bitoffset)

/-- The loop of `std_complement_bitmaparray` over `count` bytes from `ix` on. -/
def complementLoop : (count ix : Nat) → List UInt8 → Exec (List UInt8)
  | 0, _, array => pure array
  | count + 1, ix, array => do
    let array ← changeAt array ix (~~~ ·)
    complementLoop count (ix + 1) array

/-- `std_complement_bitmaparray` (`std_bit_masks.c:51-57`). -/
def stdComplementBitmaparray (array : List UInt8) (mx : Nat) : Exec (List UInt8) :=
  complementLoop (bittobytelen mx) 0 array

/-- A change of an array. -/
inductive Change where
  | set (bitoffset : Nat)
  | clr (bitoffset : Nat)
  | complement (mx : Nat)
  deriving DecidableEq

/-- The call that makes the change. -/
def Change.call (array : List UInt8) : Change → Exec (List UInt8)
  | set bitoffset => stdBitArraySet array bitoffset
  | clr bitoffset => stdBitArrayClr array bitoffset
  | complement mx => stdComplementBitmaparray array mx

end OpxCommonUtils.Bits
