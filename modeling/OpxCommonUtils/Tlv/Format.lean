import OpxCommonUtils.Misc.Bytes

/-!
# Tags, lengths and values (`inc/opx/std_tlv.h`, `std_tlv_internal.h`)

A TLV is a tag and a length of eight little-endian bytes each, then the value. The routines work
on one buffer; a pointer is an offset in it, `none` is `NULL`. Lengths are `size_t` of 64 bits,
so that sums are taken modulo `2 ^ 64`. A loop has as many rounds to go as there are bytes: a
longer one has come to a total length of 0 and stays where it is for ever.
-/

namespace OpxCommonUtils.Tlv

/-- `STD_TLV_HDR_LEN`. -/
def STD_TLV_HDR_LEN : Nat := 16

/-- `STD_TLV_TAG_POS`. -/
def STD_TLV_TAG_POS : Nat := 0

/-- `STD_TLV_LEN_POS`. -/
def STD_TLV_LEN_POS : Nat := 8

/-- `STD_TLV_DATA_POS`. -/
def STD_TLV_DATA_POS : Nat := STD_TLV_HDR_LEN

/-- `std_tlv_offset` (`std_tlv_internal.h:42-44`). -/
def stdTlvOffset (data offset : Nat) : Nat := data + offset

/-- `std_tlv_set_tag` (`std_tlv.h:58-60`). -/
def stdTlvSetTag (e : Endian) (mem : Mem) (data : Nat) (tag : UInt64) : Exec Mem :=
  mem.store (stdTlvOffset data STD_TLV_TAG_POS) (e.bytes 8 (e.htole 8 tag.toNat))

/-- `std_tlv_set_len` (`std_tlv.h:67-69`). -/
def stdTlvSetLen (e : Endian) (mem : Mem) (data len : Nat) : Exec Mem :=
  mem.store (stdTlvOffset data STD_TLV_LEN_POS) (e.bytes 8 (e.htole 8 len))

/-- Read a little-endian number of `w` bytes. -/
def loadLe (e : Endian) (mem : Mem) (p w : Nat) : Exec Nat := do
  let bs ← mem.load p w
  return e.htole w (e.nat bs)

/-- `std_tlv_len` (`std_tlv.h:76-78`). -/
def stdTlvLen (e : Endian) (mem : Mem) (data : Nat) : Exec Nat :=
  loadLe e mem (stdTlvOffset data STD_TLV_LEN_POS) 8

/-- `std_tlv_tag` (`std_tlv.h:85-87`). -/
def stdTlvTag (e : Endian) (mem : Mem) (data : Nat) : Exec UInt64 := do
  let tag ← loadLe e mem (stdTlvOffset data STD_TLV_TAG_POS) 8
  return UInt64.ofNat tag

/-- `std_tlv_total_len` (`std_tlv.h:95-97`). -/
def stdTlvTotalLen (e : Endian) (mem : Mem) (data : Nat) : Exec Nat := do
  let len ← stdTlvLen e mem data
  return (len + STD_TLV_HDR_LEN) % 2 ^ 64

/-- `std_tlv_data` (`std_tlv.h:103-105`). -/
def stdTlvData (data : Nat) : Nat := stdTlvOffset data STD_TLV_DATA_POS

/-- `std_tlv_data_u16` (`std_tlv.h:113-115`). -/
def stdTlvDataU16 (e : Endian) (mem : Mem) (data : Nat) : Exec UInt16 := do
  let x ← loadLe e mem (stdTlvData data) 2
  return UInt16.ofNat x

/-- `std_tlv_data_u32` (`std_tlv.h:123-125`). -/
def stdTlvDataU32 (e : Endian) (mem : Mem) (data : Nat) : Exec UInt32 := do
  let x ← loadLe e mem (stdTlvData data) 4
  return UInt32.ofNat x

/-- `std_tlv_data_u64` (`std_tlv.h:133-135`). -/
def stdTlvDataU64 (e : Endian) (mem : Mem) (data : Nat) : Exec UInt64 := do
  let x ← loadLe e mem (stdTlvData data) 8
  return UInt64.ofNat x

/-- `std_tlv_add` (`std_tlv.h:148-155`): the pointer behind the new TLV or `NULL`, `*data_len` and
the buffer afterwards. `content` is memory of the caller. -/
def stdTlvAdd (e : Endian) (mem : Mem) (data dataLen : Nat) (tag : UInt64) (len : Nat)
    (content : Mem) : Exec (Option Nat × Nat × Mem) := do
  if dataLen < (len + STD_TLV_HDR_LEN) % 2 ^ 64 then return (none, dataLen, mem)
  let mem ← stdTlvSetTag e mem data tag
  let mem ← stdTlvSetLen e mem data len
  let bs ← content.load 0 len
  let mem ← mem.store (data + STD_TLV_HDR_LEN) bs
  return (some (stdTlvOffset data ((len + STD_TLV_HDR_LEN) % 2 ^ 64)),
    dataLen - (len + STD_TLV_HDR_LEN) % 2 ^ 64, mem)

/-- `std_tlv_add_u16` (`std_tlv.h:167-170`). -/
def stdTlvAddU16 (e : Endian) (mem : Mem) (data dataLen : Nat) (tag : UInt64)
    (content : UInt16) : Exec (Option Nat × Nat × Mem) :=
  stdTlvAdd e mem data dataLen tag 2 (e.bytes 2 (e.htole 2 content.toNat))

/-- `std_tlv_add_u32` (`std_tlv.h:182-185`). -/
def stdTlvAddU32 (e : Endian) (mem : Mem) (data dataLen : Nat) (tag : UInt64)
    (content : UInt32) : Exec (Option Nat × Nat × Mem) :=
  stdTlvAdd e mem data dataLen tag 4 (e.bytes 4 (e.htole 4 content.toNat))

/-- `std_tlv_add_u64` (`std_tlv.h:197-200`). -/
def stdTlvAddU64 (e : Endian) (mem : Mem) (data dataLen : Nat) (tag : UInt64)
    (content : UInt64) : Exec (Option Nat × Nat × Mem) :=
  stdTlvAdd e mem data dataLen tag 8 (e.bytes 8 (e.htole 8 content.toNat))

/-- `std_tlv_valid` (`std_tlv.h:209-212`). -/
def stdTlvValid (e : Endian) (mem : Mem) (data : Option Nat) (len : Nat) : Exec Bool :=
  match data with
  | none => return false
  | some data => do
    if len = 0 then return false
    let tlen ← stdTlvTotalLen e mem data
    return decide (tlen ≤ len)

/-- `std_tlv_next` (`std_tlv.h:220-226`): the next pointer and `*len`. -/
def stdTlvNext (e : Endian) (mem : Mem) (data : Option Nat) (len : Nat) :
    Exec (Option Nat × Nat) :=
  match data with
  | none => return (none, len)
  | some data => do
    let tlen ← stdTlvTotalLen e mem data
    if len < tlen then return (none, len)
    return (some (stdTlvOffset data tlen), len - tlen)

/-- The loop of `std_tlv_find_next`. -/
def findNextLoop (e : Endian) (mem : Mem) (tag : UInt64) :
    Nat → Option Nat → Nat → Exec (Option Nat × Nat)
  | 0, _, _ => .error .diverges
  | fuel + 1, data, dlen => do
    let valid ← stdTlvValid e mem data dlen
    match valid, data with
    | true, some p =>
      let t ← stdTlvTag e mem p
      if t = tag then return (some p, dlen)
      let (next, dlen) ← stdTlvNext e mem (some p) dlen
      if next.isNone then return (none, dlen)
      findNextLoop e mem tag fuel next dlen
    | _, _ => return (none, dlen)

/-- `std_tlv_find_next` (`std_tlv.h:235-241`): the TLV found or `NULL`, and `*dlen`. -/
def stdTlvFindNext (e : Endian) (mem : Mem) (data : Option Nat) (dlen : Nat) (tag : UInt64) :
    Exec (Option Nat × Nat) :=
  findNextLoop e mem tag (dlen + 1) data dlen

/-- The loop of `std_tlv_efind` over the tags that are left: `data` and `len` behind it, or `none`
for the return of `NULL` inside. -/
def efindLoop (e : Endian) (mem : Mem) :
    List UInt64 → Option Nat → Nat → Exec (Option (Option Nat × Nat))
  | [], data, len => return some (data, len)
  | tag :: tags, data, len => do
    let (data, len) ← stdTlvFindNext e mem data len tag
    match data with
    | none => return none
    | some data =>
      if tags = [] then return some (some data, len)
      let len ← stdTlvLen e mem data
      efindLoop e mem tags (some (stdTlvData data)) len

/-- `std_tlv_efind` (`std_tlv.h:255-268`): the TLV found or `NULL`, and `*dlen`. -/
def stdTlvEfind (e : Endian) (mem : Mem) (data : Option Nat) (dlen : Nat) (tags : List UInt64) :
    Exec (Option Nat × Nat) := do
  match ← efindLoop e mem tags data dlen with
  | none => return (none, dlen)
  | some (data, len) => return (data, len)

end OpxCommonUtils.Tlv
