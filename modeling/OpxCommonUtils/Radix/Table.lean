import OpxCommonUtils.Misc.LinkTree
import OpxCommonUtils.Misc.BitString
import Mathlib.Data.Nat.Bitwise

/-!
# The radix table (`inc/opx/std_radix.h`)

The nodes of a table live in a heap; the heads (`std_rt_head`, with the fields a
`std_radical_head_t` adds) are memory of the user, which the table reaches through `rtnRth` and
`rthAddr`. An address is the byte stream found behind its pointer: reads past the end of a
buffer deliver arbitrary bytes. A routine the user may leave out is `Bool`- or `Option`-valued;
`rmfreed` records the heads handed to `rtt_rmfree`. Counters are naturals: only a decrement can
leave the range of a `u_long` (`ulongPred`).
-/

namespace OpxCommonUtils.Radix

/-- The bytes behind an address pointer. -/
abbrev Addr := Nat → UInt8

/-- `struct _rt_node` (`std_radix.h:68-99`). -/
structure RtNode where
  rtnLeft : Ptr
  rtnRight : Ptr
  rtnParent : Ptr
  rtnBit : Nat
  rtnTbit : UInt8
  rtnFlags : UInt8
  rtnLock : UInt8
  rtnVersion : Nat
  rtnRth : Ptr
  deriving DecidableEq, Repr

/-- `std_rt_head` (`std_radix.h:207-226`) with the flags of `std_radical_head_t`; the links of
the change list are kept in `rttClhead`. -/
structure RtHead where
  rthRtn : Ptr
  rthAddr : Option Addr
  rthVersion : Nat
  rdxRthAddr : Option Addr
  magic : Nat
  rdclFlags : BitVec 32
  deriving Inhabited

/-- `std_rt_table` (`std_radix.h:110-188`) with the memory it refers to. -/
structure RtTable where
  rttRoot : Ptr
  rttInodes : Nat
  rttRoutes : Nat
  rttNinserts : Nat
  rttNremoves : Nat
  rttNmalloc : Nat
  rttNfree : Nat
  rttNusrfrees : Nat
  rttNwraps : Nat
  rttVersion : Nat
  rttMaxaddrlen : Nat
  rttDebug : Bool
  rttRmfree : Bool
  rttConvert : Option (Addr → Nat → Addr)
  rttRadicalused : Bool
  rttCarused : Bool
  rttClhead : List Ptr
  nodes : Heap RtNode
  heads : Ptr → RtHead
  rmfreed : List Ptr

/-- `RT_RTH_ADDR_MAGIC`. -/
def RT_RTH_ADDR_MAGIC : Nat := 0xCAFEBABE

/-- `RDCL_INCL` (`std_radical.h`). -/
def RDCL_INCL : BitVec 32 := 1

/-- `RDX_INITIALVER`. -/
def RDX_INITIALVER : Nat := 0

/-- `RDX_RN_DELE_BIT`. -/
def RDX_RN_DELE_BIT : UInt8 := 1

/-- `RDX_TEST_BIT`. -/
def rdxTestBit (flag bit : UInt8) : Bool := flag &&& (1 <<< bit) != 0

/-- `RDX_SET_BIT`. -/
def rdxSetBit (flag bit : UInt8) : UInt8 := flag ||| (1 <<< bit)

/-- `RDX_CLEAR_BIT`. -/
def rdxClearBit (flag bit : UInt8) : UInt8 := flag &&& ~~~(1 <<< bit)

/-- The node is marked for deletion. -/
def RtNode.marked (n : RtNode) : Bool := rdxTestBit n.rtnFlags RDX_RN_DELE_BIT

/-- `RNBYTE`. -/
def rnbyte (x : Nat) : Nat := x >>> 3

/-- `RNBIT`. -/
def rnbit (x : Nat) : UInt8 := 0x80 >>> UInt8.ofNat (x &&& 7)

/-- `BIT_TEST`. -/
def bitTest (f b : UInt8) : Bool := f &&& b != 0

/-- What a node holds besides its links. -/
structure RtVal where
  bit : Nat
  tbit : UInt8
  flags : UInt8
  lock : UInt8
  version : Nat
  rth : Ptr
  deriving DecidableEq, Repr

instance : NodeLayout RtNode RtVal where
  nul := NULL
  cell l r p v := ⟨l, r, p, v.bit, v.tbit, v.flags, v.lock, v.version, v.rth⟩

@[simp] theorem nul_rtNode : LinkTree.nul RtNode = NULL := rfl

theorem cell_rtNode (l r p : Ptr) (v : RtVal) :
    (NodeLayout.cell l r p v : RtNode) =
      ⟨l, r, p, v.bit, v.tbit, v.flags, v.lock, v.version, v.rth⟩ := rfl

/-- A node that `malloc` and `memset` have just made, after `RN_SETBIT`. -/
def RtNode.new (bitlen : Nat) : RtNode := ⟨NULL, NULL, NULL, bitlen, rnbit bitlen, 0, 0, 0, NULL⟩

namespace RtTable

/-- Overwrite the head at `rth`. -/
def setHead (rtt : RtTable) (rth : Ptr) (hd : RtHead) : RtTable :=
  { rtt with heads := fun q => if q = rth then hd else rtt.heads q }

/-- The address a lookup compares with: `rtt_convert` applied when there is one
(`std_radix.c:235-241`). -/
def queryAddr (rtt : RtTable) (addr : Addr) : Addr :=
  match rtt.rttConvert with
  | some convert => convert addr rtt.rttMaxaddrlen
  | none => addr

/-- The head at `rth`; there is none at `NULL`. -/
def readHead (rtt : RtTable) (rth : Ptr) : Exec RtHead :=
  if rth = NULL then .error (.badPointer NULL) else .ok (rtt.heads rth)

/-- The stored address of a head, read through `rth->rdx_rth_addr`. -/
def rdxAddr (rtt : RtTable) (rth : Ptr) : Exec Addr := do
  let hd ← rtt.readHead rth
  match hd.rdxRthAddr with
  | some a => return a
  | none => Except.error (.badPointer NULL)

/-- `std_radix_create` (`std_radix.c:1588-1638`), once its allocations succeeded; `heads` is the
user's memory at that moment. -/
def stdRadixCreate (maxaddrlen : Nat) (rmfree : Bool) (heads : Ptr → RtHead) : RtTable where
  rttRoot := NULL
  rttInodes := 0
  rttRoutes := 0
  rttNinserts := 0
  rttNremoves := 0
  rttNmalloc := 0
  rttNfree := 0
  rttNusrfrees := 0
  rttNwraps := 0
  rttVersion := RDX_INITIALVER
  rttMaxaddrlen := maxaddrlen
  rttDebug := false
  rttRmfree := rmfree
  rttConvert := none
  rttRadicalused := false
  rttCarused := false
  rttClhead := []
  nodes := Heap.empty
  heads := heads
  rmfreed := []

theorem heads_setHead (rtt : RtTable) (rth q : Ptr) (hd : RtHead) :
    (rtt.setHead rth hd).heads q = if q = rth then hd else rtt.heads q := rfl

theorem setHead_self (rtt : RtTable) (rth : Ptr) : rtt = rtt.setHead rth (rtt.heads rth) := by
  have hheads : rtt.heads = fun q => if q = rth then rtt.heads rth else rtt.heads q := by
    funext q
    split
    · next h => rw [h]
    · rfl
  exact congrArg (fun heads => { rtt with heads := heads }) hheads

@[simp] theorem nodes_setHead (rtt : RtTable) (rth : Ptr) (hd : RtHead) :
    (rtt.setHead rth hd).nodes = rtt.nodes := rfl

@[simp] theorem rttRoot_setHead (rtt : RtTable) (rth : Ptr) (hd : RtHead) :
    (rtt.setHead rth hd).rttRoot = rtt.rttRoot := rfl

end RtTable

/-! ## The deletion mark -/

theorem rdxTestBit_clearBit (f : UInt8) :
    rdxTestBit (rdxClearBit f RDX_RN_DELE_BIT) RDX_RN_DELE_BIT = false := by
  have hall : ∀ i : Fin 256,
      rdxTestBit (rdxClearBit ⟨⟨i⟩⟩ RDX_RN_DELE_BIT) RDX_RN_DELE_BIT = false := by decide +kernel
  exact hall f.toFin

/-! ## Bits of an address -/

theorem rnbyte_eq (x : Nat) : rnbyte x = x / 8 := by
  simp [rnbyte, Nat.shiftRight_eq_div_pow]

theorem and_seven (x : Nat) : x &&& 7 = x % 8 := Nat.and_two_pow_sub_one_eq_mod x 3

theorem bitTest_mask (b : UInt8) (j : Nat) (hj : j < 8) :
    bitTest b (0x80 >>> UInt8.ofNat j) = b.toNat.testBit (7 - j) := by
  have hpow : ∀ j < 8, (0x80 >>> UInt8.ofNat j : UInt8).toNat = 2 ^ (7 - j) := by decide
  have hne : bitTest b (0x80 >>> UInt8.ofNat j) = (b.toNat &&& 2 ^ (7 - j) != 0) := by
    rw [bitTest, ← hpow j hj, ← UInt8.toNat_and, Bool.eq_iff_iff]
    simp [← UInt8.toNat_inj]
  rw [hne, Nat.and_two_pow]
  cases b.toNat.testBit (7 - j) <;> simp

/-- The test bit of a bit number picks that bit of an address. -/
theorem bitTest_rnbit (a : Addr) (i : Nat) : bitTest (a (rnbyte i)) (rnbit i) = bitAt a i := by
  rw [rnbyte_eq, rnbit, and_seven, bitTest_mask _ _ (Nat.mod_lt _ (by decide)), bitAt]

end OpxCommonUtils.Radix
