import OpxCommonUtils.Misc.Heap
import Mathlib.Data.Nat.ModEq

/-!
# Bytes in memory

Numbers of a fixed width as bytes, in the order of the host (`Endian`) and in little endian, and
a flat memory of which every access is checked. `At` says what a memory holds at an offset;
loads deliver it and stores elsewhere keep it.
-/

namespace OpxCommonUtils

/-- The little-endian bytes of a number, `w` of them. -/
def leBytes : Nat → Nat → List UInt8
  | 0, _ => []
  | w + 1, n => UInt8.ofNat n :: leBytes w (n / 256)

/-- The number with the given little-endian bytes. -/
def leNat : List UInt8 → Nat
  | [] => 0
  | b :: bs => b.toNat + 256 * leNat bs

@[simp] theorem length_leBytes (w n : Nat) : (leBytes w n).length = w := by
  induction w generalizing n with
  | zero => rfl
  | succ w ih => simp [leBytes, ih]

theorem leNat_leBytes (w n : Nat) : leNat (leBytes w n) = n % 256 ^ w := by
  induction w generalizing n with
  | zero => simp [leBytes, leNat, Nat.mod_one]
  | succ w ih =>
    rw [leBytes, leNat, ih, UInt8.toNat_ofNat']
    show n % 256 + 256 * (n / 256 % 256 ^ w) = n % 256 ^ (w + 1)
    rw [Nat.pow_succ', Nat.mod_mul]

theorem leNat_leBytes_of_lt {w n : Nat} (h : n < 256 ^ w) : leNat (leBytes w n) = n := by
  rw [leNat_leBytes, Nat.mod_eq_of_lt h]

theorem leNat_lt (bs : List UInt8) : leNat bs < 256 ^ bs.length := by
  induction bs with
  | nil => simp [leNat]
  | cons b bs ih =>
    have hb := b.toNat_lt
    rw [leNat, List.length_cons, Nat.pow_succ]
    omega

theorem leBytes_leNat (bs : List UInt8) : leBytes bs.length (leNat bs) = bs := by
  induction bs with
  | nil => rfl
  | cons b bs ih =>
    have hb := b.toNat_lt
    have hmod : (b.toNat + 256 * leNat bs) % 2 ^ 8 = b.toNat := by omega
    have hdiv : (b.toNat + 256 * leNat bs) / 256 = leNat bs := by omega
    rw [List.length_cons, leBytes, leNat, hdiv, ih, List.cons.injEq]
    refine ⟨?_, rfl⟩
    rw [← UInt8.toNat_inj, UInt8.toNat_ofNat', hmod]

/-- The byte order of a host. -/
inductive Endian where
  | little
  | big
  deriving DecidableEq, Repr

namespace Endian

/-- A number of `w` bytes as the host stores it. -/
def bytes (e : Endian) (w n : Nat) : List UInt8 :=
  match e with
  | .little => leBytes w n
  | .big => (leBytes w n).reverse

/-- The number the host reads from bytes. -/
def nat (e : Endian) (bs : List UInt8) : Nat :=
  match e with
  | .little => leNat bs
  | .big => leNat bs.reverse

/-- `htole16`, `htole32` and `htole64`, and `le16toh`, `le32toh` and `le64toh`: the number whose
representation on the host is the little-endian one of `n`. -/
def htole (e : Endian) (w n : Nat) : Nat :=
  match e with
  | .little => n
  | .big => leNat (leBytes w n).reverse

@[simp] theorem length_bytes (e : Endian) (w n : Nat) : (e.bytes w n).length = w := by
  cases e <;> simp [bytes]

theorem nat_bytes {e : Endian} {w n : Nat} (h : n < 256 ^ w) : e.nat (e.bytes w n) = n := by
  cases e <;> simp [nat, bytes, leNat_leBytes_of_lt h]

theorem nat_lt (e : Endian) (bs : List UInt8) : e.nat bs < 256 ^ bs.length := by
  cases e with
  | little => exact leNat_lt bs
  | big => simpa [nat] using leNat_lt bs.reverse

theorem bytes_nat (e : Endian) (bs : List UInt8) : e.bytes bs.length (e.nat bs) = bs := by
  cases e with
  | little => exact leBytes_leNat bs
  | big =>
    have h := leBytes_leNat bs.reverse
    rw [List.length_reverse] at h
    rw [bytes, nat, h, List.reverse_reverse]

/-- What a host stores after conversion does not depend on the host. -/
theorem bytes_htole (e : Endian) (w n : Nat) : e.bytes w (e.htole w n) = leBytes w n := by
  cases e with
  | little => rfl
  | big =>
    have h := leBytes_leNat (leBytes w n).reverse
    rw [List.length_reverse, length_leBytes] at h
    rw [bytes, htole, h, List.reverse_reverse]

/-- What a host reads and converts does not depend on the host. -/
theorem htole_nat (e : Endian) (bs : List UInt8) : e.htole bs.length (e.nat bs) = leNat bs := by
  cases e with
  | little => rfl
  | big =>
    have h := leBytes_leNat bs.reverse
    rw [List.length_reverse] at h
    rw [htole, nat, h, List.reverse_reverse]

end Endian

/-- The bytes of a memory. -/
abbrev Mem := List UInt8

namespace Mem

/-- Read `n` bytes. -/
def load (mem : Mem) (p n : Nat) : Exec (List UInt8) :=
  if p + n ≤ mem.length then .ok ((mem.drop p).take n) else .error (.badPointer mem.length)

/-- Overwrite the bytes at `p`. -/
def store (mem : Mem) (p : Nat) (bs : List UInt8) : Exec Mem :=
  if p + bs.length ≤ mem.length then .ok (mem.take p ++ bs ++ mem.drop (p + bs.length))
  else .error (.badPointer mem.length)

/-- The memory holds `bs` at `p`. -/
def At (mem : Mem) (p : Nat) (bs : List UInt8) : Prop :=
  ∃ pre post, mem = pre ++ bs ++ post ∧ pre.length = p

variable {mem mem' : Mem} {p q n : Nat} {bs cs : List UInt8}

theorem At.le_length (h : At mem p bs) : p + bs.length ≤ mem.length := by
  obtain ⟨pre, post, rfl, rfl⟩ := h
  simp

theorem At.load (h : At mem p bs) : mem.load p bs.length = .ok bs := by
  have hle := h.le_length
  obtain ⟨pre, post, rfl, rfl⟩ := h
  rw [Mem.load, if_pos hle]
  simp

theorem at_append : At mem p (bs ++ cs) ↔ At mem p bs ∧ At mem (p + bs.length) cs := by
  constructor
  · rintro ⟨pre, post, rfl, rfl⟩
    exact ⟨⟨pre, cs ++ post, by simp, rfl⟩, ⟨pre ++ bs, post, by simp, by simp⟩⟩
  · rintro ⟨⟨pre, post, rfl, rfl⟩, ⟨pre', post', heq, hlen⟩⟩
    have hpre : pre ++ bs = pre' :=
      (List.append_inj (heq.trans (List.append_assoc ..)) (by simp [hlen])).1
    subst hpre
    have hpost := List.append_cancel_left (heq.trans (List.append_assoc ..))
    exact ⟨pre, post', by rw [hpost]; simp, rfl⟩

theorem At.drop (h : At mem p (bs ++ cs)) : At mem (p + bs.length) cs := (at_append.mp h).2

variable (mem) in
theorem load_eq_ok (hle : p + n ≤ mem.length) : mem.load p n = .ok ((mem.drop p).take n) :=
  if_pos hle

theorem load_error (hlt : mem.length < p + n) : mem.load p n = .error (.badPointer mem.length) :=
  if_neg (by omega)

/-- A store over as many bytes. -/
theorem store_append (pre post : Mem) (h : bs.length = cs.length) :
    Mem.store (pre ++ (cs ++ post)) pre.length bs = .ok (pre ++ (bs ++ post)) := by
  have hdrop : (pre ++ (cs ++ post)).drop (pre.length + bs.length) = post := by
    rw [← List.drop_drop, List.drop_left, h, List.drop_left]
  rw [store, if_pos (by simp [h]), List.take_left, hdrop, List.append_assoc]

variable (mem bs) in
/-- A store that fits puts the bytes at their place and keeps all that is elsewhere. -/
theorem store_ok (hle : p + bs.length ≤ mem.length) : ∃ mem', mem.store p bs = .ok mem' ∧
    mem'.length = mem.length ∧ At mem' p bs ∧
    (∀ q cs, q + cs.length ≤ p → At mem q cs → At mem' q cs) ∧
    mem'.drop (p + bs.length) = mem.drop (p + bs.length) := by
  have htake : (mem.take p).length = p := by simp; omega
  refine ⟨mem.take p ++ bs ++ mem.drop (p + bs.length), if_pos hle, ?_, ?_, ?_, ?_⟩
  · simp only [List.length_append, List.length_drop, htake]
    omega
  · exact ⟨_, _, rfl, htake⟩
  · rintro q cs hq ⟨pre, post, rfl, rfl⟩
    refine ⟨pre, (post.take (p - (pre.length + cs.length))) ++ bs ++
      (pre ++ cs ++ post).drop (p + bs.length), ?_, rfl⟩
    have hsplit : (pre ++ cs ++ post).take p =
        pre ++ cs ++ post.take (p - (pre.length + cs.length)) := by
      rw [List.take_append, List.take_of_length_le (by simpa using hq), List.length_append]
    rw [hsplit]
    simp
  · rw [List.drop_append_of_le_length (by simp [htake])]
    simp [htake]

end Mem

end OpxCommonUtils
