import Mathlib

/-!
# Byte strings and fixed-width words

A byte string is a list of bytes, ordered lexicographically. Maps keyed by byte
strings are extensional search trees, so iterating one visits its keys in ascending
byte order. Words are laid out least significant byte first; the big-endian layout
is the reverse.
-/

namespace OctetDB

abbrev Bytes := List UInt8

instance : LawfulBEq Bytes := inferInstance

/-- A finite map from byte strings, listed in ascending key order. -/
abbrev ByteMap (V : Type) := Std.ExtTreeMap Bytes V compare

/-- A finite map from 64-bit identifiers, listed in ascending order. -/
abbrev WordMap (V : Type) := Std.ExtTreeMap UInt64 V compare

def ascii (s : String) : Bytes := s.toList.map fun c => UInt8.ofNat c.toNat

/-! ## Little-endian words -/

/-- The `width` low bytes of `n`, least significant first. -/
def leBytes : Nat → Nat → Bytes
  | 0, _ => []
  | width + 1, n => UInt8.ofNat n :: leBytes width (n / 256)

/-- The number whose bytes are given, least significant first. -/
def leNat : Bytes → Nat
  | [] => 0
  | b :: bs => b.toNat + 256 * leNat bs

@[simp] theorem length_leBytes (width n : Nat) : (leBytes width n).length = width := by
  induction width generalizing n with
  | zero => rfl
  | succ width ih => simp [leBytes, ih]

@[simp] theorem leNat_leBytes (width n : Nat) : leNat (leBytes width n) = n % 256 ^ width := by
  induction width generalizing n with
  | zero => simp [leBytes, leNat, Nat.mod_one]
  | succ width ih =>
    have split : n % (256 * 256 ^ width) = n % 256 + 256 * (n / 256 % 256 ^ width) :=
      Nat.mod_mul
    rw [pow_succ, Nat.mul_comm, split]
    simp [leBytes, leNat, ih]

theorem leNat_lt (bs : Bytes) : leNat bs < 256 ^ bs.length := by
  induction bs with
  | nil => simp [leNat]
  | cons b bs ih =>
    have hb := b.toNat_lt
    simp only [leNat, List.length_cons, pow_succ]
    omega

theorem leBytes_leNat (bs : Bytes) : leBytes bs.length (leNat bs) = bs := by
  induction bs with
  | nil => rfl
  | cons b bs ih =>
    have hb := b.toNat_lt
    have low : UInt8.ofNat (b.toNat + 256 * leNat bs) = b := by
      apply UInt8.toNat_inj.mp
      rw [UInt8.toNat_ofNat']
      omega
    have high : (b.toNat + 256 * leNat bs) / 256 = leNat bs := by omega
    simp only [List.length_cons, leBytes, leNat, low, high, ih]

/-- A 32-bit word, least significant byte first. -/
def putUint32 (v : UInt32) : Bytes := leBytes 4 v.toNat

def uint32 (bs : Bytes) : UInt32 := UInt32.ofNat (leNat (bs.take 4))

/-- A 64-bit word, least significant byte first. -/
def putUint64 (v : UInt64) : Bytes := leBytes 8 v.toNat

def uint64 (bs : Bytes) : UInt64 := UInt64.ofNat (leNat (bs.take 8))

/-- A 32-bit word, most significant byte first. -/
def putUint32BE (v : UInt32) : Bytes := (leBytes 4 v.toNat).reverse

/-- The 32-bit word at the front of a byte string, most significant byte first. -/
def uint32BE (bs : Bytes) : UInt32 := UInt32.ofNat (leNat (bs.take 4).reverse)

/-- A 64-bit word, most significant byte first. -/
def putUint64BE (v : UInt64) : Bytes := (leBytes 8 v.toNat).reverse

/-- The 64-bit word at the front of a byte string, most significant byte first. -/
def uint64BE (bs : Bytes) : UInt64 := UInt64.ofNat (leNat (bs.take 8).reverse)

@[simp] theorem length_putUint32 (v : UInt32) : (putUint32 v).length = 4 := length_leBytes _ _
@[simp] theorem length_putUint64 (v : UInt64) : (putUint64 v).length = 8 := length_leBytes _ _
@[simp] theorem length_putUint32BE (v : UInt32) : (putUint32BE v).length = 4 := by
  simp [putUint32BE]
@[simp] theorem length_putUint64BE (v : UInt64) : (putUint64BE v).length = 8 := by
  simp [putUint64BE]

@[simp] theorem uint32_putUint32 (v : UInt32) (rest : Bytes) :
    uint32 (putUint32 v ++ rest) = v := by
  have front : (putUint32 v ++ rest).take 4 = putUint32 v := by
    rw [List.take_append_of_le_length (by simp), List.take_of_length_le (by simp)]
  have hv := v.toNat_lt
  rw [uint32, front, putUint32, leNat_leBytes, Nat.mod_eq_of_lt (by omega)]
  exact UInt32.ofNat_toNat

@[simp] theorem uint64_putUint64 (v : UInt64) (rest : Bytes) :
    uint64 (putUint64 v ++ rest) = v := by
  have front : (putUint64 v ++ rest).take 8 = putUint64 v := by
    rw [List.take_append_of_le_length (by simp), List.take_of_length_le (by simp)]
  have hv := v.toNat_lt
  rw [uint64, front, putUint64, leNat_leBytes, Nat.mod_eq_of_lt (by omega)]
  exact UInt64.ofNat_toNat

@[simp] theorem uint32BE_putUint32BE (v : UInt32) (rest : Bytes) :
    uint32BE (putUint32BE v ++ rest) = v := by
  have front : (putUint32BE v ++ rest).take 4 = putUint32BE v := by
    rw [List.take_append_of_le_length (by simp), List.take_of_length_le (by simp)]
  have hv := v.toNat_lt
  rw [uint32BE, front, putUint32BE, List.reverse_reverse, leNat_leBytes,
    Nat.mod_eq_of_lt (by omega)]
  exact UInt32.ofNat_toNat

@[simp] theorem uint64BE_putUint64BE (v : UInt64) (rest : Bytes) :
    uint64BE (putUint64BE v ++ rest) = v := by
  have front : (putUint64BE v ++ rest).take 8 = putUint64BE v := by
    rw [List.take_append_of_le_length (by simp), List.take_of_length_le (by simp)]
  have hv := v.toNat_lt
  rw [uint64BE, front, putUint64BE, List.reverse_reverse, leNat_leBytes,
    Nat.mod_eq_of_lt (by omega)]
  exact UInt64.ofNat_toNat

theorem putUint64BE_uint64BE {bs : Bytes} (length : bs.length = 8) :
    putUint64BE (uint64BE bs) = bs := by
  have bound := leNat_lt bs.reverse
  rw [List.length_reverse, length] at bound
  have read := leBytes_leNat bs.reverse
  rw [List.length_reverse, length] at read
  rw [putUint64BE, uint64BE, List.take_of_length_le (by omega),
    UInt64.toNat_ofNat_of_lt' (by simpa using bound), read, List.reverse_reverse]

end OctetDB
