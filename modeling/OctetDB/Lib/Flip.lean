import OctetDB.Lib.Checksum

/-!
# One flipped bit

What a flipped bit does to a number and to a checksum. A number in little-endian bytes grows or
shrinks by a power of two. CRC-32 is linear in exclusive or, and every step of its register is a
bijection, so a change of a single byte always changes the checksum; and a text followed by the
first bytes of its own checksum never has the checksum that the next bytes spell.
-/

namespace OctetDB

/-- The bytes with bit `n` flipped, counted from the least significant bit of the first byte. -/
def flipBit (bs : Bytes) (n : Nat) : Bytes :=
  bs.modify (n / 8) (· ^^^ UInt8.ofNat (2 ^ (n % 8)))

@[simp] theorem length_flipBit (bs : Bytes) (n : Nat) : (flipBit bs n).length = bs.length := by
  simp [flipBit]

theorem flipBit_cons_add (c : UInt8) (bs : Bytes) (n : Nat) :
    flipBit (c :: bs) (8 + n) = c :: flipBit bs n := by
  have byte : (8 + n) / 8 = n / 8 + 1 := by omega
  have bit : (8 + n) % 8 = n % 8 := by omega
  rw [flipBit, flipBit, byte, bit, List.modify_succ_cons]

theorem flipBit_append_right (a b : Bytes) (n : Nat) :
    flipBit (a ++ b) (8 * a.length + n) = a ++ flipBit b n := by
  induction a with
  | nil => simp
  | cons c a ih =>
    rw [List.cons_append, List.length_cons,
      show 8 * (a.length + 1) + n = 8 + (8 * a.length + n) by ring,
      flipBit_cons_add, ih, List.cons_append]

variable {n k : Nat}

theorem flipBit_append_left {a : Bytes} (inside : n < 8 * a.length) (b : Bytes) :
    flipBit (a ++ b) n = flipBit a n ++ b := by
  induction a generalizing n with
  | nil => simp at inside
  | cons c a ih =>
    by_cases first : n < 8
    · simp [flipBit, Nat.div_eq_of_lt first]
    · obtain ⟨m, rfl⟩ := Nat.exists_eq_add_of_le (Nat.not_lt.mp first)
      rw [List.cons_append, flipBit_cons_add, flipBit_cons_add,
        ih (by simp at inside; omega), List.cons_append]

theorem flip_ne (b : UInt8) (small : n < 8) : b ^^^ UInt8.ofNat (2 ^ n) ≠ b := by
  have all : ∀ b : UInt8, ∀ n : Fin 8, b ^^^ UInt8.ofNat (2 ^ n.val) ≠ b := by decide +kernel
  exact all b ⟨n, small⟩

theorem flip_toNat (b : UInt8) (small : n < 8) :
    (b ^^^ UInt8.ofNat (2 ^ n)).toNat = b.toNat + 2 ^ n ∨
      (b ^^^ UInt8.ofNat (2 ^ n)).toNat + 2 ^ n = b.toNat := by
  have all : ∀ b : UInt8, ∀ n : Fin 8, (b ^^^ UInt8.ofNat (2 ^ n.val)).toNat = b.toNat + 2 ^ n.val ∨
      (b ^^^ UInt8.ofNat (2 ^ n.val)).toNat + 2 ^ n.val = b.toNat := by decide +kernel
  exact all b ⟨n, small⟩

/-- A flipped bit changes one byte. -/
theorem flipBit_split {bs : Bytes} (inside : n < 8 * bs.length) :
    ∃ before b b' after, bs = before ++ b :: after ∧
      flipBit bs n = before ++ b' :: after ∧ b' ≠ b := by
  induction bs generalizing n with
  | nil => simp at inside
  | cons c bs ih =>
    by_cases first : n < 8
    · refine ⟨[], c, _, bs, rfl, ?_, flip_ne c first⟩
      simp [flipBit, Nat.div_eq_of_lt first, Nat.mod_eq_of_lt first]
    · obtain ⟨m, rfl⟩ := Nat.exists_eq_add_of_le (Nat.not_lt.mp first)
      obtain ⟨before, b, b', after, rfl, flipped, differs⟩ := @ih m (by simp at inside; omega)
      refine ⟨c :: before, b, b', after, rfl, ?_, differs⟩
      rw [flipBit_cons_add, flipped, List.cons_append]

/-- A flipped bit adds or takes away its value. -/
theorem leNat_flipBit {bs : Bytes} {n : Nat} (inside : n < 8 * bs.length) :
    leNat (flipBit bs n) = leNat bs + 2 ^ n ∨ leNat (flipBit bs n) + 2 ^ n = leNat bs := by
  induction bs generalizing n with
  | nil => simp at inside
  | cons c bs ih =>
    by_cases first : n < 8
    · simp only [flipBit, Nat.div_eq_of_lt first, Nat.mod_eq_of_lt first,
        List.modify_zero_cons, leNat]
      rcases flip_toNat c first with more | less
      · left; omega
      · right; omega
    · obtain ⟨m, rfl⟩ := Nat.exists_eq_add_of_le (Nat.not_lt.mp first)
      have scale : 2 ^ (8 + m) = 256 * 2 ^ m := by rw [Nat.pow_add]
      simp only [flipBit_cons_add, leNat]
      rcases @ih m (by simp at inside; omega) with more | less
      · left; omega
      · right; omega

theorem uint32_flipBit_ne (v : UInt32) (inside : n < 32) :
    uint32 (flipBit (putUint32 v) n) ≠ v := by
  intro same
  have value : (uint32 (flipBit (putUint32 v) n)).toNat = leNat (flipBit (putUint32 v) n) := by
    have bound := leNat_lt (flipBit (putUint32 v) n)
    rw [length_flipBit, length_putUint32] at bound
    rw [uint32, List.take_of_length_le (by simp), UInt32.toNat_ofNat']
    omega
  have whole : leNat (putUint32 v) = v.toNat := by
    have small := v.toNat_lt
    rw [putUint32, leNat_leBytes]
    omega
  have positive : 0 < 2 ^ n := by positivity
  rw [same] at value
  have changed := @leNat_flipBit (putUint32 v) n (by simpa using inside)
  omega

/-! ## The register of CRC-32 -/

theorem toNat_shiftRight_one (c : UInt32) : (c >>> 1).toNat = c.toNat / 2 := by
  rw [UInt32.toNat_shiftRight]
  simp [Nat.shiftRight_eq_div_pow]

theorem and_one_eq_one (c : UInt32) : c &&& 1 = 1 ↔ c.toNat % 2 = 1 := by
  rw [← UInt32.toNat_inj, UInt32.toNat_and]
  simp [Nat.and_one_is_mod]

/-- The bit shifted out is the highest bit of the polynomial that is added. -/
theorem crcBit_injective : Function.Injective crcBit := by
  have odd {x y : UInt32} (hx : x &&& 1 = 1) (hy : y &&& 1 ≠ 1) : crcBit x ≠ crcBit y := by
    intro same
    simp only [crcBit, if_pos hx, if_neg hy] at same
    have high : (x >>> 1) ^^^ (y >>> 1) = 0xEDB88320 := by
      rw [← same, ← UInt32.xor_assoc, UInt32.xor_self, UInt32.zero_xor]
    have small : ((x >>> 1) ^^^ (y >>> 1)).toNat < 2 ^ 31 := by
      rw [UInt32.toNat_xor]
      apply Nat.xor_lt_two_pow
      · have := x.toNat_lt
        rw [toNat_shiftRight_one]
        omega
      · have := y.toNat_lt
        rw [toNat_shiftRight_one]
        omega
    rw [high] at small
    exact absurd small (by decide)
  intro x y same
  have halves (low : x.toNat % 2 = y.toNat % 2) (shifted : x >>> 1 = y >>> 1) : x = y := by
    have := congrArg UInt32.toNat shifted
    rw [toNat_shiftRight_one, toNat_shiftRight_one] at this
    apply UInt32.toNat_inj.mp
    omega
  by_cases hx : x &&& 1 = 1 <;> by_cases hy : y &&& 1 = 1
  · simp only [crcBit, if_pos hx, if_pos hy] at same
    rw [and_one_eq_one] at hx hy
    exact halves (by omega) ((UInt32.xor_left_inj _).mp same)
  · exact absurd same (odd hx hy)
  · exact absurd same.symm (odd hy hx)
  · simp only [crcBit, if_neg hx, if_neg hy] at same
    rw [and_one_eq_one] at hx hy
    exact halves (by omega) same

theorem crcByte_left_injective (b : UInt8) : Function.Injective (crcByte · b) := by
  intro x y same
  exact (UInt32.xor_left_inj _).mp (crcBit_injective.iterate 8 same)

theorem crcByte_right_injective (c : UInt32) : Function.Injective (crcByte c) := by
  intro x y same
  have word := (UInt32.xor_right_inj _).mp (crcBit_injective.iterate 8 same)
  apply UInt8.toNat_inj.mp
  simpa using congrArg UInt32.toNat word

theorem foldl_crcByte_injective (bs : Bytes) : Function.Injective (bs.foldl crcByte ·) := by
  induction bs with
  | nil => exact fun x y same => same
  | cons b bs ih => exact ih.comp (crcByte_left_injective b)

/-- A single byte that is changed changes the checksum. -/
theorem checksumIEEE_ne {before after : Bytes} {b b' : UInt8} (differs : b' ≠ b) :
    checksumIEEE (before ++ b' :: after) ≠ checksumIEEE (before ++ b :: after) := by
  intro same
  have folded := (UInt32.xor_left_inj _).mp same
  simp only [List.foldl_append, List.foldl_cons] at folded
  exact differs (crcByte_right_injective _ (foldl_crcByte_injective after folded))

/-! ## The checksum behind its text -/

theorem crcBit_xor (a b : UInt32) : crcBit (a ^^^ b) = crcBit a ^^^ crcBit b := by
  have bit (c : UInt32) : c &&& 1 = 1 ↔ c.toNat.testBit 0 = true := by
    rw [and_one_eq_one]
    simp [Nat.testBit_zero]
  have shift : (a ^^^ b) >>> 1 = (a >>> 1) ^^^ (b >>> 1) := by
    apply UInt32.toNat_inj.mp
    simp only [UInt32.toNat_xor, toNat_shiftRight_one]
    exact Nat.xor_div_two
  have cancel (x y p : UInt32) : x ^^^ y = x ^^^ p ^^^ (y ^^^ p) := by
    rw [UInt32.xor_assoc x p, UInt32.xor_comm y p, ← UInt32.xor_assoc p,
      UInt32.xor_self, UInt32.zero_xor]
  simp only [crcBit, bit, UInt32.toNat_xor, Nat.testBit_xor, shift]
  cases a.toNat.testBit 0 <;> cases b.toNat.testBit 0
  · simp
  · simp [UInt32.xor_assoc]
  · simp only [Bool.xor_false, if_true, Bool.false_eq_true, if_false]
    rw [UInt32.xor_assoc, UInt32.xor_comm (b >>> 1), UInt32.xor_assoc]
  · simpa using cancel _ _ _

theorem iterate_crcBit_xor (n : Nat) (a b : UInt32) :
    crcBit^[n] (a ^^^ b) = crcBit^[n] a ^^^ crcBit^[n] b := by
  induction n generalizing a b with
  | zero => rfl
  | succ n ih => simp only [Function.iterate_succ_apply, crcBit_xor, ih]

theorem crcByte_xor (c d : UInt32) (x y : UInt8) :
    crcByte (c ^^^ d) (x ^^^ y) = crcByte c x ^^^ crcByte d y := by
  have shuffle : c ^^^ d ^^^ (x ^^^ y).toUInt32 = c ^^^ x.toUInt32 ^^^ (d ^^^ y.toUInt32) := by
    rw [UInt8.toUInt32_xor]
    ac_rfl
  show crcBit^[8] _ = crcBit^[8] _ ^^^ crcBit^[8] _
  rw [shuffle, iterate_crcBit_xor]

theorem foldl_crcByte_xor {xs ys : Bytes} (same : xs.length = ys.length) (c d : UInt32) :
    (List.zipWith (· ^^^ ·) xs ys).foldl crcByte (c ^^^ d) =
      xs.foldl crcByte c ^^^ ys.foldl crcByte d := by
  induction xs generalizing ys c d with
  | nil =>
    obtain rfl := List.length_eq_zero_iff.mp same.symm
    rfl
  | cons x xs ih =>
    cases ys with
    | nil => simp at same
    | cons y ys =>
      simp only [List.zipWith_cons_cons, List.foldl_cons, crcByte_xor]
      exact ih (by simpa using same) _ _

/-- Zeros are shifted out. -/
theorem iterate_crcBit_of_dvd {c : UInt32} (zeros : 2 ^ n ∣ c.toNat) :
    (crcBit^[n] c).toNat = c.toNat / 2 ^ n := by
  induction n generalizing c with
  | zero => simp
  | succ n ih =>
    obtain ⟨k, value⟩ := zeros
    have even : c.toNat = 2 * (2 ^ n * k) := by rw [value]; ring
    have step : (crcBit c).toNat = 2 ^ n * k := by
      rw [crcBit, if_neg (by rw [and_one_eq_one]; omega), toNat_shiftRight_one, even]
      omega
    rw [Function.iterate_succ_apply, ih (by rw [step]; exact Nat.dvd_mul_right _ _), step, value]
    rw [Nat.mul_div_cancel_left _ (by positivity), Nat.mul_div_cancel_left _ (by positivity)]

/-- The register is emptied by its own low byte. -/
theorem crcByte_low (c : UInt32) : (crcByte c (UInt8.ofNat c.toNat)).toNat = c.toNat / 256 := by
  have cleared : (c ^^^ (UInt8.ofNat c.toNat).toUInt32).toNat = 2 ^ 8 * (c.toNat / 2 ^ 8) := by
    have low : (UInt8.ofNat c.toNat).toUInt32.toNat = c.toNat % 2 ^ 8 := by simp
    rw [UInt32.toNat_xor, low]
    apply Nat.eq_of_testBit_eq
    intro i
    rw [Nat.testBit_xor, Nat.testBit_mod_two_pow, Nat.testBit_two_pow_mul, Nat.testBit_div_two_pow]
    by_cases below : i < 8
    · simp [below]
    · simp [below, Nat.sub_add_cancel (Nat.not_lt.mp below), Nat.not_lt.mp below]
  show (crcBit^[8] _).toNat = _
  rw [iterate_crcBit_of_dvd (by rw [cleared]; exact Nat.dvd_mul_right _ _), cleared]
  omega

theorem foldl_crcByte_leBytes (width : Nat) (c : UInt32) :
    ((leBytes width c.toNat).foldl crcByte c).toNat = c.toNat / 256 ^ width := by
  induction width generalizing c with
  | zero => simp [leBytes]
  | succ width ih =>
    rw [leBytes, List.foldl_cons, ← crcByte_low c, ih, crcByte_low,
      Nat.div_div_eq_div_mul, pow_succ']

theorem take_leBytes {width : Nat} (le : k ≤ width) (n : Nat) :
    (leBytes width n).take k = leBytes k n := by
  induction k generalizing width n with
  | zero => simp [leBytes]
  | succ k ih =>
    obtain ⟨width, rfl⟩ : ∃ m, width = m + 1 := ⟨width - 1, by omega⟩
    simp [leBytes, ih (by omega : k ≤ width)]

theorem ofNat_complement {m : Nat} (complement : m % 256 + n % 256 = 255) :
    UInt8.ofNat m = UInt8.ofNat n ^^^ 0xFF := by
  have all : ∀ b : UInt8, b ^^^ 0xFF = UInt8.ofNat (255 - b.toNat) := by decide +kernel
  rw [all, UInt8.toNat_ofNat']
  apply UInt8.toNat_inj.mp
  rw [UInt8.toNat_ofNat', UInt8.toNat_ofNat']
  omega

theorem leBytes_complement (width : Nat) (small : n < 256 ^ width) :
    leBytes width (256 ^ width - 1 - n) =
      List.zipWith (· ^^^ ·) (leBytes width n) (List.replicate width 0xFF) := by
  induction width generalizing n with
  | zero => rfl
  | succ width ih =>
    have positive : 0 < 256 ^ width := by positivity
    rw [pow_succ'] at small ⊢
    have first : UInt8.ofNat (256 * 256 ^ width - 1 - n) = UInt8.ofNat n ^^^ 0xFF :=
      ofNat_complement (by omega)
    have later : (256 * 256 ^ width - 1 - n) / 256 = 256 ^ width - 1 - n / 256 := by omega
    rw [leBytes, first, later, ih (by omega)]
    rfl

/-- The constant that a text with a part of its checksum behind it adds to the register. -/
def residue (k : Nat) : UInt32 := (List.replicate k 0xFF).foldl crcByte 0

theorem toNat_complement (c : UInt32) : (c ^^^ 0xFFFFFFFF).toNat = 256 ^ 4 - 1 - c.toNat := by
  rw [show (0xFFFFFFFF : UInt32) = -1 from rfl, UInt32.xor_neg_one, UInt32.toNat_not]
  rfl

/-- The register behind a text and the first bytes of its checksum. -/
theorem toNat_foldl_checksum (text : Bytes) (le : k ≤ 4) :
    (text ++ (putUint32 (checksumIEEE text)).take k).foldl crcByte 0xFFFFFFFF =
      UInt32.ofNat ((text.foldl crcByte 0xFFFFFFFF).toNat / 256 ^ k) ^^^ residue k := by
  generalize reg : text.foldl crcByte 0xFFFFFFFF = c
  have bytes : (putUint32 (checksumIEEE text)).take k =
      List.zipWith (· ^^^ ·) (leBytes k c.toNat) (List.replicate k 0xFF) := by
    rw [putUint32, checksumIEEE, reg, toNat_complement,
      leBytes_complement 4 (by simpa using c.toNat_lt),
      List.take_zipWith, take_leBytes le, List.take_replicate, min_eq_left le]
  have folded := @foldl_crcByte_xor (leBytes k c.toNat) (List.replicate k 0xFF) (by simp) c 0
  rw [UInt32.xor_zero] at folded
  rw [List.foldl_append, reg, bytes, folded, residue]
  congr 1
  apply UInt32.toNat_inj.mp
  rw [foldl_crcByte_leBytes, UInt32.toNat_ofNat', Nat.mod_eq_of_lt]
  exact lt_of_le_of_lt (Nat.div_le_self _ _) c.toNat_lt

theorem checksumIEEE_checksum (text : Bytes) :
    checksumIEEE (text ++ putUint32 (checksumIEEE text)) = 0x2144DF1C := by
  have register := toNat_foldl_checksum text (le_refl 4)
  have small := (text.foldl crcByte 0xFFFFFFFF).toNat_lt
  rw [List.take_of_length_le (by simp), Nat.div_eq_of_lt (by simpa using small)] at register
  rw [checksumIEEE, register]
  decide +kernel

theorem toUInt8_uint32 (b : UInt8) (rest : Bytes) : (uint32 (b :: rest)).toUInt8 = b := by
  have small := b.toNat_lt
  apply UInt8.toNat_inj.mp
  simp only [uint32, List.take_succ_cons, leNat, UInt32.toNat_toUInt8, UInt32.toNat_ofNat']
  omega

/-- A text with one or two bytes of its checksum behind it does not have the checksum that starts
with the other bytes. -/
theorem checksumIEEE_part_ne (text rest : Bytes) (part : k = 1 ∨ k = 2) :
    checksumIEEE (text ++ (putUint32 (checksumIEEE text)).take k) ≠
      uint32 ((putUint32 (checksumIEEE text)).drop k ++ rest) := by
  intro same
  have register := toNat_foldl_checksum text (show k ≤ 4 by omega)
  generalize reg : text.foldl crcByte 0xFFFFFFFF = c at register
  have small : c.toNat < 256 ^ 4 := c.toNat_lt
  -- The lowest byte differs by the residue's lowest byte, which is not zero.
  obtain ⟨more, split⟩ : ∃ more, (putUint32 (checksumIEEE text)).drop k =
      (UInt8.ofNat (c.toNat / 256 ^ k) ^^^ 0xFF) :: more := by
    rw [putUint32, checksumIEEE, reg, toNat_complement]
    rcases part with rfl | rfl
    · exact ⟨_, congrArg (· :: _) (ofNat_complement (by omega))⟩
    · exact ⟨_, congrArg (· :: _) (ofNat_complement (by omega))⟩
  have low := congrArg UInt32.toUInt8 same
  rw [split, List.cons_append, toUInt8_uint32, checksumIEEE, register] at low
  have byte : (UInt32.ofNat (c.toNat / 256 ^ k)).toUInt8 = UInt8.ofNat (c.toNat / 256 ^ k) := by
    apply UInt8.toNat_inj.mp
    rw [UInt32.toNat_toUInt8, UInt32.toNat_ofNat', UInt8.toNat_ofNat']
    omega
  rw [UInt32.toUInt8_xor, UInt32.toUInt8_xor, byte,
    show (0xFFFFFFFF : UInt32).toUInt8 = 0xFF from rfl,
    UInt8.xor_assoc, UInt8.xor_comm (residue k).toUInt8, ← UInt8.xor_assoc] at low
  have zero : (residue k).toUInt8 = 0 := (UInt8.xor_right_inj _).mp (low.trans UInt8.xor_zero.symm)
  rcases part with rfl | rfl <;> revert zero <;> decide +kernel

end OctetDB
