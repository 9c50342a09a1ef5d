import OctetDB.Lib.Utf8

/-!
# Base64

The standard alphabet with padding. The decoder skips line breaks, as the common
library decoders do, and does not check the unused low bits of a padded quantum.
-/

namespace OctetDB.Base64

def alphabet : Bytes :=
  ascii "ABCDEFGHIJKLMNOPQRSTUVWXYZabcdefghijklmnopqrstuvwxyz0123456789+/"

def pad : UInt8 := 0x3D

/-- The character of a six-bit digit. -/
def digit (n : Nat) : UInt8 := alphabet.getD (n % 64) 0

/-- The six-bit digit of a character. -/
def value (c : UInt8) : Option Nat := alphabet.findIdx? (· == c)

theorem digit_fin : ∀ n : Fin 64,
    value (digit n) = some n.val ∧ digit n ≠ pad ∧ digit n < 0x80 ∧ digit n ≠ 0x0A ∧
      digit n ≠ 0x0D := by
  decide +kernel

@[simp] theorem value_digit (n : Nat) : value (digit n) = some (n % 64) := by
  have h := (digit_fin ⟨n % 64, Nat.mod_lt _ (by decide)⟩).1
  simpa [digit] using h

@[simp] theorem digit_ne_pad (n : Nat) : digit n ≠ pad := by
  have h := (digit_fin ⟨n % 64, Nat.mod_lt _ (by decide)⟩).2.1
  simpa [digit] using h

theorem digit_plain (n : Nat) : digit n < 0x80 ∧ digit n ≠ 0x0A ∧ digit n ≠ 0x0D := by
  have h := (digit_fin ⟨n % 64, Nat.mod_lt _ (by decide)⟩).2.2
  simpa [digit] using h

def encode : Bytes → Bytes
  | [] => []
  | [a] => [digit (a.toNat / 4), digit (a.toNat * 16), pad, pad]
  | [a, b] =>
    [digit (a.toNat / 4), digit (a.toNat * 16 + b.toNat / 16), digit (b.toNat * 4), pad]
  | a :: b :: c :: rest =>
    digit (a.toNat / 4) :: digit (a.toNat * 16 + b.toNat / 16) ::
      digit (b.toNat * 4 + c.toNat / 64) :: digit c.toNat :: encode rest

theorem length_le_encode (bs : Bytes) : bs.length ≤ (encode bs).length := by
  fun_induction encode bs <;> grind

/-- The quanta of a text without line breaks. Padding ends the text. -/
def decodeQuanta : Bytes → Option Bytes
  | [] => some []
  | w :: x :: y :: z :: rest => do
    let p ← value w
    let q ← value x
    let first := UInt8.ofNat (p * 4 + q / 16)
    if y = pad then
      if z = pad ∧ rest = [] then some [first] else none
    else
      let r ← value y
      let second := UInt8.ofNat (q * 16 + r / 4)
      if z = pad then
        if rest = [] then some [first, second] else none
      else
        let s ← value z
        let tail ← decodeQuanta rest
        some (first :: second :: UInt8.ofNat (r * 64 + s) :: tail)
  | _ => none

def isBreak (c : UInt8) : Bool := c == 0x0A || c == 0x0D

def decode (text : Bytes) : Option Bytes := decodeQuanta (text.filter fun c => !isBreak c)

theorem encode_plain (bs : Bytes) : ∀ c ∈ encode bs, c < 0x80 ∧ c ≠ 0x0A ∧ c ≠ 0x0D := by
  have hpad : pad < 0x80 ∧ pad ≠ 0x0A ∧ pad ≠ 0x0D := by decide
  fun_induction encode bs with
  | case1 => simp
  | case2 => simp [digit_plain, hpad]
  | case3 => simp [digit_plain, hpad]
  | case4 a b c rest ih => simpa [digit_plain] using ih

@[simp] theorem valid_encode (bs : Bytes) : Utf8.valid (encode bs) = true := by
  have h := Utf8.valid_ascii_append (fun c hc => (encode_plain bs c hc).1) []
  rw [List.append_nil] at h
  exact h

theorem decodeQuanta_encode (bs : Bytes) : decodeQuanta (encode bs) = some bs := by
  have byte (a : UInt8) {n : Nat} (h : n % 256 = a.toNat) : UInt8.ofNat n = a := by
    apply UInt8.toNat_inj.mp
    rw [UInt8.toNat_ofNat']
    omega
  fun_induction encode bs with
  | case1 => rfl
  | case2 a =>
    have ha := a.toNat_lt
    simp only [decodeQuanta, value_digit, Option.bind_eq_bind, Option.bind_some, if_true,
      and_self, Option.some.injEq, List.cons.injEq, and_true]
    exact byte a (by omega)
  | case3 a b =>
    have ha := a.toNat_lt
    have hb := b.toNat_lt
    simp only [decodeQuanta, value_digit, Option.bind_eq_bind, Option.bind_some, if_true,
      digit_ne_pad, if_false, Option.some.injEq, List.cons.injEq, and_true]
    exact ⟨byte a (by omega), byte b (by omega)⟩
  | case4 a b c rest ih =>
    have ha := a.toNat_lt
    have hb := b.toNat_lt
    have hc := c.toNat_lt
    simp only [decodeQuanta, value_digit, Option.bind_eq_bind, Option.bind_some,
      digit_ne_pad, if_false, ih, Option.some.injEq, List.cons.injEq, and_true]
    exact ⟨byte a (by omega), byte b (by omega), byte c (by omega)⟩

@[simp] theorem decode_encode (bs : Bytes) : decode (encode bs) = some bs := by
  have plain : (encode bs).filter (fun c => !isBreak c) = encode bs := by
    apply List.filter_eq_self.mpr
    intro c hc
    obtain ⟨_, newline, ret⟩ := encode_plain bs c hc
    simp [isBreak, newline, ret]
  rw [decode, plain, decodeQuanta_encode]

end OctetDB.Base64
