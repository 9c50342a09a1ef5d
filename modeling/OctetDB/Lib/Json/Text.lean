import OctetDB.Lib.Utf8

/-!
# String and number tokens of JSON text

The writer escapes quotes, backslashes, control characters, `<`, `>`, `&`, U+2028 and
U+2029, and writes a byte that is not valid UTF-8 as the escape of U+FFFD. The reader
accepts every escape of the grammar, pairs surrogates, and replaces what is not valid
UTF-8 by U+FFFD. Reading back what was written therefore yields the string with its
invalid bytes replaced, which is the string itself exactly when it is valid.
-/

namespace OctetDB.Json

open Utf8 (Rune nextRune runes)

/-! ## Writing strings -/

def hexDigit (n : Nat) : UInt8 := (ascii "0123456789abcdef").getD (n % 16) 0

def escapeAscii (b : UInt8) : Bytes :=
  if b = 0x22 ∨ b = 0x5C then [0x5C, b]
  else if b = 0x08 then [0x5C, 0x62]
  else if b = 0x0C then [0x5C, 0x66]
  else if b = 0x0A then [0x5C, 0x6E]
  else if b = 0x0D then [0x5C, 0x72]
  else if b = 0x09 then [0x5C, 0x74]
  else if b < 0x20 ∨ b = 0x3C ∨ b = 0x3E ∨ b = 0x26 then
    [0x5C, 0x75, 0x30, 0x30, hexDigit (b.toNat / 16), hexDigit b.toNat]
  else [b]

def escapeRune : Rune → Bytes
  | .invalid _ => [0x5C, 0x75, 0x66, 0x66, 0x66, 0x64]
  | .valid enc =>
    match enc with
    | [b] => escapeAscii b
    | enc =>
      if enc = [0xE2, 0x80, 0xA8] then [0x5C, 0x75, 0x32, 0x30, 0x32, 0x38]
      else if enc = [0xE2, 0x80, 0xA9] then [0x5C, 0x75, 0x32, 0x30, 0x32, 0x39]
      else enc

/-- The characters between the quotes. -/
def escape (s : Bytes) : Bytes := (runes s).flatMap escapeRune

def quote (s : Bytes) : Bytes := 0x22 :: (escape s ++ [0x22])

theorem length_le_quote (s : Bytes) : s.length ≤ (quote s).length := by
  have rune (r : Rune) : r.bytes.length ≤ (escapeRune r).length := by
    fun_cases escapeRune r <;> simp_all [Rune.bytes]
    unfold escapeAscii
    grind
  have text : s.length ≤ (escape s).length := by
    conv_lhs => rw [← Utf8.flatMap_bytes_runes s]
    rw [escape, List.length_flatMap, List.length_flatMap]
    exact List.sum_le_sum fun r _ => rune r
  simp only [quote, List.length_cons, List.length_append]
  omega

/-! ## Reading strings -/

def hexValue (c : UInt8) : Option Nat :=
  if 0x30 ≤ c ∧ c ≤ 0x39 then some (c.toNat - 0x30)
  else if 0x61 ≤ c ∧ c ≤ 0x66 then some (c.toNat - 0x57)
  else if 0x41 ≤ c ∧ c ≤ 0x46 then some (c.toNat - 0x37)
  else none

def hex4 (a b c d : UInt8) : Option Nat := do
  let a ← hexValue a
  let b ← hexValue b
  let c ← hexValue c
  let d ← hexValue d
  some (((a * 16 + b) * 16 + c) * 16 + d)

/-- The UTF-8 encoding of a scalar value. -/
def encodeRune (n : Nat) : Bytes :=
  if n < 0x80 then [UInt8.ofNat n]
  else if n < 0x800 then [UInt8.ofNat (0xC0 + n / 64), UInt8.ofNat (0x80 + n % 64)]
  else if n < 0x10000 then
    [UInt8.ofNat (0xE0 + n / 4096), UInt8.ofNat (0x80 + n / 64 % 64), UInt8.ofNat (0x80 + n % 64)]
  else
    [UInt8.ofNat (0xF0 + n / 262144), UInt8.ofNat (0x80 + n / 4096 % 64),
      UInt8.ofNat (0x80 + n / 64 % 64), UInt8.ofNat (0x80 + n % 64)]

/-- One step inside a string: its end, or decoded bytes. -/
inductive Chunk where
  | close (rest : Bytes)
  | text (decoded rest : Bytes)
  deriving DecidableEq, Repr

/-- The unit after `\u`. A high surrogate takes the low one behind it; alone it reads as
U+FFFD. -/
def unescapeUnit (n : Nat) (rest : Bytes) : Chunk :=
  if n < 0xD800 ∨ 0xE000 ≤ n then .text (encodeRune n) rest
  else match rest with
    | 0x5C :: 0x75 :: a :: b :: c :: d :: tail =>
      match hex4 a b c d with
      | some m =>
        if n < 0xDC00 ∧ 0xDC00 ≤ m ∧ m < 0xE000 then
          .text (encodeRune (0x10000 + (n - 0xD800) * 1024 + (m - 0xDC00))) tail
        else .text Utf8.replacement rest
      | none => .text Utf8.replacement rest
    | _ => .text Utf8.replacement rest

/-- What follows a backslash. -/
def unescape : Bytes → Option Chunk
  | [] => none
  | c :: rest =>
    if c = 0x22 ∨ c = 0x5C ∨ c = 0x2F then some (.text [c] rest)
    else if c = 0x62 then some (.text [0x08] rest)
    else if c = 0x66 then some (.text [0x0C] rest)
    else if c = 0x6E then some (.text [0x0A] rest)
    else if c = 0x72 then some (.text [0x0D] rest)
    else if c = 0x74 then some (.text [0x09] rest)
    else if c = 0x75 then
      match rest with
      | a :: b :: c :: d :: rest => (hex4 a b c d).map fun n => unescapeUnit n rest
      | _ => none
    else none

def stringStep : Bytes → Option Chunk
  | [] => none
  | b :: rest =>
    if b = 0x22 then some (.close rest)
    else if b = 0x5C then unescape rest
    else if b < 0x20 then none
    else (nextRune (b :: rest)).map fun step => .text step.1.coerce step.2

/-- The string whose characters follow, up to its closing quote, and the bytes behind. -/
def unquote : Nat → Bytes → Option (Bytes × Bytes)
  | 0, _ => none
  | fuel + 1, s =>
    match stringStep s with
    | none => none
    | some (.close rest) => some ([], rest)
    | some (.text decoded rest) => (unquote fuel rest).map fun r => (decoded ++ r.1, r.2)

/-! ## Strings read back -/

theorem hex4_byte : ∀ b : UInt8,
    hex4 0x30 0x30 (hexDigit (b.toNat / 16)) (hexDigit b.toNat) = some b.toNat := by
  decide +kernel

theorem encodeRune_ascii {b : UInt8} (h : b < 0x80) : encodeRune b.toNat = [b] := by
  have small : b.toNat < 0x80 := UInt8.lt_iff_toNat_lt.mp h
  simp [encodeRune, small]

theorem stringStep_escapeAscii {b : UInt8} (h : b < 0x80) (t : Bytes) :
    stringStep (escapeAscii b ++ t) = some (.text [b] t) := by
  unfold escapeAscii
  split_ifs with quoted
  · simp [stringStep, unescape]; tauto
  all_goals try simp_all [stringStep, unescape]
  · have small : b.toNat < 0x80 := UInt8.lt_iff_toNat_lt.mp h
    simp [hex4_byte, unescapeUnit, encodeRune_ascii h, show b.toNat < 0xD800 by omega]
  · simp [Utf8.nextRune_ascii h, Rune.coerce]

variable {s rest : Bytes} {r : Rune}

/-- An encoded rune is an ASCII byte, or starts with a byte above ASCII and is longer. -/
theorem valid_rune_cases {enc : Bytes} (h : nextRune s = some (.valid enc, rest)) :
    (∃ b, enc = [b] ∧ b < 0x80) ∨ ∃ b c tail, enc = b :: c :: tail ∧ 0x80 ≤ b := by
  cases s with
  | nil => simp [nextRune] at h
  | cons b bs =>
    have hlen := Utf8.runeLength_le (b :: bs)
    simp only [nextRune] at h
    split at h
    · simp at h
    · rename_i positive
      obtain ⟨rfl, -⟩ : (b :: bs).take (Utf8.runeLength (b :: bs)) = enc ∧ _ = rest := by
        simpa only [Option.some.injEq, Prod.mk.injEq, Rune.valid.injEq] using h
      by_cases hb : b < 0x80
      · left; exact ⟨b, by simp [Utf8.runeLength, hb], hb⟩
      · right
        have wide := Utf8.two_le_runeLength hb positive
        obtain ⟨n, hn⟩ := Nat.exists_eq_add_of_le' wide
        cases bs with
        | nil => simp at hlen; omega
        | cons c tail => exact ⟨b, c, tail.take n, by simp [hn], UInt8.not_lt.mp hb⟩

section

variable (h : nextRune s = some (r, rest))
include h

/-- Reading the characters a rune was written as yields the rune, replaced if invalid. -/
theorem stringStep_escapeRune (t : Bytes) :
    stringStep (escapeRune r ++ t) = some (.text r.coerce t) := by
  cases r with
  | invalid b => rfl
  | valid enc =>
    obtain ⟨b, rfl, hb⟩ | ⟨b, c, tail, rfl, hb⟩ := valid_rune_cases h
    · exact stringStep_escapeAscii hb t
    · have again := Utf8.nextRune_valid h t
      have step : stringStep (b :: c :: tail ++ t) = some (.text (b :: c :: tail) t) := by
        have quoted : b ≠ 0x22 := by rintro rfl; revert hb; decide
        have escaped : b ≠ 0x5C := by rintro rfl; revert hb; decide
        have control : ¬ b < 0x20 := by grind
        simp only [List.cons_append] at again ⊢
        simp [stringStep, quoted, escaped, control, again, Rune.coerce]
      simp only [escapeRune, Rune.coerce]
      split_ifs with separator paragraph
      · rw [separator]; rfl
      · rw [paragraph]; rfl
      · exact step

theorem escape_of_nextRune :
    escape s = escapeRune r ++ escape rest := by
  rw [escape, Utf8.runes_of_nextRune h, List.flatMap_cons, ← escape]

theorem coerce_of_nextRune :
    Utf8.coerce s = r.coerce ++ Utf8.coerce rest := by
  rw [Utf8.coerce, Utf8.runes_of_nextRune h, List.flatMap_cons, ← Utf8.coerce]

theorem escapeRune_ne_nil :
    escapeRune r ≠ [] := by
  intro empty
  have step := stringStep_escapeRune h []
  simp [empty, stringStep] at step

end

/-- A written string is read back with its invalid bytes replaced. -/
theorem unquote_escape (s rest : Bytes) {fuel : Nat} (enough : (escape s).length < fuel) :
    unquote fuel (escape s ++ 0x22 :: rest) = some (Utf8.coerce s, rest) := by
  induction s using Utf8.runeInduction generalizing fuel with
  | nil =>
    obtain ⟨fuel, rfl⟩ := Nat.exists_eq_add_of_lt enough
    simp [escape, Utf8.coerce, unquote, stringStep]
  | cons s r tail step ih =>
    rw [escape_of_nextRune step, List.length_append] at enough
    have nonempty := List.length_pos_of_ne_nil (escapeRune_ne_nil step)
    obtain ⟨fuel, rfl⟩ : ∃ n, fuel = n + 1 := ⟨fuel - 1, by omega⟩
    rw [escape_of_nextRune step, coerce_of_nextRune step, List.append_assoc, unquote,
      stringStep_escapeRune step]
    simp [@ih fuel (by omega)]

/-! ## Numbers -/

def isDigit (b : UInt8) : Bool := 0x30 ≤ b && b ≤ 0x39

def integerPart (s : Bytes) : Option (Bytes × Bytes) :=
  match s with
  | 0x30 :: rest => some ([0x30], rest)
  | s => if s.takeWhile isDigit = [] then none
    else some (s.takeWhile isDigit, s.dropWhile isDigit)

def fractionPart (s : Bytes) : Option (Bytes × Bytes) :=
  match s with
  | 0x2E :: rest => if rest.takeWhile isDigit = [] then none
    else some (0x2E :: rest.takeWhile isDigit, rest.dropWhile isDigit)
  | s => some ([], s)

def exponentPart (s : Bytes) : Option (Bytes × Bytes) :=
  match s with
  | [] => some ([], [])
  | e :: rest =>
    if e = 0x65 ∨ e = 0x45 then
      let sign := rest.take 1 |>.filter fun c => c == 0x2B || c == 0x2D
      let digits := rest.drop sign.length
      if digits.takeWhile isDigit = [] then none
      else some (e :: sign ++ digits.takeWhile isDigit, digits.dropWhile isDigit)
    else some ([], s)

/-- The number literal at the front. -/
def numberToken (s : Bytes) : Option (Bytes × Bytes) := do
  let sign := s.take 1 |>.filter (· == 0x2D)
  let (int, s) ← integerPart (s.drop sign.length)
  let (frac, s) ← fractionPart s
  let (exp, s) ← exponentPart s
  some (sign ++ int ++ frac ++ exp, s)

/-- Decimal digits, most significant first; `fuel` bounds their number. -/
def digitsUpTo : Nat → Nat → Bytes
  | 0, _ => []
  | fuel + 1, n =>
    if n < 10 then [UInt8.ofNat (0x30 + n)]
    else digitsUpTo fuel (n / 10) ++ [UInt8.ofNat (0x30 + n % 10)]

def decimal (n : Nat) : Bytes := digitsUpTo (n + 1) n

/-- The value of a literal of digits only. -/
def digitsValue (s : Bytes) : Nat := s.foldl (fun n b => n * 10 + (b.toNat - 0x30)) 0

def parseUint (s : Bytes) : Option UInt64 :=
  if s ≠ [] ∧ s.all isDigit ∧ digitsValue s < 2 ^ 64 then some (UInt64.ofNat (digitsValue s))
  else none

theorem isDigit_ofNat {n : Nat} (h : n < 10) : isDigit (UInt8.ofNat (0x30 + n)) = true := by
  interval_cases n <;> decide

theorem digitsUpTo_spec {fuel n : Nat} (h : n < fuel) :
    (∀ b ∈ digitsUpTo fuel n, isDigit b = true) ∧ digitsUpTo fuel n ≠ [] ∧
      digitsValue (digitsUpTo fuel n) = n ∧
      (0 < n → (digitsUpTo fuel n).head? ≠ some 0x30) := by
  induction fuel generalizing n with
  | zero => omega
  | succ fuel ih =>
    simp only [digitsUpTo]
    split
    · rename_i small
      have byte : (UInt8.ofNat (0x30 + n)).toNat = 0x30 + n := by
        rw [UInt8.toNat_ofNat']; omega
      refine ⟨?_, by simp, by rw [digitsValue, List.foldl_cons, byte]; simp, ?_⟩
      · intro b hb
        rw [List.mem_singleton.mp hb]
        exact isDigit_ofNat small
      intro positive
      simp only [List.head?_cons, ne_eq, Option.some.injEq]
      intro zero
      have := congrArg UInt8.toNat zero
      rw [byte] at this
      simp at this
      omega
    · rename_i large
      obtain ⟨digits, nonempty, value, head⟩ := ih (n := n / 10) (by omega)
      have last := isDigit_ofNat (n := n % 10) (Nat.mod_lt _ (by decide))
      have byte : (UInt8.ofNat (0x30 + n % 10)).toNat = 0x30 + n % 10 := by
        rw [UInt8.toNat_ofNat']; omega
      refine ⟨?_, by simp, ?_, ?_⟩
      · intro b hb
        obtain hb | hb := List.mem_append.mp hb
        · exact digits b hb
        · rw [List.mem_singleton.mp hb]; exact last
      · simp only [digitsValue] at value ⊢
        rw [List.foldl_append, value, List.foldl_cons, List.foldl_nil, byte]
        omega
      · intro _
        rw [List.head?_append_of_ne_nil _ nonempty]
        exact head (by omega)

theorem decimal_cons (n : Nat) : ∃ b tail, decimal n = b :: tail ∧ isDigit b = true := by
  obtain ⟨digits, nonempty, -, -⟩ := digitsUpTo_spec (Nat.lt_succ_self n)
  obtain ⟨b, tail, eq⟩ := List.exists_cons_of_ne_nil nonempty
  exact ⟨b, tail, eq, digits b (by simp [eq])⟩

/-- Nothing that could extend a number literal. -/
def Delimited (rest : Bytes) : Prop :=
  ∀ b ∈ rest.head?, isDigit b = false ∧ b ≠ 0x2E ∧ b ≠ 0x65 ∧ b ≠ 0x45

theorem takeWhile_digits (digits : ∀ b ∈ s, isDigit b = true) (stop : Delimited rest) :
    (s ++ rest).takeWhile isDigit = s ∧ (s ++ rest).dropWhile isDigit = rest := by
  rw [List.takeWhile_append_of_pos digits, List.dropWhile_append_of_pos digits]
  cases rest with
  | nil => simp
  | cons b rest => simp [(stop b (by simp)).1]

/-- Behind a number that is delimited there is neither a fraction nor an exponent. -/
theorem Delimited.bare (stop : Delimited rest) :
    fractionPart rest = some ([], rest) ∧ exponentPart rest = some ([], rest) := by
  cases rest with
  | nil => exact ⟨rfl, rfl⟩
  | cons b rest =>
    obtain ⟨-, point, lower, upper⟩ := stop b (by simp)
    simp [fractionPart, exponentPart, point, lower, upper]

theorem integerPart_decimal (n : Nat) (stop : Delimited rest) :
    integerPart (decimal n ++ rest) = some (decimal n, rest) := by
  obtain ⟨digits, nonempty, -, head⟩ := digitsUpTo_spec (Nat.lt_succ_self n)
  by_cases zero : n = 0
  · subst zero; rfl
  · obtain ⟨taken, dropped⟩ := takeWhile_digits digits stop
    rw [← decimal] at taken dropped
    have noZero : ∀ t, decimal n ++ rest ≠ 0x30 :: t := by
      intro t ht
      apply head (by omega)
      rw [← decimal]
      cases hd : decimal n with
      | nil => exact absurd hd nonempty
      | cons b tail => rw [hd] at ht; simp at ht; simp [ht.1]
    unfold integerPart
    split
    · rename_i t ht; exact absurd ht (noZero t)
    · rw [taken, dropped, if_neg (by exact nonempty)]

/-- A natural number written before a delimiter is read back as its literal. -/
theorem numberToken_decimal (n : Nat) (stop : Delimited rest) :
    numberToken (decimal n ++ rest) = some (decimal n, rest) := by
  have unsigned : ((decimal n ++ rest).take 1).filter (· == 0x2D) = [] := by
    obtain ⟨b, tail, hd, hb⟩ := decimal_cons n
    have : b ≠ 0x2D := by rintro rfl; revert hb; decide
    simp [hd, this]
  simp [numberToken, unsigned, integerPart_decimal n stop, stop.bare]

theorem numberToken_minus (n : Nat) (stop : Delimited rest) :
    numberToken (0x2D :: decimal n ++ rest) = some (0x2D :: decimal n, rest) := by
  simp [numberToken, integerPart_decimal n stop, stop.bare]

@[simp] theorem parseUint_decimal (n : UInt64) : parseUint (decimal n.toNat) = some n := by
  obtain ⟨digits, nonempty, value, -⟩ := digitsUpTo_spec (Nat.lt_succ_self n.toNat)
  have bound := n.toNat_lt
  have all : (decimal n.toNat).all isDigit = true := List.all_eq_true.mpr digits
  rw [parseUint, if_pos ⟨nonempty, all, by rw [decimal, value]; omega⟩, decimal, value,
    UInt64.ofNat_toNat]

theorem decimal_ne_minus (n : Nat) (rest : Bytes) : decimal n ≠ 0x2D :: rest := by
  obtain ⟨b, tail, hd, hb⟩ := decimal_cons n
  rw [hd]
  rintro ⟨⟩
  exact absurd hb (by decide)

end OctetDB.Json
