import OctetDB.Lib.Bytes

/-!
# UTF-8 runes of a byte string

A byte string splits into runes: a well-formed UTF-8 sequence is one valid rune, and
every other byte is an invalid rune of width one. The split is greedy from the left
and local, so the runes of a concatenation at a rune boundary are the two lists of
runes one after the other.

## Main definitions

* `Utf8.runes` — the split.
* `Utf8.valid` — every rune is valid.
* `Utf8.coerce` — every invalid rune replaced by U+FFFD.
* `Utf8.trimSpace` — white space removed from both ends.
-/

namespace OctetDB.Utf8

/-- One step of a byte string: an encoded rune, or a byte that starts none. -/
inductive Rune where
  | valid (enc : Bytes)
  | invalid (b : UInt8)
  deriving DecidableEq, Repr

/-- A continuation byte. -/
def cont (b : UInt8) : Bool := 0x80 ≤ b && b ≤ 0xBF

/-- Lead and second byte of a two-byte rune; `0xC0` and `0xC1` would be overlong. -/
def two (b₀ b₁ : UInt8) : Bool := 0xC2 ≤ b₀ && b₀ ≤ 0xDF && cont b₁

/-- Lead and second byte of a three-byte rune: neither overlong nor a surrogate. -/
def three (b₀ b₁ : UInt8) : Bool :=
  0xE0 ≤ b₀ && b₀ ≤ 0xEF && cont b₁ && (b₀ != 0xE0 || 0xA0 ≤ b₁) && (b₀ != 0xED || b₁ ≤ 0x9F)

/-- Lead and second byte of a four-byte rune: neither overlong nor above U+10FFFF. -/
def four (b₀ b₁ : UInt8) : Bool :=
  0xF0 ≤ b₀ && b₀ ≤ 0xF4 && cont b₁ && (b₀ != 0xF0 || 0x90 ≤ b₁) && (b₀ != 0xF4 || b₁ ≤ 0x8F)

/-- The width of the rune at the front, zero when no rune starts there. -/
def runeLength : Bytes → Nat
  | [] => 0
  | b₀ :: rest =>
    if b₀ < 0x80 then 1
    else match rest with
      | [] => 0
      | b₁ :: rest =>
        if two b₀ b₁ then 2
        else match rest with
          | [] => 0
          | b₂ :: rest =>
            if three b₀ b₁ && cont b₂ then 3
            else match rest with
              | [] => 0
              | b₃ :: _ => if four b₀ b₁ && cont b₂ && cont b₃ then 4 else 0

/-- The rune at the front and the bytes behind it. -/
def nextRune : Bytes → Option (Rune × Bytes)
  | [] => none
  | b :: bs =>
    if runeLength (b :: bs) = 0 then some (.invalid b, bs)
    else some (.valid ((b :: bs).take (runeLength (b :: bs))),
      (b :: bs).drop (runeLength (b :: bs)))

/-- The runes of the first `fuel` steps. -/
def runesUpTo : Nat → Bytes → List Rune
  | 0, _ => []
  | fuel + 1, s =>
    match nextRune s with
    | none => []
    | some (r, rest) => r :: runesUpTo fuel rest

/-- The runes of a byte string. Every step takes a byte, so its length is enough fuel. -/
def runes (s : Bytes) : List Rune := runesUpTo s.length s

def Rune.isValid : Rune → Bool
  | .valid _ => true
  | .invalid _ => false

def Rune.bytes : Rune → Bytes
  | .valid enc => enc
  | .invalid b => [b]

def replacement : Bytes := [0xEF, 0xBF, 0xBD]

/-- The rune as valid UTF-8, an invalid one replaced by U+FFFD. -/
def Rune.coerce : Rune → Bytes
  | .valid enc => enc
  | .invalid _ => replacement

def valid (s : Bytes) : Bool := (runes s).all Rune.isValid

/-- Every byte that is not part of valid UTF-8 replaced by U+FFFD. -/
def coerce (s : Bytes) : Bytes := (runes s).flatMap Rune.coerce

/-! ## The split is local -/

theorem runeLength_le (s : Bytes) : runeLength s ≤ s.length := by
  fun_cases runeLength s <;> simp

/-- Beyond ASCII a rune takes more than one byte. -/
theorem two_le_runeLength {b : UInt8} {bs : Bytes} (hb : ¬ b < 0x80)
    (h : runeLength (b :: bs) ≠ 0) : 2 ≤ runeLength (b :: bs) := by
  generalize hs : b :: bs = s at h ⊢
  revert h
  fun_cases runeLength s <;> intro h <;> grind

variable {s rest : Bytes} {r : Rune}

/-- A rune is recognized from its own bytes, whatever follows. -/
theorem runeLength_append (h : runeLength s ≠ 0) (t : Bytes) :
    runeLength (s.take (runeLength s) ++ t) = runeLength s := by
  revert h
  fun_cases runeLength s <;> intro h <;> simp_all [runeLength]

theorem nextRune_eq_some (h : nextRune s = some (r, rest)) :
    s = r.bytes ++ rest ∧ rest.length < s.length := by
  cases s with
  | nil => simp [nextRune] at h
  | cons b bs =>
    have bound := runeLength_le (b :: bs)
    simp only [nextRune] at h
    split at h
    · obtain ⟨rfl, rfl⟩ := Prod.mk.inj (Option.some.inj h)
      simp [Rune.bytes]
    · obtain ⟨rfl, rfl⟩ := Prod.mk.inj (Option.some.inj h)
      refine ⟨(List.take_append_drop _ _).symm, ?_⟩
      simp only [List.length_drop, List.length_cons] at bound ⊢
      omega

theorem runesUpTo_eq {fuel : Nat} (h : s.length ≤ fuel) :
    runesUpTo fuel s = runes s := by
  suffices ∀ n m (s : Bytes), s.length ≤ n → s.length ≤ m → runesUpTo n s = runesUpTo m s from
    this _ _ s h le_rfl
  intro n
  induction n with
  | zero =>
    intro m s hn _
    obtain rfl : s = [] := List.length_eq_zero_iff.mp (by omega)
    cases m <;> rfl
  | succ n ih =>
    intro m s hn hm
    cases m with
    | zero =>
      obtain rfl : s = [] := List.length_eq_zero_iff.mp (by omega)
      rfl
    | succ m =>
      simp only [runesUpTo]
      cases step : nextRune s with
      | none => rfl
      | some next =>
        obtain ⟨r, rest⟩ := next
        have shorter := (nextRune_eq_some step).2
        simp only [ih m rest (by omega) (by omega)]

@[simp] theorem runes_nil : runes [] = [] := rfl

theorem runes_of_nextRune (h : nextRune s = some (r, rest)) :
    runes s = r :: runes rest := by
  have shorter := (nextRune_eq_some h).2
  cases s with
  | nil => simp [nextRune] at h
  | cons b bs =>
    have unfolded : runes (b :: bs) = r :: runesUpTo bs.length rest := by
      simp only [runes, List.length_cons, runesUpTo, h]
    rw [unfolded, runesUpTo_eq (by simpa using Nat.le_of_lt_succ shorter)]

/-- Induction along the runes of a byte string. -/
theorem runeInduction {P : Bytes → Prop} (nil : P [])
    (cons : ∀ s r rest, nextRune s = some (r, rest) → P rest → P s) (s : Bytes) : P s := by
  induction hn : s.length using Nat.strong_induction_on generalizing s with
  | _ n ih =>
    cases step : nextRune s with
    | none =>
      cases s with
      | nil => exact nil
      | cons b bs => simp only [nextRune] at step; split at step <;> simp at step
    | some next =>
      obtain ⟨r, rest⟩ := next
      exact cons s r rest step (ih _ (hn ▸ (nextRune_eq_some step).2) rest rfl)

/-- A valid rune is read back from its encoding, whatever follows. -/
theorem nextRune_valid {enc : Bytes} (h : nextRune s = some (.valid enc, rest)) (t : Bytes) :
    nextRune (enc ++ t) = some (.valid enc, t) := by
  cases s with
  | nil => simp [nextRune] at h
  | cons b bs =>
    simp only [nextRune] at h
    split at h
    · simp at h
    · rename_i positive
      obtain ⟨rfl, rfl⟩ : (b :: bs).take (runeLength (b :: bs)) = enc ∧ _ = rest := by
        simpa only [Option.some.injEq, Prod.mk.injEq, Rune.valid.injEq] using h
      have width := runeLength_append positive t
      have bound := runeLength_le (b :: bs)
      generalize hn : runeLength (b :: bs) = n at *
      obtain ⟨n, rfl⟩ := Nat.exists_eq_succ_of_ne_zero positive
      have hlen : (bs.take n).length = n := by simp at bound ⊢; omega
      simp only [List.take_succ_cons, List.cons_append, nextRune] at width ⊢
      simp [width, hlen]

theorem valid_of_nextRune (h : nextRune s = some (r, rest)) :
    valid s = (r.isValid && valid rest) := by
  rw [valid, runes_of_nextRune h, List.all_cons, ← valid]

theorem nextRune_ascii {b : UInt8} (h : b < 0x80) (t : Bytes) :
    nextRune (b :: t) = some (.valid [b], t) := by
  simp [nextRune, runeLength, h]

/-! ## Validity and replacement -/

theorem flatMap_bytes_runes (s : Bytes) : (runes s).flatMap Rune.bytes = s := by
  induction s using runeInduction with
  | nil => rfl
  | cons s r rest step ih =>
    rw [runes_of_nextRune step, List.flatMap_cons, ih]
    exact (nextRune_eq_some step).1.symm

theorem nextRune_replacement (t : Bytes) :
    nextRune (replacement ++ t) = some (.valid replacement, t) := by
  have width : runeLength (replacement ++ t) = 3 := by
    simp [replacement, runeLength, two, three, cont]
  simp only [replacement, List.cons_append, List.nil_append] at width ⊢
  simp [nextRune, width]

@[simp] theorem valid_coerce (s : Bytes) : valid (coerce s) = true := by
  induction s using runeInduction with
  | nil => rfl
  | cons s r rest step ih =>
    have split : coerce s = r.coerce ++ coerce rest := by
      simp [coerce, runes_of_nextRune step]
    rw [split]
    cases r with
    | valid enc => rw [Rune.coerce, valid_of_nextRune (nextRune_valid step _), ih]; rfl
    | invalid b => rw [Rune.coerce, valid_of_nextRune (nextRune_replacement _), ih]; rfl

theorem coerce_of_valid (h : valid s = true) : coerce s = s := by
  have same : ∀ r ∈ runes s, r.coerce = r.bytes := by
    intro r hr
    have hv := List.all_eq_true.mp h r hr
    cases r <;> simp_all [Rune.isValid, Rune.coerce, Rune.bytes]
  rw [coerce, List.flatMap_congr same, flatMap_bytes_runes]

/-- Replacement changes a byte string exactly when it is not valid UTF-8. -/
theorem coerce_eq_iff (s : Bytes) : coerce s = s ↔ valid s = true :=
  ⟨fun h => h ▸ valid_coerce s, coerce_of_valid⟩

/-- ASCII bytes in front do not change validity. -/
theorem valid_ascii_append (h : ∀ b ∈ s, b < 0x80) (t : Bytes) :
    valid (s ++ t) = valid t := by
  induction s with
  | nil => rfl
  | cons b bs ih =>
    have hb := h b (by simp)
    have rest := ih fun x hx => h x (by simp [hx])
    rw [List.cons_append, valid_of_nextRune (nextRune_ascii hb _), rest]
    rfl

/-! ## White space -/

/-- Unicode white space, by its encoding. -/
def Rune.isSpace : Rune → Bool
  | .valid [b] => b == 0x20 || (0x09 ≤ b && b ≤ 0x0D)
  | .valid [0xC2, b] => b == 0x85 || b == 0xA0
  | .valid [0xE1, 0x9A, 0x80] => true
  | .valid [0xE2, 0x80, b] => (0x80 ≤ b && b ≤ 0x8A) || b == 0xA8 || b == 0xA9 || b == 0xAF
  | .valid [0xE2, 0x81, 0x9F] => true
  | .valid [0xE3, 0x80, 0x80] => true
  | _ => false

def trimSpace (s : Bytes) : Bytes :=
  ((((runes s).dropWhile Rune.isSpace).reverse.dropWhile Rune.isSpace).reverse).flatMap Rune.bytes

@[simp] theorem trimSpace_nil : trimSpace [] = [] := rfl

end OctetDB.Utf8
