import OctetDB.Lib.Utf8

/-!
# CRC-32, SHA-256 and hexadecimal text

Bit-serial CRC-32 with the reflected IEEE polynomial, SHA-256 on the 64-byte blocks of
the padded message, and lower-case hexadecimal text.
-/

namespace OctetDB

/-! ## CRC-32 -/

def crcBit (c : UInt32) : UInt32 :=
  if c &&& 1 = 1 then (c >>> 1) ^^^ 0xEDB88320 else c >>> 1

def crcByte (c : UInt32) (b : UInt8) : UInt32 :=
  Nat.iterate crcBit 8 (c ^^^ b.toUInt32)

def checksumIEEE (bs : Bytes) : UInt32 := bs.foldl crcByte 0xFFFFFFFF ^^^ 0xFFFFFFFF

/-! ## SHA-256 -/

namespace Sha256

/-- The eight working words. -/
structure State where
  a : UInt32
  b : UInt32
  c : UInt32
  d : UInt32
  e : UInt32
  f : UInt32
  g : UInt32
  h : UInt32

def State.add (s t : State) : State :=
  ⟨s.a + t.a, s.b + t.b, s.c + t.c, s.d + t.d, s.e + t.e, s.f + t.f, s.g + t.g, s.h + t.h⟩

def initial : State :=
  ⟨0x6a09e667, 0xbb67ae85, 0x3c6ef372, 0xa54ff53a, 0x510e527f, 0x9b05688c, 0x1f83d9ab,
    0x5be0cd19⟩

def constants : List UInt32 :=
  [0x428a2f98, 0x71374491, 0xb5c0fbcf, 0xe9b5dba5, 0x3956c25b, 0x59f111f1, 0x923f82a4,
   0xab1c5ed5, 0xd807aa98, 0x12835b01, 0x243185be, 0x550c7dc3, 0x72be5d74, 0x80deb1fe,
   0x9bdc06a7, 0xc19bf174, 0xe49b69c1, 0xefbe4786, 0x0fc19dc6, 0x240ca1cc, 0x2de92c6f,
   0x4a7484aa, 0x5cb0a9dc, 0x76f988da, 0x983e5152, 0xa831c66d, 0xb00327c8, 0xbf597fc7,
   0xc6e00bf3, 0xd5a79147, 0x06ca6351, 0x14292967, 0x27b70a85, 0x2e1b2138, 0x4d2c6dfc,
   0x53380d13, 0x650a7354, 0x766a0abb, 0x81c2c92e, 0x92722c85, 0xa2bfe8a1, 0xa81a664b,
   0xc24b8b70, 0xc76c51a3, 0xd192e819, 0xd6990624, 0xf40e3585, 0x106aa070, 0x19a4c116,
   0x1e376c08, 0x2748774c, 0x34b0bcb5, 0x391c0cb3, 0x4ed8aa4a, 0x5b9cca4f, 0x682e6ff3,
   0x748f82ee, 0x78a5636f, 0x84c87814, 0x8cc70208, 0x90befffa, 0xa4506ceb, 0xbef9a3f7,
   0xc67178f2]

def rotr (x : UInt32) (n : UInt32) : UInt32 := (x >>> n) ||| (x <<< (32 - n))

/-- The next word of the schedule from the sixteen before it. -/
def nextWord (w : List UInt32) : UInt32 :=
  let w1 := w.getD 1 0
  let w14 := w.getD 14 0
  let s0 := rotr w1 7 ^^^ rotr w1 18 ^^^ (w1 >>> 3)
  let s1 := rotr w14 17 ^^^ rotr w14 19 ^^^ (w14 >>> 10)
  w.getD 0 0 + s0 + w.getD 9 0 + s1

def round (s : State) (k w : UInt32) : State :=
  let s1 := rotr s.e 6 ^^^ rotr s.e 11 ^^^ rotr s.e 25
  let ch := (s.e &&& s.f) ^^^ (~~~s.e &&& s.g)
  let t1 := s.h + s1 + ch + k + w
  let s0 := rotr s.a 2 ^^^ rotr s.a 13 ^^^ rotr s.a 22
  let maj := (s.a &&& s.b) ^^^ (s.a &&& s.c) ^^^ (s.b &&& s.c)
  ⟨t1 + (s0 + maj), s.a, s.b, s.c, s.d + t1, s.e, s.f, s.g⟩

/-- The rounds of one block; `w` is the sliding window of the schedule. -/
def rounds : List UInt32 → List UInt32 → State → State
  | [], _, s => s
  | k :: ks, w, s => rounds ks (w.tail ++ [nextWord w]) (round s k (w.headD 0))

/-- A word, most significant byte first. -/
def wordBytes (v : UInt32) : Bytes := (leBytes 4 v.toNat).reverse

/-- The words of a block, most significant byte first. -/
def words : Nat → Bytes → List UInt32
  | 0, _ => []
  | n + 1, bs => UInt32.ofNat (leNat (bs.take 4).reverse) :: words n (bs.drop 4)

def blocks : Nat → Bytes → State → State
  | 0, _, s => s
  | n + 1, bs, s => blocks n (bs.drop 64) (s.add (rounds constants (words 16 bs) s))

def padding (n : Nat) : Bytes :=
  0x80 :: (List.replicate ((119 - n % 64) % 64) 0 ++ (leBytes 8 (n * 8)).reverse)

def State.bytes (s : State) : Bytes :=
  wordBytes s.a ++ wordBytes s.b ++ wordBytes s.c ++ wordBytes s.d ++ wordBytes s.e ++
    wordBytes s.f ++ wordBytes s.g ++ wordBytes s.h

end Sha256

def sha256 (bs : Bytes) : Bytes :=
  let padded := bs ++ Sha256.padding bs.length
  (Sha256.blocks (padded.length / 64) padded Sha256.initial).bytes

@[simp] theorem length_sha256 (bs : Bytes) : (sha256 bs).length = 32 := by
  simp [sha256, Sha256.State.bytes, Sha256.wordBytes]

/-! ## Hexadecimal text -/

def hexText (bs : Bytes) : Bytes :=
  bs.flatMap fun b =>
    [(ascii "0123456789abcdef").getD (b.toNat / 16) 0,
      (ascii "0123456789abcdef").getD (b.toNat % 16) 0]

theorem valid_hexText (bs : Bytes) : Utf8.valid (hexText bs) = true := by
  have digit (n : Nat) : (ascii "0123456789abcdef").getD n 0 < 0x80 := by
    rw [List.getD_eq_getElem?_getD]
    cases h : (ascii "0123456789abcdef")[n]? with
    | none => decide
    | some b =>
      have all : ∀ b ∈ ascii "0123456789abcdef", b < 0x80 := by decide +kernel
      exact all b (List.mem_of_getElem? h)
  have plain : ∀ b ∈ hexText bs, b < 0x80 := by
    intro b h
    obtain ⟨c, -, h⟩ := List.mem_flatMap.mp h
    simp only [List.mem_cons, List.not_mem_nil, or_false] at h
    rcases h with rfl | rfl <;> exact digit _
  have ascii := Utf8.valid_ascii_append plain []
  rwa [List.append_nil] at ascii

end OctetDB
