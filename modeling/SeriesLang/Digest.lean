/-! # Content digest

The 256-bit secure hash of a text (SHA-256), as lower-case hexadecimal digits of its bytes in UTF-8.
-/

namespace SeriesLang.Digest

/-- The round constants: the first 32 bits of the fractional parts of the cube roots of the first 64
    primes. -/
def roundConstants : List UInt32 :=
  [0x428a2f98, 0x71374491, 0xb5c0fbcf, 0xe9b5dba5, 0x3956c25b, 0x59f111f1, 0x923f82a4, 0xab1c5ed5,
   0xd807aa98, 0x12835b01, 0x243185be, 0x550c7dc3, 0x72be5d74, 0x80deb1fe, 0x9bdc06a7, 0xc19bf174,
   0xe49b69c1, 0xefbe4786, 0x0fc19dc6, 0x240ca1cc, 0x2de92c6f, 0x4a7484aa, 0x5cb0a9dc, 0x76f988da,
   0x983e5152, 0xa831c66d, 0xb00327c8, 0xbf597fc7, 0xc6e00bf3, 0xd5a79147, 0x06ca6351, 0x14292967,
   0x27b70a85, 0x2e1b2138, 0x4d2c6dfc, 0x53380d13, 0x650a7354, 0x766a0abb, 0x81c2c92e, 0x92722c85,
   0xa2bfe8a1, 0xa81a664b, 0xc24b8b70, 0xc76c51a3, 0xd192e819, 0xd6990624, 0xf40e3585, 0x106aa070,
   0x19a4c116, 0x1e376c08, 0x2748774c, 0x34b0bcb5, 0x391c0cb3, 0x4ed8aa4a, 0x5b9cca4f, 0x682e6ff3,
   0x748f82ee, 0x78a5636f, 0x84c87814, 0x8cc70208, 0x90befffa, 0xa4506ceb, 0xbef9a3f7, 0xc67178f2]

/-- The eight words of the chaining value. -/
structure State where
  a : UInt32
  b : UInt32
  c : UInt32
  d : UInt32
  e : UInt32
  f : UInt32
  g : UInt32
  h : UInt32

/-- The chaining value before the first block. -/
def State.start : State :=
  ⟨0x6a09e667, 0xbb67ae85, 0x3c6ef372, 0xa54ff53a, 0x510e527f, 0x9b05688c, 0x1f83d9ab, 0x5be0cd19⟩

/-- Rotate a word to the right. -/
def rotate (x : UInt32) (n : UInt32) : UInt32 :=
  (x >>> n) ||| (x <<< (32 - n))

/-- One round, with the sum of the round constant and the scheduled word. -/
def State.round (s : State) (kw : UInt32) : State :=
  let sum1 := rotate s.e 6 ^^^ rotate s.e 11 ^^^ rotate s.e 25
  let choice := (s.e &&& s.f) ^^^ (~~~s.e &&& s.g)
  let t1 := s.h + sum1 + choice + kw
  let sum0 := rotate s.a 2 ^^^ rotate s.a 13 ^^^ rotate s.a 22
  let majority := (s.a &&& s.b) ^^^ (s.a &&& s.c) ^^^ (s.b &&& s.c)
  ⟨t1 + sum0 + majority, s.a, s.b, s.c, s.d + t1, s.e, s.f, s.g⟩

/-- The word that follows the sixteen words of a window. -/
def scheduled (window : List UInt32) : UInt32 :=
  let small0 (x : UInt32) := rotate x 7 ^^^ rotate x 18 ^^^ (x >>> 3)
  let small1 (x : UInt32) := rotate x 17 ^^^ rotate x 19 ^^^ (x >>> 10)
  match window with
  | [w0, w1, _, _, _, _, _, _, _, w9, _, _, _, _, w14, _] => small1 w14 + w9 + small0 w1 + w0
  | _ => 0

/-- The rounds of one block: each takes the first word of the window and appends the next one. -/
def rounds : List UInt32 → List UInt32 → State → State
  | [], _, s => s
  | k :: ks, window, s =>
    rounds ks (window.drop 1 ++ [scheduled window]) (s.round (k + window.headD 0))

/-- The big-endian words of a run of bytes. -/
def words : List UInt8 → List UInt32
  | b0 :: b1 :: b2 :: b3 :: rest =>
    ((b0.toUInt32 <<< 24) ||| (b1.toUInt32 <<< 16) ||| (b2.toUInt32 <<< 8) ||| b3.toUInt32) ::
      words rest
  | _ => []

/-- Take one block of sixteen words into the chaining value. -/
def State.absorb (s : State) (block : List UInt32) : State :=
  let t := rounds roundConstants block s
  ⟨s.a + t.a, s.b + t.b, s.c + t.c, s.d + t.d, s.e + t.e, s.f + t.f, s.g + t.g, s.h + t.h⟩

/-- Take `count` blocks from the front of the words. -/
def absorbAll : Nat → List UInt32 → State → State
  | 0, _, s => s
  | count + 1, ws, s => absorbAll count (ws.drop 16) (s.absorb (ws.take 16))

/-- The message followed by a one bit, zeros and its length in bits, in whole blocks of 64 bytes. -/
def padded (message : List UInt8) : List UInt8 :=
  let size := message.length
  let zeros := (119 - size % 64) % 64
  let bits := size * 8
  message ++ 0x80 :: List.replicate zeros 0 ++
    [7, 6, 5, 4, 3, 2, 1, 0].map (fun i => (bits / Nat.pow 256 i).toUInt8)

/-- The eight hexadecimal digits of a word. -/
def hexOfWord (w : UInt32) : List Char :=
  ([28, 24, 20, 16, 12, 8, 4, 0] : List UInt32).map (fun shift => Nat.digitChar ((w >>> shift).toNat % 16))

/-- The digest of a run of bytes. -/
def ofBytes (message : List UInt8) : State :=
  let bytes := padded message
  absorbAll (bytes.length / 64) (words bytes) .start

/-- The digest of a text in hexadecimal. -/
def hex (text : String) : String :=
  let s := ofBytes text.toUTF8.toList
  String.ofList ([s.a, s.b, s.c, s.d, s.e, s.f, s.g, s.h].flatMap hexOfWord)

end SeriesLang.Digest
