import ObjectPack.Digest

/-!
# SHA-1

The digest of a byte string: the Secure Hash Algorithm with 160-bit results.  The message is
padded to whole blocks of sixteen big-endian words; every block is expanded to eighty words and
folded into a state of five words by eighty rounds.
-/

namespace ObjectPack.Digest

/-- The five words carried from block to block. -/
structure State where
  a : UInt32
  b : UInt32
  c : UInt32
  d : UInt32
  e : UInt32

namespace State

/-- The state before the first block. -/
def start : State := ⟨0x67452301, 0xefcdab89, 0x98badcfe, 0x10325476, 0xc3d2e1f0⟩

/-- Component-wise sum. -/
def add (s t : State) : State := ⟨s.a + t.a, s.b + t.b, s.c + t.c, s.d + t.d, s.e + t.e⟩

end State

/-- Rotation to the left by `n` bits, `0 < n < 32`. -/
def rotateLeft (x n : UInt32) : UInt32 := (x <<< n) ||| (x >>> (32 - n))

/-- The mixing function and the constant of round `t`. -/
def roundMix (t : Nat) (b c d : UInt32) : UInt32 × UInt32 :=
  if t < 20 then ((b &&& c) ||| (~~~ b &&& d), 0x5a827999)
  else if t < 40 then (b ^^^ c ^^^ d, 0x6ed9eba1)
  else if t < 60 then ((b &&& c) ||| (b &&& d) ||| (c &&& d), 0x8f1bbcdc)
  else (b ^^^ c ^^^ d, 0xca62c1d6)

/-- Round `t` with message word `w`. -/
def round (t : Nat) (s : State) (w : UInt32) : State :=
  let (mixed, constant) := roundMix t s.b s.c s.d
  ⟨rotateLeft s.a 5 + mixed + s.e + constant + w, s.a, rotateLeft s.b 30, s.c, s.d⟩

/-- The rounds from round `t` on, one for each word. -/
def rounds : Nat → State → List UInt32 → State
  | _, s, [] => s
  | t, s, w :: rest => rounds (t + 1) (round t s w) rest

/-- Extends a message schedule, latest word first, by `n` words: each is the rotated sum without
carry of the words 3, 8, 14 and 16 places back. -/
def extendSchedule : Nat → List UInt32 → List UInt32
  | 0, latest => latest
  | n + 1, latest =>
    let word := fun back => latest.getD (back - 1) 0
    extendSchedule n (rotateLeft (word 3 ^^^ word 8 ^^^ word 14 ^^^ word 16) 1 :: latest)

/-- Folds one block of sixteen words into the state. -/
def compress (s : State) (block : List UInt32) : State :=
  -- The schedule grows at its front, so it is reversed before and after.
  s.add (rounds 0 s (extendSchedule 64 block.reverse).reverse)

/-- Folds `n` blocks of sixteen words into the state. -/
def compressBlocks : Nat → State → List UInt32 → State
  | 0, s, _ => s
  | n + 1, s, words => compressBlocks n (compress s (words.take 16)) (words.drop 16)

/-- The big-endian words of a byte string of whole words. -/
def toWords : Bytes → List UInt32
  | a :: b :: c :: d :: rest => Endian.big.word32 [a, b, c, d] 0 :: toWords rest
  | _ => []

/-- The message followed by a one bit, zeros up to eight bytes short of a whole block, and the
length of the message in bits. -/
def pad (message : Bytes) : Bytes :=
  message ++ 0x80 :: (Bytes.zeros ((119 - message.length % 64) % 64)
    ++ Endian.big.encode 8 (8 * message.length))

/-- The SHA-1 digest of a byte string. -/
def compute (message : Bytes) : Digest :=
  let words := toWords (pad message)
  let s := compressBlocks (words.length / 16) .start words
  ofWords s.a s.b s.c s.d s.e

/-- The SHA-1 digest of the UTF-8 bytes of a text. -/
def ofText (text : String) : Digest := compute (Bytes.ofText text)

end ObjectPack.Digest
