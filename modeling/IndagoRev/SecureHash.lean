import Mathlib

/-!
# The SHA-256 digest

The digest of a byte string as the standard defines it: the message is padded to whole
blocks, and every block is compressed into the chaining value.  The message schedule and
the working variables are given by their recurrences, not by a loop over arrays.
-/

namespace SecureHash

open List

abbrev Bytes : Type := List UInt8

def rotr (x n : UInt32) : UInt32 := (x >>> n) ||| (x <<< (32 - n))

def ch (x y z : UInt32) : UInt32 := (x &&& y) ^^^ (~~~x &&& z)

def maj (x y z : UInt32) : UInt32 := (x &&& y) ^^^ (x &&& z) ^^^ (y &&& z)

variable (x : UInt32)

def bigSigma0 : UInt32 := rotr x 2 ^^^ rotr x 13 ^^^ rotr x 22

def bigSigma1 : UInt32 := rotr x 6 ^^^ rotr x 11 ^^^ rotr x 25

def smallSigma0 : UInt32 := rotr x 7 ^^^ rotr x 18 ^^^ (x >>> 3)

def smallSigma1 : UInt32 := rotr x 17 ^^^ rotr x 19 ^^^ (x >>> 10)

/-- The first sixty-four primes. -/
def primes : List Nat :=
  [2, 3, 5, 7, 11, 13, 17, 19, 23, 29, 31, 37, 41, 43, 47, 53, 59, 61, 67, 71, 73, 79, 83, 89, 97,
    101, 103, 107, 109, 113, 127, 131, 137, 139, 149, 151, 157, 163, 167, 173, 179, 181, 191, 193,
    197, 199, 211, 223, 227, 229, 233, 239, 241, 251, 257, 263, 269, 271, 277, 281, 283, 293, 307,
    311]

/-- The root of a number, rounded down, one binary digit after the other. -/
def rootDigits (k n : Nat) : Nat → Nat → Nat
  | 0, root => root
  | digit + 1, root =>
    let next := root + 2 ^ digit
    rootDigits k n digit (if next ^ k ≤ n then next else root)

/-- The first 32 bits of the fractional part of a root of a prime. -/
def fraction (k p : Nat) : UInt32 := UInt32.ofNat (rootDigits k (p * 2 ^ (32 * k)) 40 0)

/-- The constant of a round, from the cube root of its prime. -/
def roundConstant (t : Nat) : UInt32 := fraction 3 (primes.getD t 0)

/-- Eight words: a chaining value, or the working variables. -/
structure Words where
  a : UInt32
  b : UInt32
  c : UInt32
  d : UInt32
  e : UInt32
  f : UInt32
  g : UInt32
  h : UInt32
  deriving DecidableEq

/-- The first chaining value, from the square roots of the first primes. -/
def initial : Words :=
  ⟨fraction 2 2, fraction 2 3, fraction 2 5, fraction 2 7, fraction 2 11, fraction 2 13,
    fraction 2 17, fraction 2 19⟩

/-- A word of a block, highest byte first. -/
def wordAt (block : Bytes) (t : Nat) : UInt32 :=
  UInt32.ofNat ((block.getD (4 * t) 0).toNat * 2 ^ 24 + (block.getD (4 * t + 1) 0).toNat * 2 ^ 16 +
    (block.getD (4 * t + 2) 0).toNat * 2 ^ 8 + (block.getD (4 * t + 3) 0).toNat)

/-- The message schedule of a block. -/
def schedule (block : Bytes) (t : Nat) : UInt32 :=
  if t < 16 then wordAt block t
  else
    smallSigma1 (schedule block (t - 2)) + schedule block (t - 7) +
      smallSigma0 (schedule block (t - 15)) + schedule block (t - 16)
termination_by t

/-- One round. -/
def Words.round (s : Words) (k w : UInt32) : Words :=
  let t₁ := s.h + bigSigma1 s.e + ch s.e s.f s.g + k + w
  let t₂ := bigSigma0 s.a + maj s.a s.b s.c
  ⟨t₁ + t₂, s.a, s.b, s.c, s.d + t₁, s.e, s.f, s.g⟩

/-- The working variables before a round. -/
def working (start : Words) (block : Bytes) : Nat → Words
  | 0 => start
  | t + 1 => (working start block t).round (roundConstant t) (schedule block t)

def Words.add (s s' : Words) : Words :=
  ⟨s.a + s'.a, s.b + s'.b, s.c + s'.c, s.d + s'.d, s.e + s'.e, s.f + s'.f, s.g + s'.g, s.h + s'.h⟩

/-- The chaining value after a block. -/
def compress (start : Words) (block : Bytes) : Words := start.add (working start block 64)

/-- The chaining value after so many blocks. -/
def hashBlocks : Nat → Words → Bytes → Words
  | 0, start, _ => start
  | n + 1, start, bytes => hashBlocks n (compress start (bytes.take 64)) (bytes.drop 64)

/-- A number in so many bytes, highest first. -/
def bigEndian (n : Nat) : Nat → Bytes
  | 0 => []
  | width + 1 => UInt8.ofNat (n / 256 ^ width) :: bigEndian n width

/-- How many zero bytes fill a message up: the least number after which eight bytes are
missing from a whole block. -/
def zeros (length : Nat) : Nat := (119 - length % 64) % 64

variable (message : Bytes)

def pad : Bytes :=
  message ++ 0x80 :: List.replicate (zeros message.length) 0 ++ bigEndian (8 * message.length) 8

def Words.bytes (s : Words) : Bytes :=
  [s.a, s.b, s.c, s.d, s.e, s.f, s.g, s.h].flatMap (fun w => bigEndian w.toNat 4)

/-- The digest of a message. -/
def digest : Bytes :=
  (hashBlocks ((pad message).length / 64) initial (pad message)).bytes

@[simp] theorem bigEndian_length (n width : Nat) : (bigEndian n width).length = width := by
  induction width with
  | zero => rfl
  | succ width ih => rw [bigEndian, length_cons, ih]

theorem hashBlocks_add (m n : Nat) (start : Words) (bytes : Bytes) :
    hashBlocks (m + n) start bytes = hashBlocks n (hashBlocks m start bytes) (bytes.drop (64 * m)) := by
  induction m generalizing start bytes with
  | zero =>
    rw [Nat.zero_add, Nat.mul_zero, drop_zero]
    rfl
  | succ m ih =>
    have hcount : m + 1 + n = m + n + 1 := by omega
    have hdrop : bytes.drop (64 * (m + 1)) = (bytes.drop 64).drop (64 * m) := by
      rw [drop_drop]
      congr 1
      omega
    rw [hcount, hdrop]
    exact ih (compress start (bytes.take 64)) (bytes.drop 64)

theorem hashBlocks_append (n : Nat) (start : Words) (bytes more : Bytes)
    (h : 64 * n ≤ bytes.length) : hashBlocks n start (bytes ++ more) = hashBlocks n start bytes := by
  induction n generalizing start bytes with
  | zero => rfl
  | succ n ih =>
    have htake : (bytes ++ more).take 64 = bytes.take 64 := take_append_of_le_length (by omega)
    have hdrop : (bytes ++ more).drop 64 = bytes.drop 64 ++ more :=
      drop_append_of_le_length (by omega)
    rw [hashBlocks, hashBlocks, htake, hdrop]
    refine ih _ _ ?_
    rw [length_drop]
    omega

theorem hashBlocks_one (start : Words) {block : Bytes} (h : block.length = 64) :
    hashBlocks 1 start block = compress start block := by
  rw [hashBlocks, hashBlocks, take_of_length_le (by omega)]

end SecureHash
