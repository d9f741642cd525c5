import IndagoRev.SecureHash

/-!
# The hasher of files and texts

`Sha256` takes bytes in chunks.  Its block carries what does not fill 64 bytes yet, and the
number of bytes is counted on its own.  Whatever the chunks are, the result is the digest
of all bytes.
-/

namespace Indago

open SecureHash List

def constants : List UInt32 :=
  [0x428a2f98, 0x71374491, 0xb5c0fbcf, 0xe9b5dba5, 0x3956c25b, 0x59f111f1, 0x923f82a4, 0xab1c5ed5,
    0xd807aa98, 0x12835b01, 0x243185be, 0x550c7dc3, 0x72be5d74, 0x80deb1fe, 0x9bdc06a7, 0xc19bf174,
    0xe49b69c1, 0xefbe4786, 0x0fc19dc6, 0x240ca1cc, 0x2de92c6f, 0x4a7484aa, 0x5cb0a9dc, 0x76f988da,
    0x983e5152, 0xa831c66d, 0xb00327c8, 0xbf597fc7, 0xc6e00bf3, 0xd5a79147, 0x06ca6351, 0x14292967,
    0x27b70a85, 0x2e1b2138, 0x4d2c6dfc, 0x53380d13, 0x650a7354, 0x766a0abb, 0x81c2c92e, 0x92722c85,
    0xa2bfe8a1, 0xa81a664b, 0xc24b8b70, 0xc76c51a3, 0xd192e819, 0xd6990624, 0xf40e3585, 0x106aa070,
    0x19a4c116, 0x1e376c08, 0x2748774c, 0x34b0bcb5, 0x391c0cb3, 0x4ed8aa4a, 0x5b9cca4f, 0x682e6ff3,
    0x748f82ee, 0x78a5636f, 0x84c87814, 0x8cc70208, 0x90befffa, 0xa4506ceb, 0xbef9a3f7, 0xc67178f2]

def rotateRight (value count : UInt32) : UInt32 := (value >>> count) ||| (value <<< (32 - count))

/-- One of the first words of a block. -/
def blockWord (data : Bytes) (i : Nat) : UInt32 :=
  ((data.getD (i * 4) 0).toUInt32 <<< 24) ||| ((data.getD (i * 4 + 1) 0).toUInt32 <<< 16) |||
    ((data.getD (i * 4 + 2) 0).toUInt32 <<< 8) ||| (data.getD (i * 4 + 3) 0).toUInt32

/-- The loop that fills the array of words. -/
def extendWords : Nat → List UInt32 → List UInt32
  | 0, words => words
  | rounds + 1, words =>
    let i := words.length
    let s0 := rotateRight (words.getD (i - 15) 0) 7 ^^^ rotateRight (words.getD (i - 15) 0) 18 ^^^
      (words.getD (i - 15) 0 >>> 3)
    let s1 := rotateRight (words.getD (i - 2) 0) 17 ^^^ rotateRight (words.getD (i - 2) 0) 19 ^^^
      (words.getD (i - 2) 0 >>> 10)
    extendWords rounds (words ++ [words.getD (i - 16) 0 + s0 + words.getD (i - 7) 0 + s1])

/-- The body of the loop over the rounds. -/
def transformRound (words : List UInt32) (s : Words) (i : Nat) : Words :=
  let s1 := rotateRight s.e 6 ^^^ rotateRight s.e 11 ^^^ rotateRight s.e 25
  let choice := (s.e &&& s.f) ^^^ (~~~s.e &&& s.g)
  let temp1 := s.h + s1 + choice + constants.getD i 0 + words.getD i 0
  let s0 := rotateRight s.a 2 ^^^ rotateRight s.a 13 ^^^ rotateRight s.a 22
  let majority := (s.a &&& s.b) ^^^ (s.a &&& s.c) ^^^ (s.b &&& s.c)
  let temp2 := s0 + majority
  ⟨temp1 + temp2, s.a, s.b, s.c, s.d + temp1, s.e, s.f, s.g⟩

/-- `transform`. -/
def Sha256.transform (state : Words) (data : Bytes) : Words :=
  let words := extendWords 48 ((List.range 16).map (blockWord data))
  let s := (List.range 64).foldl (transformRound words) state
  ⟨state.a + s.a, state.b + s.b, state.c + s.c, state.d + s.d, state.e + s.e, state.f + s.f,
    state.g + s.g, state.h + s.h⟩

/-- `Sha256`. The block is never full between two calls. -/
structure Sha256 where
  state : Words
  block : Bytes
  buffered : Nat
  totalBytes : UInt64
  size : block.length = 64
  room : buffered < 64

def Sha256.start : Sha256 where
  state := ⟨0x6a09e667, 0xbb67ae85, 0x3c6ef372, 0xa54ff53a, 0x510e527f, 0x9b05688c, 0x1f83d9ab,
    0x5be0cd19⟩
  block := List.replicate 64 0
  buffered := 0
  totalBytes := 0
  size := length_replicate
  room := by decide

/-- A range of an array is overwritten. -/
def overwrite (block : Bytes) (at' : Nat) (data : Bytes) : Bytes :=
  block.take at' ++ data ++ block.drop (at' + data.length)

theorem overwrite_length {block : Bytes} {at' : Nat} {data : Bytes}
    (h : at' + data.length ≤ block.length) : (overwrite block at' data).length = block.length := by
  unfold overwrite
  rw [length_append, length_append, length_take, length_drop]
  omega

/-- How many bytes of a chunk the block takes. -/
def Sha256.count (h : Sha256) (data : Bytes) : Nat := min data.length (64 - h.buffered)

theorem Sha256.count_fits (h : Sha256) (data : Bytes) :
    h.buffered + (data.take (h.count data)).length ≤ h.block.length := by
  have hroom := h.room
  rw [h.size, length_take, count]
  omega

/-- One round of the loop of `update`. -/
def Sha256.take (h : Sha256) (data : Bytes) : Sha256 :=
  let block := overwrite h.block h.buffered (data.take (h.count data))
  if hfull : h.buffered + h.count data = 64 then
    { h with
      state := Sha256.transform h.state block
      block := block
      buffered := 0
      size := (overwrite_length (h.count_fits data)).trans h.size
      room := by decide }
  else
    { h with
      block := block
      buffered := h.buffered + h.count data
      size := (overwrite_length (h.count_fits data)).trans h.size
      room := by
        have hroom := h.room
        have hcount : h.count data = min data.length (64 - h.buffered) := rfl
        omega }

/-- The loop of `update`. -/
def Sha256.absorb (h : Sha256) (data : Bytes) : Sha256 :=
  if _hdata : data = [] then h
  else (h.take data).absorb (data.drop (h.count data))
termination_by data.length
decreasing_by
  have hroom := h.room
  have hlength := length_pos_of_ne_nil _hdata
  have hcount : h.count data = min data.length (64 - h.buffered) := rfl
  rw [length_drop]
  omega

def Sha256.update (h : Sha256) (data : Bytes) : Sha256 :=
  { h with totalBytes := h.totalBytes + UInt64.ofNat data.length }.absorb data

/-- The bytes of the bit length, from the last one of the block. -/
def lengthBytes (bitLength : UInt64) : Bytes :=
  (List.range 8).map (fun j => (bitLength >>> UInt64.ofNat ((7 - j) * 8)).toUInt8)

/-- `finish`. A block that has no room for the length is hashed before. -/
def Sha256.finish (h : Sha256) : Bytes :=
  let bitLength := h.totalBytes * 8
  let block := overwrite h.block h.buffered [0x80]
  let buffered := h.buffered + 1
  let (state, block, buffered) :=
    if 56 < buffered then
      let block := overwrite block buffered (List.replicate (64 - buffered) 0)
      (Sha256.transform h.state block, block, 0)
    else (h.state, block, buffered)
  let block := overwrite block buffered (List.replicate (56 - buffered) 0)
  let block := overwrite block 56 (lengthBytes bitLength)
  let state := Sha256.transform state block
  [state.a, state.b, state.c, state.d, state.e, state.f, state.g, state.h].flatMap (fun w =>
    (List.range 4).map (fun j => (w >>> UInt32.ofNat (24 - j * 8)).toUInt8))

end Indago
