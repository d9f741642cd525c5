import IndagoRev.Workbench.Sha256

/-!
# Chunks do not matter

A block is transformed as the standard compresses it.  Between two calls the state of the
hasher is the chaining value of the whole blocks so far, its block begins with the bytes
behind them, and the count is that of all bytes; so the result is their digest.
-/

namespace Indago

open SecureHash List

theorem constants_getD : ∀ i < 64, constants.getD i 0 = roundConstant i := by
  set_option maxRecDepth 100000 in
  decide

theorem start_state : Sha256.start.state = initial := by
  set_option maxRecDepth 100000 in
  decide

theorem word_of_bytes (b₀ b₁ b₂ b₃ : UInt8) :
    (b₀.toUInt32 <<< 24) ||| (b₁.toUInt32 <<< 16) ||| (b₂.toUInt32 <<< 8) ||| b₃.toUInt32 =
      UInt32.ofNat (b₀.toNat * 2 ^ 24 + b₁.toNat * 2 ^ 16 + b₂.toNat * 2 ^ 8 + b₃.toNat) := by
  have h₀ := b₀.toNat_lt
  have h₁ := b₁.toNat_lt
  have h₂ := b₂.toNat_lt
  have h₃ := b₃.toNat_lt
  have hlow : b₂.toNat <<< 8 ||| b₃.toNat = b₂.toNat * 2 ^ 8 + b₃.toNat := by
    rw [← Nat.shiftLeft_add_eq_or_of_lt h₃, Nat.shiftLeft_eq]
  have hmid : b₁.toNat <<< 16 ||| (b₂.toNat * 2 ^ 8 + b₃.toNat) =
      b₁.toNat * 2 ^ 16 + (b₂.toNat * 2 ^ 8 + b₃.toNat) := by
    rw [← Nat.shiftLeft_add_eq_or_of_lt (by omega), Nat.shiftLeft_eq]
  have hhigh : b₀.toNat <<< 24 ||| (b₁.toNat * 2 ^ 16 + (b₂.toNat * 2 ^ 8 + b₃.toNat)) =
      b₀.toNat * 2 ^ 24 + (b₁.toNat * 2 ^ 16 + (b₂.toNat * 2 ^ 8 + b₃.toNat)) := by
    rw [← Nat.shiftLeft_add_eq_or_of_lt (by omega), Nat.shiftLeft_eq]
  have hshift : ∀ (b : UInt8) (n : UInt32), n.toNat < 32 → b.toNat <<< n.toNat < 2 ^ 32 →
      (b.toUInt32 <<< n).toNat = b.toNat <<< n.toNat := by
    intro b n hn hless
    rw [UInt32.toNat_shiftLeft, UInt8.toNat_toUInt32, Nat.mod_eq_of_lt hn, Nat.mod_eq_of_lt hless]
  apply UInt32.toNat_inj.mp
  rw [UInt32.toNat_or, UInt32.toNat_or, UInt32.toNat_or, UInt8.toNat_toUInt32,
    hshift b₀ 24 (by decide) (by show b₀.toNat <<< 24 < 2 ^ 32; rw [Nat.shiftLeft_eq]; omega),
    hshift b₁ 16 (by decide) (by show b₁.toNat <<< 16 < 2 ^ 32; rw [Nat.shiftLeft_eq]; omega),
    hshift b₂ 8 (by decide) (by show b₂.toNat <<< 8 < 2 ^ 32; rw [Nat.shiftLeft_eq]; omega),
    UInt32.toNat_ofNat_of_lt' (by show _ < 2 ^ 32; omega)]
  show b₀.toNat <<< 24 ||| b₁.toNat <<< 16 ||| b₂.toNat <<< 8 ||| b₃.toNat = _
  rw [Nat.or_assoc, Nat.or_assoc, hlow, hmid, hhigh]
  omega

theorem blockWord_eq (data : Bytes) (i : Nat) : blockWord data i = wordAt data i := by
  unfold blockWord wordAt
  rw [word_of_bytes, Nat.mul_comm i 4]

theorem getD_schedule (data : Bytes) {n i : Nat} (h : i < n) :
    ((List.range n).map (schedule data)).getD i 0 = schedule data i := by
  simp [getD_eq_getElem?_getD, h]

theorem extendWords_schedule (data : Bytes) (rounds n : Nat) (h : 16 ≤ n) :
    extendWords rounds ((List.range n).map (schedule data)) =
      (List.range (n + rounds)).map (schedule data) := by
  induction rounds generalizing n with
  | zero => rfl
  | succ rounds ih =>
    have hnext : schedule data n = schedule data (n - 16) +
        smallSigma0 (schedule data (n - 15)) + schedule data (n - 7) +
          smallSigma1 (schedule data (n - 2)) := by
      rw [schedule, if_neg (by omega)]
      ac_rfl
    have hpush : (List.range (n + 1)).map (schedule data) =
        (List.range n).map (schedule data) ++ [schedule data n] := by
      rw [range_succ, map_append, map_singleton]
    have hsame := ih (n + 1) (by omega)
    rw [hpush, hnext] at hsame
    unfold extendWords
    simp only [length_map, length_range, getD_schedule data (show n - 15 < n by omega),
      getD_schedule data (show n - 2 < n by omega), getD_schedule data (show n - 16 < n by omega),
      getD_schedule data (show n - 7 < n by omega)]
    have hcount : n + (rounds + 1) = n + 1 + rounds := by omega
    rw [hcount, ← hsame]
    rfl

theorem foldl_transformRound (start : Words) (data : Bytes) (n : Nat) (h : n ≤ 64) :
    (List.range n).foldl (transformRound ((List.range 64).map (schedule data))) start =
      working start data n := by
  induction n with
  | zero => rfl
  | succ n ih =>
    rw [range_succ (n := n), foldl_append, ih (by omega), foldl_cons, foldl_nil]
    unfold transformRound
    rw [getD_schedule data (by omega), constants_getD n (by omega)]
    rfl

theorem transform_eq (state : Words) (data : Bytes) : Sha256.transform state data = compress state data := by
  have hfirst : (List.range 16).map (blockWord data) = (List.range 16).map (schedule data) := by
    refine map_congr_left ?_
    intro i hi
    rw [blockWord_eq, schedule, if_pos (mem_range.mp hi)]
  unfold Sha256.transform
  dsimp only
  rw [hfirst, extendWords_schedule data 48 16 (Nat.le_refl _), foldl_transformRound state data 64 (Nat.le_refl _)]
  rfl

/-- The hasher has taken a message: the whole blocks of it are hashed, and the block
begins with the rest. -/
structure Sha256.Took (h : Sha256) (message : Bytes) : Prop where
  state : h.state = hashBlocks (message.length / 64) initial message
  buffered : h.buffered = message.length % 64
  block : h.block.take h.buffered = message.drop (64 * (message.length / 64))

variable {h : Sha256} {message data : Bytes}

theorem took_start : Sha256.start.Took [] := ⟨start_state, rfl, rfl⟩

theorem take_overwrite (data : Bytes) {block : Bytes} {at' : Nat} (hat : at' ≤ block.length) :
    (overwrite block at' data).take (at' + data.length) = block.take at' ++ data := by
  unfold overwrite
  have hlength : (block.take at' ++ data).length = at' + data.length := by
    rw [length_append, length_take, Nat.min_eq_left hat]
  rw [← hlength]
  exact take_left

theorem Sha256.take_full (hfull : h.buffered + h.count data = 64) :
    (h.take data).state = Sha256.transform h.state (overwrite h.block h.buffered (data.take (h.count data))) ∧
      (h.take data).buffered = 0 := by
  unfold Sha256.take
  rw [dif_pos hfull]
  exact ⟨rfl, rfl⟩

theorem Sha256.take_less (hless : h.buffered + h.count data ≠ 64) :
    (h.take data).state = h.state ∧ (h.take data).buffered = h.buffered + h.count data ∧
      (h.take data).block = overwrite h.block h.buffered (data.take (h.count data)) := by
  unfold Sha256.take
  rw [dif_neg hless]
  exact ⟨rfl, rfl, rfl⟩

@[simp] theorem Sha256.take_totalBytes : (h.take data).totalBytes = h.totalBytes := by
  by_cases hfull : h.buffered + h.count data = 64 <;> simp [Sha256.take, hfull]

theorem Sha256.Took.take (ht : h.Took message) :
    (h.take data).Took (message ++ data.take (h.count data)) := by
  have hroom := h.room
  have hcount : h.count data = min data.length (64 - h.buffered) := rfl
  have htaken : (data.take (h.count data)).length = h.count data := by
    rw [length_take]
    omega
  have hat : h.buffered ≤ h.block.length := by
    rw [h.size]
    omega
  have hblock := take_overwrite (data.take (h.count data)) hat
  rw [htaken, ht.block] at hblock
  have hbuffered := ht.buffered
  have hle : 64 * (message.length / 64) ≤ message.length := Nat.mul_div_le _ _
  have hdrop : (message ++ data.take (h.count data)).drop (64 * (message.length / 64)) =
      message.drop (64 * (message.length / 64)) ++ data.take (h.count data) :=
    drop_append_of_le_length hle
  by_cases hfull : h.buffered + h.count data = 64
  · obtain ⟨hstate, hempty⟩ := Sha256.take_full hfull
    have hlength : (message ++ data.take (h.count data)).length / 64 = message.length / 64 + 1 := by
      rw [length_append, htaken]
      omega
    have hwhole : overwrite h.block h.buffered (data.take (h.count data)) =
        message.drop (64 * (message.length / 64)) ++ data.take (h.count data) := by
      rw [← hblock, hfull]
      refine (take_of_length_le ?_).symm
      rw [overwrite_length (h.count_fits data), h.size]
    refine ⟨?_, ?_, ?_⟩
    · rw [hstate, transform_eq, hlength, hashBlocks_add, hashBlocks_append _ _ _ _ hle, ← ht.state,
        hdrop, ← hwhole, hashBlocks_one]
      rw [overwrite_length (h.count_fits data), h.size]
    · rw [hempty, length_append, htaken]
      omega
    · rw [hempty, hlength, take_zero, drop_of_length_le]
      rw [length_append, htaken]
      omega
  · obtain ⟨hstate, hmore, hkept⟩ := Sha256.take_less hfull
    have hlength : (message ++ data.take (h.count data)).length / 64 = message.length / 64 := by
      rw [length_append, htaken]
      omega
    refine ⟨?_, ?_, ?_⟩
    · rw [hstate, hlength, hashBlocks_append _ _ _ _ hle]
      exact ht.state
    · rw [hmore, length_append, htaken]
      omega
    · rw [hmore, hkept, hlength, hdrop]
      exact hblock

theorem Sha256.Took.absorb (data : Bytes) (ht : h.Took message) :
    (h.absorb data).Took (message ++ data) ∧ (h.absorb data).totalBytes = h.totalBytes := by
  induction h, data using Sha256.absorb.induct generalizing message with
  | case1 h =>
    rw [Sha256.absorb, dif_pos rfl, append_nil]
    exact ⟨ht, rfl⟩
  | case2 h data hne ih =>
    obtain ⟨htook, htotal⟩ := ih ht.take
    rw [Sha256.absorb, dif_neg hne]
    rw [append_assoc, take_append_drop] at htook
    exact ⟨htook, htotal.trans Sha256.take_totalBytes⟩

/-- The hasher has taken a message, and has counted its bytes. -/
structure Sha256.Holds (h : Sha256) (message : Bytes) : Prop extends h.Took message where
  total : h.totalBytes = UInt64.ofNat message.length

theorem Sha256.Holds.update (hh : h.Holds message) : (h.update data).Holds (message ++ data) := by
  have ht : Sha256.Took { h with totalBytes := h.totalBytes + UInt64.ofNat data.length } message :=
    ⟨hh.state, hh.buffered, hh.block⟩
  obtain ⟨htook, htotal⟩ := ht.absorb data
  refine ⟨htook, ?_⟩
  unfold Sha256.update
  rw [htotal, hh.total, length_append, UInt64.ofNat_add]

variable (chunks : List Bytes)

theorem Sha256.Holds.updates (hh : h.Holds message) :
    (chunks.foldl Sha256.update h).Holds (message ++ chunks.flatten) := by
  induction chunks generalizing h message with
  | nil =>
    rw [foldl_nil, flatten_nil, append_nil]
    exact hh
  | cons chunk rest ih =>
    rw [foldl_cons, flatten_cons, ← append_assoc]
    exact ih hh.update

theorem bytes_of_length {n : Nat} (hn : n < 2 ^ 64) :
    lengthBytes (UInt64.ofNat n) = bigEndian n 8 := by
  have hbyte : ∀ k, k < 64 → (UInt64.ofNat n >>> UInt64.ofNat k).toUInt8 = UInt8.ofNat (n / 2 ^ k) := by
    intro k hk
    apply UInt8.toNat_inj.mp
    rw [UInt64.toNat_toUInt8, UInt64.toNat_shiftRight, UInt64.toNat_ofNat_of_lt' hn,
      UInt64.toNat_ofNat_of_lt' (by show k < 2 ^ 64; omega), Nat.mod_eq_of_lt hk,
      Nat.shiftRight_eq_div_pow, UInt8.toNat_ofNat']
  have hrange : List.range 8 = [0, 1, 2, 3, 4, 5, 6, 7] := rfl
  unfold lengthBytes
  simp only [hrange, map_cons, map_nil, bigEndian]
  rw [hbyte _ (by decide), hbyte _ (by decide), hbyte _ (by decide), hbyte _ (by decide),
    hbyte _ (by decide), hbyte _ (by decide), hbyte _ (by decide), hbyte _ (by decide)]
  norm_num

theorem bytes_of_word (w : UInt32) :
    (List.range 4).map (fun j => (w >>> UInt32.ofNat (24 - j * 8)).toUInt8) = bigEndian w.toNat 4 := by
  have hbyte : ∀ k, k < 32 → (w >>> UInt32.ofNat k).toUInt8 = UInt8.ofNat (w.toNat / 2 ^ k) := by
    intro k hk
    apply UInt8.toNat_inj.mp
    rw [UInt32.toNat_toUInt8, UInt32.toNat_shiftRight,
      UInt32.toNat_ofNat_of_lt' (by show k < 2 ^ 32; omega), Nat.mod_eq_of_lt hk,
      Nat.shiftRight_eq_div_pow, UInt8.toNat_ofNat']
  have hrange : List.range 4 = [0, 1, 2, 3] := rfl
  simp only [hrange, map_cons, map_nil, bigEndian]
  rw [hbyte _ (by decide), hbyte _ (by decide), hbyte _ (by decide), hbyte _ (by decide)]
  norm_num

theorem overwrite_end {block : Bytes} {at' : Nat} (h : at' + data.length = block.length) :
    overwrite block at' data = block.take at' ++ data := by
  unfold overwrite
  rw [drop_of_length_le (by omega), append_nil]

/-- The last block: what it begins with, zeros, and the length. -/
theorem last_block {block bits : Bytes} {buffered : Nat} (hsize : block.length = 64)
    (hbuffered : buffered ≤ 56) (hbits : bits.length = 8) :
    overwrite (overwrite block buffered (List.replicate (56 - buffered) 0)) 56 bits =
      block.take buffered ++ List.replicate (56 - buffered) 0 ++ bits := by
  have hfits : buffered + (List.replicate (56 - buffered) (0 : UInt8)).length ≤ block.length := by
    rw [length_replicate]
    omega
  have hlength := overwrite_length hfits
  have htake := take_overwrite (List.replicate (56 - buffered) 0)
    (show buffered ≤ block.length by omega)
  rw [length_replicate, Nat.add_sub_cancel' hbuffered] at htake
  rw [overwrite_end (by omega), htake]

/-- A message with the byte behind it, zeros up to a whole block, and nothing else. -/
theorem padded_split (message : Bytes) (tail : Bytes) :
    (message ++ tail).drop (64 * (message.length / 64)) =
      message.drop (64 * (message.length / 64)) ++ tail :=
  drop_append_of_le_length (Nat.mul_div_le _ _)

theorem Sha256.Holds.finish (hh : h.Holds message) (hlength : message.length < 2 ^ 61) :
    h.finish = digest message := by
  have hroom := h.room
  have hsize := h.size
  have hbuffered := hh.buffered
  have hbits : lengthBytes (h.totalBytes * 8) = bigEndian (8 * message.length) 8 := by
    rw [hh.total, ← bytes_of_length (by omega)]
    congr 1
    rw [Nat.mul_comm, UInt64.ofNat_mul]
    rfl
  have hwords : ∀ s : Words, ([s.a, s.b, s.c, s.d, s.e, s.f, s.g, s.h].flatMap (fun w =>
      (List.range 4).map (fun j => (w >>> UInt32.ofNat (24 - j * 8)).toUInt8))) = s.bytes := by
    intro s
    unfold Words.bytes
    congr 1
    funext w
    exact bytes_of_word w
  have hmark := take_overwrite [0x80] (show h.buffered ≤ h.block.length by omega)
  rw [length_singleton, hh.block] at hmark
  have hmarked : (overwrite h.block h.buffered [0x80]).length = 64 :=
    (overwrite_length (by rw [length_singleton]; omega)).trans hsize
  have hpad : pad message = message ++ (0x80 :: List.replicate (zeros message.length) 0 ++
      bigEndian (8 * message.length) 8) := by
    unfold pad
    rw [append_assoc]
  have hpadded : (pad message).length = message.length + 1 + zeros message.length + 8 := by
    rw [hpad]
    simp only [length_append, length_cons, length_replicate, bigEndian_length]
    omega
  have hzeros : zeros message.length = (119 - message.length % 64) % 64 := rfl
  have hstate : hashBlocks (message.length / 64) initial (pad message) = h.state := by
    rw [hpad, hashBlocks_append _ _ _ _ (Nat.mul_div_le _ _), hh.state]
  have hrest : (pad message).drop (64 * (message.length / 64)) =
      message.drop (64 * (message.length / 64)) ++ (0x80 :: List.replicate (zeros message.length) 0 ++
        bigEndian (8 * message.length) 8) := by
    rw [hpad, padded_split]
  have hbehind : (message.drop (64 * (message.length / 64))).length = h.buffered := by
    rw [length_drop, hbuffered]
    omega
  unfold Sha256.finish digest
  dsimp only
  rw [hwords, hbits]
  congr 1
  by_cases htwo : 56 < h.buffered + 1
  · rw [if_pos htwo]
    dsimp only
    have hcount : (pad message).length / 64 = message.length / 64 + (1 + 1) := by omega
    have hfill : zeros message.length = (64 - (h.buffered + 1)) + 56 := by omega
    have hfits : h.buffered + 1 + (List.replicate (64 - (h.buffered + 1)) (0 : UInt8)).length =
        (overwrite h.block h.buffered [0x80]).length := by
      rw [length_replicate, hmarked]
      omega
    have hfirst := overwrite_end hfits
    rw [hmark] at hfirst
    have hwhole : (overwrite (overwrite h.block h.buffered [0x80]) (h.buffered + 1)
        (List.replicate (64 - (h.buffered + 1)) 0)).length = 64 :=
      (overwrite_length (Nat.le_of_eq hfits)).trans hmarked
    have hsplit : (pad message).drop (64 * (message.length / 64)) =
        overwrite (overwrite h.block h.buffered [0x80]) (h.buffered + 1)
          (List.replicate (64 - (h.buffered + 1)) 0) ++
            (List.replicate 56 0 ++ bigEndian (8 * message.length) 8) := by
      rw [hrest, hfill, hfirst, replicate_add]
      simp only [append_assoc, cons_append, nil_append]
    have hlast : (List.replicate 56 (0 : UInt8) ++ bigEndian (8 * message.length) 8).length = 64 := by
      rw [length_append, length_replicate, bigEndian_length]
    rw [hcount, hashBlocks_add, hstate, hsplit, hashBlocks_add, hashBlocks_append _ _ _ _ (by omega),
      hashBlocks_one _ hwhole, drop_left' (by rw [hwhole]), hashBlocks_one _ hlast, transform_eq,
      transform_eq, last_block hwhole (by omega) (bigEndian_length _ _), take_zero,
      nil_append]
  · rw [if_neg htwo]
    dsimp only
    have hcount : (pad message).length / 64 = message.length / 64 + 1 := by omega
    have hfill : zeros message.length = 56 - (h.buffered + 1) := by omega
    rw [hcount, hashBlocks_add, hstate, hrest, hfill, transform_eq,
      last_block hmarked (by omega) (bigEndian_length _ _), hmark, hashBlocks_one]
    · congr 1
      simp only [append_assoc, cons_append, nil_append]
    · simp only [length_append, length_cons, length_replicate, bigEndian_length, hbehind]
      omega

/-- Fed in any chunks, the hasher gives the digest of all bytes. -/
theorem sha256_chunks (h : chunks.flatten.length < 2 ^ 61) :
    (chunks.foldl Sha256.update Sha256.start).finish = digest chunks.flatten := by
  have hstart : Sha256.start.Holds [] := ⟨took_start, rfl⟩
  have hall := hstart.updates chunks
  rw [nil_append] at hall
  exact hall.finish h

theorem sha256_chunks_ab :
    ([[0x61], [], [0x62]].foldl Sha256.update Sha256.start).finish = digest [0x61, 0x62] :=
  sha256_chunks [[0x61], [], [0x62]] (by decide)

end Indago
