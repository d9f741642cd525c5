import IndagoRev.Base64
import IndagoRev.Models.ModelResponse

/-!
# Base64 of artifact bytes

The base64 decoder of `transform` takes no whitespace, no missing padding and no stray bits.
Its groups are read back from what they are written to (`base64Group_ok`), so that every text
it accepts is the encoding of its answer (`base64Decode_canonical`).
-/

namespace Indago

open StdText JsonValues Transactions Base64 List

/-- The bytes of a `std::string` that came out of a JSON value. -/
def bytesOf (t : Text) : Bytes := t.map (fun c => UInt8.ofNat c.toNat)

variable (input : Bytes)

/-- The alphabet of `base64_decode`, with `=` for its padding. -/
def alphabet : Alphabet where
  symbols := bytesOf "ABCDEFGHIJKLMNOPQRSTUVWXYZabcdefghijklmnopqrstuvwxyz0123456789+/"
  pad := 61
  length_eq := by decide
  nodup := by decide
  pad_fresh := by decide

/-- What a group has so far: `acc`, which holds at most 24 bits, and the paddings seen. -/
structure Base64Group where
  acc : Nat
  padding : Nat
  deriving DecidableEq

/-- One symbol of a group at position `j`. -/
def base64Symbol (last : Bool) (group : Base64Group) (j : Nat) (c : UInt8) :
    Except String Base64Group :=
  if c = alphabet.pad then
    if !last || j < 2 then .error "invalid base64 padding"
    else .ok ⟨group.acc <<< 6, group.padding + 1⟩
  else
    match alphabet.symbols.idxOf? c with
    | some n =>
      if group.padding ≠ 0 then .error "invalid base64 symbol"
      else .ok ⟨group.acc <<< 6 ||| n, group.padding⟩
    | none => .error "invalid base64 symbol"

/-- The bytes of a finished group. -/
def base64Bytes (group : Base64Group) : Except String Bytes :=
  if 2 < group.padding ∨ (group.padding = 2 ∧ group.acc &&& 0xffff ≠ 0) ∨
      (group.padding = 1 ∧ group.acc &&& 0xff ≠ 0) then
    .error "noncanonical base64 padding bits"
  else .ok (UInt8.ofNat (group.acc >>> 16) ::
    ((if group.padding < 2 then [UInt8.ofNat (group.acc >>> 8)] else []) ++
      if group.padding = 0 then [UInt8.ofNat group.acc] else []))

/-- One group of four symbols, the last one or not. -/
def base64Group (last : Bool) (a b c d : UInt8) : Except String Bytes := do
  let group ← base64Symbol last ⟨0, 0⟩ 0 a
  let group ← base64Symbol last group 1 b
  let group ← base64Symbol last group 2 c
  let group ← base64Symbol last group 3 d
  base64Bytes group

/-- The loop over the groups of a text of whole groups. -/
def base64Groups : Bytes → Except String Bytes
  | a :: b :: c :: d :: rest => do
    let out ← base64Group rest.isEmpty a b c d
    let more ← base64Groups rest
    return out ++ more
  | _ => .ok []

def base64Decode : Except String Bytes :=
  if input.length % 4 ≠ 0 then .error "base64 requires canonical padded groups"
  else base64Groups input

section Groups

variable {last : Bool} {group group' : Base64Group} {j n v : Nat} {a b c d : UInt8}
  {out : Bytes}

theorem shiftLeft_or (acc : Nat) (hn : n < 64) : acc <<< 6 ||| n = acc * 64 + n := by
  rw [Nat.shiftLeft_eq, Nat.mul_comm, ← Nat.two_pow_add_eq_or_of_lt (i := 6) hn]

theorem base64Symbol_ok : base64Symbol last group j c = .ok group' ↔
    (c = alphabet.pad ∧ last = true ∧ 2 ≤ j ∧ group' = ⟨group.acc * 64, group.padding + 1⟩) ∨
      ∃ n < 64, c = alphabet.symbol n ∧ group.padding = 0 ∧ group' = ⟨group.acc * 64 + n, 0⟩ := by
  unfold base64Symbol
  by_cases hpad : c = alphabet.pad
  · have hnot : ∀ n, c ≠ alphabet.symbol n := fun n h => Alphabet.symbol_ne_pad n (h ▸ hpad)
    rw [if_pos hpad]
    by_cases hrefused : (!last || decide (j < 2)) = true
    · rw [if_pos hrefused]
      simp only [Bool.or_eq_true, Bool.not_eq_true', decide_eq_true_eq] at hrefused
      constructor
      · intro h
        cases h
      rintro (⟨-, hlast, hj, -⟩ | ⟨n, -, hc, -⟩)
      · rcases hrefused with h | h
        · simp [hlast] at h
        · omega
      · exact absurd hc (hnot n)
    · rw [if_neg hrefused]
      simp only [Bool.or_eq_true, Bool.not_eq_true', decide_eq_true_eq, not_or, Nat.not_lt,
        Bool.not_eq_false] at hrefused
      simp [hpad, hrefused, Nat.shiftLeft_eq, eq_comm, (Alphabet.symbol_ne_pad _).symm]
  · rw [if_neg hpad]
    cases hfind : alphabet.symbols.idxOf? c with
    | none =>
      constructor
      · intro h
        cases h
      rintro (⟨h, -⟩ | ⟨n, hn, rfl, -⟩)
      · exact absurd h hpad
      · rw [Alphabet.idxOf?_symbol] at hfind
        cases hfind
    | some m =>
      obtain ⟨hm, hsymbol⟩ := Alphabet.symbol_of_idxOf? hfind
      by_cases hzero : group.padding = 0
      · simp only [hzero, ne_eq, not_true_eq_false, if_false, Except.ok.injEq, hpad, false_and,
          false_or, true_and, shiftLeft_or _ hm]
        constructor
        · rintro rfl
          exact ⟨m, hm, hsymbol.symm, rfl⟩
        rintro ⟨n, hn, hc, rfl⟩
        rw [hc, Alphabet.idxOf?_symbol, Nat.mod_eq_of_lt hn] at hfind
        cases hfind
        rfl
      · simp [hzero, hpad]

/-- The value of a group is cut into bytes; the bits that fill it up are zero. -/
theorem base64Bytes_ok {acc padding : Nat} : base64Bytes ⟨acc, padding⟩ = .ok out ↔
    (padding = 0 ∧ out = [UInt8.ofNat (acc / 2 ^ 16), UInt8.ofNat (acc / 2 ^ 8), UInt8.ofNat acc]) ∨
      (padding = 1 ∧ acc % 2 ^ 8 = 0 ∧
        out = [UInt8.ofNat (acc / 2 ^ 16), UInt8.ofNat (acc / 2 ^ 8)]) ∨
      (padding = 2 ∧ acc % 2 ^ 16 = 0 ∧ out = [UInt8.ofNat (acc / 2 ^ 16)]) := by
  have hlow (n : Nat) : acc &&& (2 ^ n - 1) = acc % 2 ^ n :=
    Nat.and_two_pow_sub_one_eq_mod _ _
  simp only [base64Bytes, show (0xffff : Nat) = 2 ^ 16 - 1 from rfl,
    show (0xff : Nat) = 2 ^ 8 - 1 from rfl, hlow, Nat.shiftRight_eq_div_pow]
  match padding with
  | 0 => simp [eq_comm]
  | 1 =>
    generalize acc % 2 ^ 8 = low
    by_cases hbits : low = 0
    · subst hbits
      simp [eq_comm]
    · simp [hbits]
  | 2 =>
    generalize acc % 2 ^ 16 = low
    by_cases hbits : low = 0
    · subst hbits
      simp [eq_comm]
    · simp [hbits]
  | padding + 3 => simp

theorem ofNat_eq {x : UInt8} (h : n % 2 ^ 8 = x.toNat) : UInt8.ofNat n = x := by
  rw [← UInt8.toNat_inj, UInt8.toNat_ofNat', h]

/-- The four symbols of a group: two at least are of the alphabet. -/
theorem base64Group_ok : base64Group last a b c d = .ok out ↔
    ∃ n₀ < 64, ∃ n₁ < 64, a = alphabet.symbol n₀ ∧ b = alphabet.symbol n₁ ∧
      ((∃ n₂ < 64, ∃ n₃ < 64, c = alphabet.symbol n₂ ∧ d = alphabet.symbol n₃ ∧
          base64Bytes ⟨((n₀ * 64 + n₁) * 64 + n₂) * 64 + n₃, 0⟩ = .ok out) ∨
        (last = true ∧ d = alphabet.pad ∧ ∃ n₂ < 64, c = alphabet.symbol n₂ ∧
          base64Bytes ⟨((n₀ * 64 + n₁) * 64 + n₂) * 64, 1⟩ = .ok out) ∨
        (last = true ∧ c = alphabet.pad ∧ d = alphabet.pad ∧
          base64Bytes ⟨(n₀ * 64 + n₁) * 64 * 64, 2⟩ = .ok out)) := by
  simp only [base64Group, except_bind_ok, base64Symbol_ok]
  constructor
  · rintro ⟨_, ⟨-, -, hj, -⟩ | ⟨n₀, h₀, rfl, -, rfl⟩, _, ⟨-, -, hj, -⟩ | ⟨n₁, h₁, rfl, -, rfl⟩,
      _, hc, _, hd, hout⟩
    · omega
    · omega
    · omega
    refine ⟨n₀, h₀, n₁, h₁, rfl, rfl, ?_⟩
    rcases hc with ⟨hc, hlast, -, rfl⟩ | ⟨n₂, h₂, hc, -, rfl⟩ <;>
      rcases hd with ⟨hd, hlast, -, rfl⟩ | ⟨n₃, h₃, hd, hzero, rfl⟩
    · exact .inr (.inr ⟨hlast, hc, hd, by simpa using hout⟩)
    · cases hzero
    · exact .inr (.inl ⟨hlast, hd, n₂, h₂, hc, by simpa using hout⟩)
    · exact .inl ⟨n₂, h₂, n₃, h₃, hc, hd, by simpa using hout⟩
  · rintro ⟨n₀, h₀, n₁, h₁, rfl, rfl, hrest⟩
    refine ⟨_, .inr ⟨n₀, h₀, rfl, trivial, rfl⟩, _, .inr ⟨n₁, h₁, rfl, rfl, rfl⟩, ?_⟩
    rcases hrest with ⟨n₂, h₂, n₃, h₃, rfl, rfl, hout⟩ | ⟨hlast, rfl, n₂, h₂, rfl, hout⟩ |
      ⟨hlast, rfl, rfl, hout⟩
    · exact ⟨_, .inr ⟨n₂, h₂, rfl, rfl, rfl⟩, _, .inr ⟨n₃, h₃, rfl, rfl, rfl⟩, by simpa using hout⟩
    · exact ⟨_, .inr ⟨n₂, h₂, rfl, rfl, rfl⟩, _, .inl ⟨rfl, hlast, by decide, rfl⟩,
        by simpa using hout⟩
    · exact ⟨_, .inl ⟨rfl, hlast, by decide, rfl⟩, _, .inl ⟨rfl, hlast, by decide, rfl⟩,
        by simpa using hout⟩

/-- An accepted group is the encoding of its bytes, and only the last group stands for
fewer than three. -/
theorem encode_of_base64Group (h : base64Group last a b c d = .ok out) :
    alphabet.encode out = [a, b, c, d] ∧ (out.length = 3 ∨ last = true) := by
  obtain ⟨n₀, h₀, n₁, h₁, rfl, rfl, hrest⟩ := base64Group_ok.mp h
  rcases hrest with ⟨n₂, h₂, n₃, h₃, rfl, rfl, hout⟩ | ⟨hlast, rfl, n₂, h₂, rfl, hout⟩ |
    ⟨hlast, rfl, rfl, hout⟩
  · rcases base64Bytes_ok.mp hout with ⟨-, rfl⟩ | ⟨h, -⟩ | ⟨h, -⟩
    · refine ⟨?_, .inl rfl⟩
      rw [Alphabet.encode, ← alphabet.group_digits n₀ h₁ h₂ h₃]
      simp only [UInt8.toNat_ofNat', Alphabet.encode, append_nil]
      congr 1
      omega
    · cases h
    · cases h
  · rcases base64Bytes_ok.mp hout with ⟨h, -⟩ | ⟨-, hbits, rfl⟩ | ⟨h, -⟩
    · cases h
    · refine ⟨?_, .inr hlast⟩
      have hvalue : (((n₀ * 64 + n₁) * 64 + n₂) * 64 / 2 ^ 16 % 2 ^ 8) * 2 ^ 16 +
          (((n₀ * 64 + n₁) * 64 + n₂) * 64 / 2 ^ 8 % 2 ^ 8) * 2 ^ 8 =
          ((n₀ * 64 + n₁) * 64 + n₂) * 64 + 0 := by omega
      simp only [Alphabet.encode, UInt8.toNat_ofNat', hvalue,
        alphabet.group_digits n₀ h₁ h₂ (by decide : 0 < 64)]
      rfl
    · cases h
  · rcases base64Bytes_ok.mp hout with ⟨h, -⟩ | ⟨h, -⟩ | ⟨-, hbits, rfl⟩
    · cases h
    · cases h
    refine ⟨?_, .inr hlast⟩
    have hvalue : ((n₀ * 64 + n₁) * 64 * 64 / 2 ^ 16 % 2 ^ 8) * 2 ^ 16 =
        ((n₀ * 64 + n₁) * 64 + 0) * 64 + 0 := by omega
    simp only [Alphabet.encode, UInt8.toNat_ofNat', hvalue,
      alphabet.group_digits n₀ h₁ (by decide : 0 < 64) (by decide : 0 < 64)]
    rfl

theorem base64Group_of_encode (hencode : alphabet.encode out = [a, b, c, d])
    (hlength : out.length = 3 ∨ last = true) : base64Group last a b c d = .ok out := by
  rw [base64Group_ok]
  match out with
  | [] => simp [Alphabet.encode] at hencode
  | [x] =>
    have hx := x.toNat_lt
    obtain ⟨n₀, h₀, n₁, h₁, n₂, h₂, n₃, h₃, hv⟩ :=
      Alphabet.exists_digits (v := x.toNat * 2 ^ 16) (by omega)
    rw [Alphabet.encode, hv, alphabet.group_digits n₀ h₁ h₂ h₃] at hencode
    simp only [List.take, cons_append, nil_append, List.cons.injEq,
      and_true] at hencode
    obtain ⟨rfl, rfl, rfl, rfl⟩ := hencode
    refine ⟨n₀, h₀, n₁, h₁, rfl, rfl, .inr (.inr ⟨by simpa using hlength, rfl, rfl,
      base64Bytes_ok.mpr (.inr (.inr ⟨rfl, by omega, ?_⟩))⟩)⟩
    rw [ofNat_eq (x := x) (by omega)]
  | [x, y] =>
    have hx := x.toNat_lt
    have hy := y.toNat_lt
    obtain ⟨n₀, h₀, n₁, h₁, n₂, h₂, n₃, h₃, hv⟩ :=
      Alphabet.exists_digits (v := x.toNat * 2 ^ 16 + y.toNat * 2 ^ 8) (by omega)
    rw [Alphabet.encode, hv, alphabet.group_digits n₀ h₁ h₂ h₃] at hencode
    simp only [List.take, cons_append, nil_append, List.cons.injEq,
      and_true] at hencode
    obtain ⟨rfl, rfl, rfl, rfl⟩ := hencode
    refine ⟨n₀, h₀, n₁, h₁, rfl, rfl, .inr (.inl ⟨by simpa using hlength, rfl, n₂, h₂, rfl,
      base64Bytes_ok.mpr (.inr (.inl ⟨rfl, by omega, ?_⟩))⟩)⟩
    rw [ofNat_eq (x := x) (by omega), ofNat_eq (x := y) (by omega)]
  | [x, y, z] =>
    have hx := x.toNat_lt
    have hy := y.toNat_lt
    have hz := z.toNat_lt
    obtain ⟨n₀, h₀, n₁, h₁, n₂, h₂, n₃, h₃, hv⟩ :=
      Alphabet.exists_digits (v := x.toNat * 2 ^ 16 + y.toNat * 2 ^ 8 + z.toNat) (by omega)
    rw [Alphabet.encode, hv, alphabet.group_digits n₀ h₁ h₂ h₃] at hencode
    simp only [Alphabet.encode, append_nil, List.cons.injEq, and_true] at hencode
    obtain ⟨rfl, rfl, rfl, rfl⟩ := hencode
    refine ⟨n₀, h₀, n₁, h₁, rfl, rfl, .inl ⟨n₂, h₂, n₃, h₃, rfl, rfl,
      base64Bytes_ok.mpr (.inl ⟨rfl, ?_⟩)⟩⟩
    rw [ofNat_eq (x := x) (by omega), ofNat_eq (x := y) (by omega),
      ofNat_eq (x := z) (by omega)]
  | x :: y :: z :: w :: rest =>
    have hlong := congrArg List.length hencode
    simp only [Alphabet.encode_length, length_cons, length_nil] at hlong
    omega

end Groups

theorem base64Groups_ok {t b : Bytes} (ht : t.length % 4 = 0) :
    base64Groups t = .ok b ↔ alphabet.encode b = t := by
  induction t using base64Groups.induct generalizing b with
  | case1 s₀ s₁ s₂ s₃ rest ih =>
    have hrest : rest.length % 4 = 0 := by
      simp only [length_cons] at ht
      omega
    have hsplit : alphabet.encode b = s₀ :: s₁ :: s₂ :: s₃ :: rest ↔ _ :=
      Alphabet.encode_eq_append (g := [s₀, s₁, s₂, s₃]) rfl
    rw [base64Groups, hsplit]
    simp only [except_bind_ok, ih hrest, pure, Except.pure, Except.ok.injEq]
    constructor
    · rintro ⟨out, hout, more, hmore, rfl⟩
      obtain ⟨hgroup, hlength⟩ := encode_of_base64Group hout
      exact ⟨out, more, rfl, hgroup, hmore, by simpa using hlength⟩
    · rintro ⟨out, more, rfl, hgroup, hmore, hlength⟩
      exact ⟨out, base64Group_of_encode hgroup (by simpa using hlength), more, hmore, rfl⟩
  | case2 t hshort =>
    match t with
    | [] => rw [show base64Groups [] = .ok [] from rfl, Alphabet.encode_eq_nil,
        Except.ok.injEq, eq_comm]
    | [_] | [_, _] | [_, _, _] => simp at ht
    | s₀ :: s₁ :: s₂ :: s₃ :: rest => exact absurd rfl (hshort s₀ s₁ s₂ s₃ rest)

/-- A text is accepted exactly when it is the padded encoding of the answer. -/
theorem base64Decode_canonical (t b : Bytes) : base64Decode t = .ok b ↔ alphabet.encode b = t := by
  unfold base64Decode
  by_cases ht : t.length % 4 = 0
  · rw [if_neg (by simpa using ht), base64Groups_ok ht]
  rw [if_pos ht]
  constructor
  · intro h
    cases h
  · rintro rfl
    simp at ht

example : base64Decode (bytesOf "QUI=") = .ok (bytesOf "AB") := by decide

-- The low bits of `J` are not zero.
example : base64Decode (bytesOf "QUJ=") = .error "noncanonical base64 padding bits" := by
  decide

end Indago
