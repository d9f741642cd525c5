import Mathlib

/-!
# Groups of six bits

Bytes are written with sixty-four symbols: three bytes make four symbols of six bits
each, and a shorter last group is filled with a padding symbol.  This file gives the
encoding over any alphabet, and how the position of a symbol and the value of a group
determine each other.  It decodes nothing.
-/

namespace Base64

open List

/-- A byte string. -/
abbrev Bytes : Type := List UInt8

/-- Sixty-four distinct symbols, and a padding that is none of them. -/
structure Alphabet where
  symbols : Bytes
  pad : UInt8
  length_eq : symbols.length = 64
  nodup : symbols.Nodup
  pad_fresh : pad ∉ symbols

namespace Alphabet

variable (A : Alphabet)

/-- The symbol for six bits. -/
def symbol (n : Nat) : UInt8 := A.symbols.getD (n % 64) A.pad

/-- The four symbols of twenty-four bits. -/
def group (v : Nat) : Bytes :=
  [A.symbol (v / 2 ^ 18), A.symbol (v / 2 ^ 12), A.symbol (v / 2 ^ 6), A.symbol v]

/-- The padded encoding. -/
def encode : Bytes → Bytes
  | [] => []
  | [a] => (A.group (a.toNat * 2 ^ 16)).take 2 ++ [A.pad, A.pad]
  | [a, b] => (A.group (a.toNat * 2 ^ 16 + b.toNat * 2 ^ 8)).take 3 ++ [A.pad]
  | a :: b :: c :: rest =>
    A.group (a.toNat * 2 ^ 16 + b.toNat * 2 ^ 8 + c.toNat) ++ encode rest

variable {A} {c : UInt8} {n : Nat}

theorem getElem?_symbol (n : Nat) : A.symbols[n % 64]? = some (A.symbol n) := by
  have hlt : n % 64 < A.symbols.length := by
    rw [A.length_eq]
    exact Nat.mod_lt _ (by decide)
  rw [symbol, getD_eq_getElem _ _ hlt, getElem?_eq_getElem hlt]

theorem symbol_congr {m n : Nat} (h : n % 64 = m % 64) : A.symbol n = A.symbol m := by
  rw [symbol, symbol, h]

theorem group_digits (n₀ : Nat) {n₁ n₂ n₃ : Nat} (h₁ : n₁ < 64) (h₂ : n₂ < 64) (h₃ : n₃ < 64) :
    A.group (((n₀ * 64 + n₁) * 64 + n₂) * 64 + n₃) =
      [A.symbol n₀, A.symbol n₁, A.symbol n₂, A.symbol n₃] := by
  have e₀ : A.symbol ((((n₀ * 64 + n₁) * 64 + n₂) * 64 + n₃) / 2 ^ 18) = A.symbol n₀ :=
    symbol_congr (by omega)
  have e₁ : A.symbol ((((n₀ * 64 + n₁) * 64 + n₂) * 64 + n₃) / 2 ^ 12) = A.symbol n₁ :=
    symbol_congr (by omega)
  have e₂ : A.symbol ((((n₀ * 64 + n₁) * 64 + n₂) * 64 + n₃) / 2 ^ 6) = A.symbol n₂ :=
    symbol_congr (by omega)
  have e₃ : A.symbol (((n₀ * 64 + n₁) * 64 + n₂) * 64 + n₃) = A.symbol n₃ :=
    symbol_congr (by omega)
  rw [group, e₀, e₁, e₂, e₃]

theorem exists_digits {v : Nat} (hv : v < 2 ^ 24) : ∃ n₀ < 64, ∃ n₁ < 64, ∃ n₂ < 64, ∃ n₃ < 64,
    v = ((n₀ * 64 + n₁) * 64 + n₂) * 64 + n₃ :=
  ⟨v / 2 ^ 18, by omega, v / 2 ^ 12 % 64, by omega, v / 2 ^ 6 % 64, by omega, v % 64, by omega,
    by omega⟩

theorem symbol_mem (n : Nat) : A.symbol n ∈ A.symbols :=
  mem_of_getElem? (getElem?_symbol n)

theorem symbol_ne_pad (n : Nat) : A.symbol n ≠ A.pad :=
  fun h => A.pad_fresh (h ▸ symbol_mem n)

theorem idxOf?_symbol (n : Nat) : A.symbols.idxOf? (A.symbol n) = some (n % 64) := by
  obtain ⟨hlt, hget⟩ := List.getElem?_eq_some_iff.mp (getElem?_symbol (A := A) n)
  refine idxOf?_eq_some_iff.mpr ⟨hlt, hget, ?_⟩
  intro j hj hsame
  have hindex := A.nodup.getElem_inj_iff.mp (hsame.trans hget.symm)
  omega

theorem symbol_of_idxOf? (h : A.symbols.idxOf? c = some n) : n < 64 ∧ A.symbol n = c := by
  obtain ⟨hlt, hget, -⟩ := idxOf?_eq_some_iff.mp h
  have h64 : n < 64 := A.length_eq ▸ hlt
  have hsymbol := getElem?_symbol (A := A) n
  rw [Nat.mod_eq_of_lt h64, getElem?_eq_getElem hlt, hget] at hsymbol
  exact ⟨h64, (Option.some.inj hsymbol).symm⟩

@[simp] theorem encode_length (b : Bytes) : (A.encode b).length = (b.length + 2) / 3 * 4 := by
  induction b using encode.induct with
  | case1 => rfl
  | case2 a | case3 a b => simp [encode, group]
  | case4 a b c rest ih =>
    simp only [encode, group, length_append, length_cons, length_nil, ih]
    omega

theorem encode_eq_nil {b : Bytes} : A.encode b = [] ↔ b = [] := by
  rw [← length_eq_zero_iff, ← length_eq_zero_iff, encode_length]
  omega

theorem encode_eq_append {b g rest : Bytes} (hg : g.length = 4) :
    A.encode b = g ++ rest ↔ ∃ out more, b = out ++ more ∧ A.encode out = g ∧
      A.encode more = rest ∧ (out.length = 3 ∨ rest = []) := by
  constructor
  · intro h
    match b with
    | [] =>
      rw [encode, eq_comm, append_eq_nil_iff] at h
      simp [h.1] at hg
    | [x] =>
      have happ : A.encode [x] ++ [] = g ++ rest := by rw [append_nil, h]
      obtain ⟨hfirst, hrest⟩ := append_inj happ (by simp [hg])
      exact ⟨[x], [], rfl, hfirst, hrest, .inr hrest.symm⟩
    | [x, y] =>
      have happ : A.encode [x, y] ++ [] = g ++ rest := by rw [append_nil, h]
      obtain ⟨hfirst, hrest⟩ := append_inj happ (by simp [hg])
      exact ⟨[x, y], [], rfl, hfirst, hrest, .inr hrest.symm⟩
    | x :: y :: z :: more =>
      have happ : A.encode [x, y, z] ++ A.encode more = g ++ rest := by
        rw [← h, encode, encode, encode, append_nil]
      obtain ⟨hfirst, hrest⟩ := append_inj happ (by simp [hg])
      exact ⟨[x, y, z], more, rfl, hfirst, hrest, .inl rfl⟩
  · rintro ⟨out, more, rfl, rfl, rfl, h⟩
    rcases h with h | h
    · match out, h with
      | [x, y, z], _ => simp [encode]
    · rw [h, encode_eq_nil.mp h, append_nil, append_nil]

end Alphabet

end Base64
