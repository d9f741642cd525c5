import IndagoRev.Text

/-!
# Reading numbers back

The values of printed numbers: decimal ones and hexadecimal ones, with the
padding that joins two machine words.
-/

namespace StdText

open List

/-- The value of a hexadecimal digit. -/
def hexDigit (c : Char) : Nat :=
  if c.isDigit then c.toNat - '0'.toNat else c.toNat - 'a'.toNat + 10

variable (t : Text)

/-- The number that hexadecimal digits stand for. -/
def ofHex : Nat := t.foldl (fun n c => 16 * n + hexDigit c) 0

/-- The number that decimal digits stand for. -/
def ofDecimal : Nat := Nat.ofDigitChars 10 t 0

variable (n : Nat)

@[simp] theorem ofDecimal_decimal : ofDecimal (decimal n) = n :=
  Nat.ofDigitChars_ten_toDigits

theorem isDigit_of_mem_decimal {n : Nat} {c : Char} (h : c ∈ decimal n) : c.isDigit = true :=
  Nat.isDigit_of_mem_toDigits (by omega) (by omega) h

@[simp] theorem filter_isDigit_decimal : (decimal n).filter Char.isDigit = decimal n :=
  filter_eq_self.mpr fun _ h => isDigit_of_mem_decimal h

theorem decimal_ne_nil : decimal n ≠ [] := Nat.toDigits_ne_nil

theorem append_separated {α : Type} {c : α} {s s' t t' : List α} (ht : c ∉ t) (ht' : c ∉ t')
    (h : s ++ c :: t = s' ++ c :: t') : s = s' ∧ t = t' := by
  rcases append_eq_append_iff.mp h with ⟨more, hs', hrest⟩ | ⟨more, hs, hrest⟩
  · cases more with
    | nil =>
      simp only [nil_append, List.cons.injEq, true_and] at hrest
      exact ⟨by simpa using hs'.symm, hrest⟩
    | cons d more =>
      simp only [cons_append, List.cons.injEq] at hrest
      exact absurd (hrest.2 ▸ by simp) ht
  · cases more with
    | nil =>
      simp only [nil_append, List.cons.injEq, true_and] at hrest
      exact ⟨by simpa using hs, hrest.symm⟩
    | cons d more =>
      simp only [cons_append, List.cons.injEq] at hrest
      exact absurd (hrest.2 ▸ by simp) ht'

theorem separator_not_mem_decimal : ':' ∉ decimal n := by
  intro hmem
  have hdigit := isDigit_of_mem_decimal hmem
  exact absurd hdigit (by decide)

theorem foldl_hexDigit :
    t.foldl (fun n c => 16 * n + hexDigit c) n = 16 ^ t.length * n + ofHex t := by
  unfold ofHex
  induction t generalizing n with
  | nil => simp
  | cons c t ih =>
    rw [foldl_cons, foldl_cons, ih, ih (16 * 0 + hexDigit c), length_cons,
      Nat.pow_succ, Nat.mul_add, Nat.mul_zero, Nat.zero_add, Nat.mul_assoc, Nat.add_assoc]

theorem ofHex_append (s t : Text) : ofHex (s ++ t) = 16 ^ t.length * ofHex s + ofHex t := by
  rw [ofHex, foldl_append, foldl_hexDigit]
  rfl

theorem ofHex_zeros : ofHex (List.replicate n '0' ++ t) = ofHex t := by
  have hzero : ofHex (List.replicate n '0') = 0 := by
    induction n with
    | zero => rfl
    | succ n ih =>
      have hsplit : List.replicate (n + 1) '0' = ['0'] ++ List.replicate n '0' := rfl
      have hone : ofHex ['0'] = 0 := by decide
      rw [hsplit, ofHex_append, ih, hone]
      simp
  rw [ofHex_append, hzero]
  simp

theorem hexDigit_digitChar {n : Nat} (h : n < 16) : hexDigit n.digitChar = n := by
  have hall : ∀ k : Fin 16, hexDigit k.val.digitChar = k.val := by decide
  exact hall ⟨n, h⟩

@[simp] theorem ofHex_hexDigits : ofHex (hexDigits n) = n := by
  induction n using Nat.strongRecOn with
  | ind n ih =>
    by_cases hsmall : n < 16
    · rw [hexDigits, Nat.toDigits_of_lt_base hsmall]
      simp [ofHex, hexDigit_digitChar hsmall]
    have hrest := ih (n / 16) (by omega)
    have hlast : ofHex [(n % 16).digitChar] = n % 16 := by
      simp [ofHex, hexDigit_digitChar (Nat.mod_lt n (by omega : 0 < 16))]
    unfold hexDigits at hrest ⊢
    rw [Nat.toDigits_of_base_le (by omega) (Nat.le_of_not_lt hsmall), ofHex_append, hrest]
    have hchar : Nat.toDigits 16 (n % 16) = [(n % 16).digitChar] :=
      Nat.toDigits_of_lt_base (Nat.mod_lt n (by omega))
    simp only [length_singleton, Nat.pow_one, hlast]
    omega

theorem mem_hexDigits {n : Nat} {c : Char} (h : c ∈ hexDigits n) :
    c ∈ "0123456789abcdef".toList := by
  have hdigit : ∀ k : Fin 16, k.val.digitChar ∈ "0123456789abcdef".toList := by decide
  induction n using Nat.strongRecOn with
  | ind n ih =>
    by_cases hsmall : n < 16
    · rw [hexDigits, Nat.toDigits_of_lt_base hsmall, mem_singleton] at h
      rw [h]
      exact hdigit ⟨n, hsmall⟩
    · unfold hexDigits at h
      rw [Nat.toDigits_of_base_le (by omega) (Nat.le_of_not_lt hsmall)] at h
      rcases mem_append.mp h with hrest | hlast
      · exact ih (n / 16) (by omega) hrest
      · rw [mem_singleton.mp hlast]
        exact hdigit ⟨n % 16, Nat.mod_lt n (by omega)⟩

theorem ofHex_pair (high : Nat) {low : Nat} (hlow : low < 2 ^ 64) :
    ofHex (hexDigits high ++ List.replicate (16 - (hexDigits low).length) '0' ++ hexDigits low) =
      high * 2 ^ 64 + low := by
  have hlength : (hexDigits low).length ≤ 16 := by
    rw [hexDigits, Nat.length_toDigits_le_iff (by omega) (by omega)]
    omega
  have hpadded : (List.replicate (16 - (hexDigits low).length) '0' ++ hexDigits low).length =
      16 := by
    rw [length_append, length_replicate]
    omega
  rw [append_assoc, ofHex_append, hpadded, ofHex_zeros, ofHex_hexDigits, ofHex_hexDigits]
  omega

end StdText
