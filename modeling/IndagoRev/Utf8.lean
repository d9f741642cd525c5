import Mathlib

/-!
# Positions in encoded texts

A text is encoded as the bytes of its characters.  At some positions of the bytes a character
begins, and at the others stands a continuation byte.  A search backwards over continuation
bytes comes to a position of the first kind, and the bytes between two such positions are
those of a part of the text.
-/

namespace Utf8

open List

variable (t : List Char)

/-- The bytes of a text. -/
def bytes : List UInt8 := t.flatMap String.utf8EncodeChar

/-- A byte within a character. -/
def continuation (b : UInt8) : Bool := b &&& 0xc0 == 0x80

theorem bytes_cons (c : Char) (t : List Char) :
    bytes (c :: t) = String.utf8EncodeChar c ++ bytes t := rfl

/-- The characters before a position and those from it on, where one begins or the text ends. -/
def splitAt? : Nat → List Char → Option (List Char × List Char)
  | 0, t => some ([], t)
  | _ + 1, [] => none
  | n + 1, c :: t =>
    if c.utf8Size ≤ n + 1 then
      (splitAt? (n + 1 - c.utf8Size) t).map (fun (p, q) => (c :: p, q))
    else none

theorem splitAt?_iff {n : Nat} {t p q : List Char} :
    splitAt? n t = some (p, q) ↔ t = p ++ q ∧ (bytes p).length = n := by
  induction t generalizing n p q with
  | nil =>
    cases n with
    | zero =>
      constructor
      · intro h
        cases h
        exact ⟨rfl, rfl⟩
      · rintro ⟨h, -⟩
        obtain ⟨rfl, rfl⟩ := append_eq_nil_iff.mp h.symm
        rfl
    | succ n =>
      refine iff_of_false (fun h => by cases h) ?_
      rintro ⟨h, hlen⟩
      obtain ⟨rfl, rfl⟩ := append_eq_nil_iff.mp h.symm
      cases hlen
  | cons c t ih =>
    have hpos := c.utf8Size_pos
    cases n with
    | zero =>
      constructor
      · intro h
        cases h
        exact ⟨rfl, rfl⟩
      rintro ⟨h, hlen⟩
      cases p with
      | nil =>
        have hq : c :: t = q := h
        subst hq
        rfl
      | cons d p =>
        rw [bytes_cons, length_append, String.length_utf8EncodeChar] at hlen
        have := d.utf8Size_pos
        omega
    | succ n =>
      rw [splitAt?]
      by_cases hfits : c.utf8Size ≤ n + 1
      · rw [if_pos hfits]
        constructor
        · intro h
          obtain ⟨⟨p', q'⟩, hsplit, hpair⟩ := Option.map_eq_some_iff.mp h
          cases hpair
          obtain ⟨rfl, hlen⟩ := ih.mp hsplit
          refine ⟨rfl, ?_⟩
          rw [bytes_cons, length_append, String.length_utf8EncodeChar]
          omega
        · rintro ⟨h, hlen⟩
          cases p with
          | nil => cases hlen
          | cons d p =>
            injection h with hc ht
            subst hc
            rw [bytes_cons, length_append, String.length_utf8EncodeChar] at hlen
            rw [ih.mpr ⟨ht, show _ = n + 1 - c.utf8Size by omega⟩]
            rfl
      · rw [if_neg hfits]
        refine iff_of_false (fun h => by cases h) ?_
        rintro ⟨h, hlen⟩
        cases p with
        | nil => cases hlen
        | cons d p =>
          injection h with hc ht
          subst hc
          rw [bytes_cons, length_append, String.length_utf8EncodeChar] at hlen
          omega

/-- A character begins at a position, or the text ends there. -/
def Starts (n : Nat) : Prop := ∃ p q, t = p ++ q ∧ (bytes p).length = n

/-- Backwards over continuation bytes, as far as an offset. -/
def boundary (text : List UInt8) (offset : Nat) : Nat → Nat
  | 0 => 0
  | stop + 1 =>
    if offset < stop + 1 ∧ text[stop + 1]?.any continuation = true then boundary text offset stop
    else stop + 1

theorem boundary_le (text : List UInt8) (offset stop : Nat) : boundary text offset stop ≤ stop := by
  induction stop with
  | zero => exact Nat.le_refl 0
  | succ stop ih =>
    rw [boundary]
    split
    · exact Nat.le_succ_of_le ih
    · exact Nat.le_refl _

variable {offset stop : Nat}

/-- The text between two positions, where characters begin at both. -/
def slice (offset stop : Nat) : Option (List Char) :=
  (splitAt? offset t).bind (fun (_, q) => (splitAt? (stop - offset) q).map Prod.fst)

end Utf8
