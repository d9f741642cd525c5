import Mathlib

/-!
# Byte strings

The part of `std::string` that the presentation code relies on, over lists of
characters: searching, cutting, replacing, and printing numbers.  Nothing here
knows what the strings are about.
-/

namespace StdText

/-- A `std::string`, one character per byte. -/
abbrev Text := List Char

/-- A literal stands for its characters. -/
instance : Coe String Text := ⟨String.toList⟩

instance : LawfulBEq Text := List.instLawfulBEq

/-- A property of the characters of a string is decided by looking at them, not at
every character there is. -/
instance (priority := 1100) (s : Text) (p : Char → Prop) [DecidablePred p] :
    Decidable (∀ c ∈ s, p c) :=
  List.decidableBAll p s

/-- `std::string::find`: the first position at which `pat` occurs. -/
def find (pat : Text) : Text → Option Nat
  | [] => if pat.isEmpty then some 0 else none
  | c :: s =>
    if pat.isPrefixOf (c :: s) then some 0 else (find pat s).map (· + 1)

/-- `std::string::find` from a starting position. -/
def findFrom (pat : Text) (start : Nat) (s : Text) : Option Nat :=
  if start ≤ s.length then (find pat (s.drop start)).map (· + start) else none

/-- `std::string::starts_with`. -/
def startsWith (pat s : Text) : Bool := pat.isPrefixOf s

/-- `std::string::substr`. -/
def substr (pos len : Nat) (s : Text) : Text := (s.drop pos).take len

/-- `std::string::replace` of `len` characters at `pos`. -/
def replace (pos len : Nat) (new s : Text) : Text :=
  s.take pos ++ new ++ s.drop (pos + len)

/-- A word with a space on both sides. -/
def spaced (w : Text) : Text := ' ' :: w ++ [' ']

/-- `std::to_string` of an unsigned number. -/
def decimal (n : Nat) : Text := Nat.toDigits 10 n

/-- `std::to_string` of a signed number. -/
def decimalInt : Int → Text
  | .ofNat n => decimal n
  | .negSucc n => '-' :: decimal (n + 1)

/-- A number streamed through `std::hex`. -/
def hexDigits (n : Nat) : Text := Nat.toDigits 16 n

theorem isPrefixOf_append (pat rest : Text) : pat.isPrefixOf (pat ++ rest) = true :=
  List.isPrefixOf_iff_prefix.mpr (List.prefix_append pat rest)

theorem split_of_find {pat s : Text} {i : Nat} (h : find pat s = some i) :
    ∃ before after, s = before ++ (pat ++ after) ∧ before.length = i := by
  induction s generalizing i with
  | nil =>
    cases pat with
    | nil => exact ⟨[], [], rfl, by simpa [find] using h⟩
    | cons c pat => simp [find] at h
  | cons c s ih =>
    unfold find at h
    by_cases hhere : pat.isPrefixOf (c :: s) = true
    · rw [if_pos hhere] at h
      obtain ⟨after, hafter⟩ := List.isPrefixOf_iff_prefix.mp hhere
      exact ⟨[], after, by simpa using hafter.symm, by simpa using h⟩
    · rw [if_neg hhere, Option.map_eq_some_iff] at h
      obtain ⟨j, hj, rfl⟩ := h
      obtain ⟨before, after, hs, hlen⟩ := ih hj
      exact ⟨c :: before, after, by rw [hs]; rfl, by simp [hlen]⟩

theorem find_le_of_split {pat s before after : Text} (h : s = before ++ (pat ++ after)) :
    ∃ i, find pat s = some i ∧ i ≤ before.length := by
  induction before generalizing s with
  | nil =>
    subst h
    cases pat with
    | nil => cases after <;> exact ⟨0, by simp [find], by simp⟩
    | cons c pat =>
      refine ⟨0, ?_, by simp⟩
      have hhere := isPrefixOf_append (c :: pat) after
      simp only [List.nil_append, List.cons_append] at hhere ⊢
      rw [find, if_pos hhere]
  | cons c before ih =>
    subst h
    rw [List.cons_append, find]
    by_cases hhere : pat.isPrefixOf (c :: (before ++ (pat ++ after))) = true
    · exact ⟨0, if_pos hhere, by simp⟩
    · obtain ⟨i, hi, hle⟩ := ih rfl
      exact ⟨i + 1, by rw [if_neg hhere, hi]; rfl, by simpa using hle⟩

theorem replace_split (before pat new after : Text) :
    replace before.length pat.length new (before ++ (pat ++ after)) = before ++ (new ++ after) := by
  simp [replace, List.drop_append]

end StdText
