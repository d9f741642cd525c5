import Mathlib

/-!
# Sums that change their width

A word that is moved by constants, cut off and extended again is its first word, moved,
between the extensions that no later cut undoes.  Below the outermost extension nothing
can be gathered: whether a sum has wrapped there decides what is extended.
-/

namespace Wrapping

/-- What a word has become: the first word, cut off to a width and moved, or an extension
of such a word to a larger width, moved. -/
inductive Form where
  | base (width : Nat) (offset : Int)
  | wider (below : Form) (signed : Bool) (width : Nat) (offset : Int)

namespace Form

/-- The width of the word. -/
def width : Form → Nat
  | base w _ => w
  | wider _ _ w _ => w

/-- Everything that was added. -/
def total : Form → Int
  | base _ o => o
  | wider f _ _ o => f.total + o

/-- What was extended last, and how. -/
def source : Form → Option (Form × Bool)
  | base _ _ => none
  | wider f signed _ _ => some (f, signed)

variable (signed : Bool)

/-- The number that an extension starts from. -/
def extended (width : Nat) (x : Int) : Int :=
  if signed then x.bmod (2 ^ width) else x

/-- The number that the word stands for, from the number of the first word. -/
def value (x : Int) : Form → Int
  | base w o => (x + o) % 2 ^ w
  | wider f signed w o => (extended signed f.width (f.value x) + o) % 2 ^ w

/-- A constant is added. -/
def move (c : Int) : Form → Form
  | base w o => base w (o + c)
  | wider f signed w o => wider f signed w (o + c)

/-- A constant is added, and the word is cut off. -/
def narrow (w : Nat) : Int → Form → Form
  | c, base _ o => base w (o + c)
  | c, wider f signed _ o =>
    if w ≤ f.width then f.narrow w (o + c) else wider f signed w (o + c)

variable (w : Nat) (f : Form)

/-- The word gets another width. -/
def cast : Form :=
  if w ≤ f.width then f.narrow w 0 else wider f signed w 0

@[simp] theorem width_move (c : Int) (f : Form) : (f.move c).width = f.width := by
  cases f <;> rfl

@[simp] theorem total_move (c : Int) (f : Form) : (f.move c).total = f.total + c := by
  cases f with
  | base w o => rfl
  | wider f signed w o => exact (Int.add_assoc _ _ _).symm

@[simp] theorem width_narrow (c : Int) (f : Form) : (f.narrow w c).width = w := by
  induction f generalizing c with
  | base w' o => rfl
  | wider f signed w' o ih =>
    unfold narrow
    split
    · exact ih (o + c)
    · rfl

@[simp] theorem total_narrow (c : Int) (f : Form) : (f.narrow w c).total = f.total + c := by
  induction f generalizing c with
  | base w' o => rfl
  | wider f signed w' o ih =>
    unfold narrow
    split
    · rw [ih, total, Int.add_assoc]
    · exact (Int.add_assoc _ _ _).symm

@[simp] theorem width_cast : (f.cast signed w).width = w := by
  unfold cast
  split
  · exact width_narrow w 0 f
  · rfl

@[simp] theorem total_cast : (f.cast signed w).total = f.total := by
  unfold cast
  split
  · rw [total_narrow, Int.add_zero]
  · exact Int.add_zero _

/-- Words of one width that were extended from the same word are the same, if as much was
added to them in all. -/
theorem eq_of_source {f g : Form} (hwidth : f.width = g.width) (htotal : f.total = g.total)
    (hsource : f.source = g.source) : f = g := by
  cases f with
  | base w o =>
    cases g with
    | base w' o' =>
      simp only [width, total] at hwidth htotal
      rw [hwidth, htotal]
    | wider g signed w' o' => cases hsource
  | wider f signed w o =>
    cases g with
    | base w' o' => cases hsource
    | wider g signed' w' o' =>
      simp only [source, Option.some.injEq, Prod.mk.injEq] at hsource
      obtain ⟨rfl, rfl⟩ := hsource
      simp only [width, total] at hwidth htotal
      rw [hwidth, show o = o' by omega]

variable {w w' : Nat}

theorem emod_pow_emod (h : w' ≤ w) (x : Int) : x % 2 ^ w % 2 ^ w' = x % 2 ^ w' :=
  Int.emod_emod_of_dvd x (pow_dvd_pow 2 h)

theorem emod_pow_add_emod (h : w' ≤ w) (x c : Int) :
    (x % 2 ^ w + c) % 2 ^ w' = (x + c) % 2 ^ w' := by
  rw [Int.add_emod, emod_pow_emod h, ← Int.add_emod]

theorem extended_emod (h : w' ≤ w) (signed : Bool) (x : Int) :
    extended signed w x % 2 ^ w' = x % 2 ^ w' := by
  unfold extended
  split
  · rw [← emod_pow_emod h, ← emod_pow_emod h x]
    have hcast : ((2 ^ w : Nat) : Int) = 2 ^ w := by push_cast; rfl
    rw [← hcast, Int.bmod_emod]
  · rfl

theorem value_move (c : Int) (f : Form) (x : Int) :
    (f.move c).value x = (f.value x + c) % 2 ^ f.width := by
  cases f with
  | base w o => simp only [move, value, width, Int.emod_add_emod, Int.add_assoc]
  | wider f signed w o => simp only [move, value, width, Int.emod_add_emod, Int.add_assoc]

theorem value_narrow {w : Nat} {f : Form} (h : w ≤ f.width) (c x : Int) :
    (f.narrow w c).value x = (f.value x + c) % 2 ^ w := by
  induction f generalizing c with
  | base w' o =>
    have hw : w ≤ w' := h
    rw [narrow, value, value, emod_pow_add_emod hw, Int.add_assoc]
  | wider f signed w' o ih =>
    have hw : w ≤ w' := h
    rw [narrow, value, emod_pow_add_emod hw, Int.add_assoc]
    split
    · rename_i hbelow
      have hsame := extended_emod hbelow signed (f.value x)
      rw [ih hbelow, Int.add_emod, ← hsame, ← Int.add_emod]
    · rfl

theorem value_cast (x : Int) : (f.cast signed w).value x =
      (if w ≤ f.width then f.value x else extended signed f.width (f.value x)) % 2 ^ w := by
  unfold cast
  split
  · rename_i h
    rw [value_narrow h, Int.add_zero]
  · rw [value, Int.add_zero]

/-- A form describes a bit vector. -/
def Describes (x : Int) {n : Nat} (b : BitVec n) : Prop :=
  n = f.width ∧ (b.toNat : Int) = f.value x

variable {f : Form} {x : Int} {n : Nat} {b : BitVec n}

theorem describes_base (b : BitVec n) : Describes (base n 0) b.toNat b := by
  refine ⟨rfl, ?_⟩
  have hlt : (b.toNat : Int) < 2 ^ n := by exact_mod_cast b.isLt
  rw [value, Int.add_zero, Int.emod_eq_of_lt (Int.natCast_nonneg _) hlt]

theorem Describes.unique {k : Nat} {b' : BitVec k} (h : Describes f x b) (h' : Describes f x b') :
    n = k ∧ b.toNat = b'.toNat := by
  refine ⟨h.1.trans h'.1.symm, ?_⟩
  exact_mod_cast h.2.trans h'.2.symm

theorem Describes.add (h : Describes f x b) {c : Int} {b' : BitVec n}
    (hc : (b'.toNat : Int) % 2 ^ n = c % 2 ^ n) : Describes (f.move c) x (b + b') := by
  refine ⟨h.1.trans (width_move c f).symm, ?_⟩
  rw [value_move, ← h.2, ← h.1, BitVec.toNat_add]
  push_cast
  rw [Int.add_emod, hc, ← Int.add_emod]

theorem Describes.sub (h : Describes f x b) {c : Int} {b' : BitVec n}
    (hc : (b'.toNat : Int) % 2 ^ n = c % 2 ^ n) : Describes (f.move (-c)) x (b - b') := by
  refine ⟨h.1.trans (width_move (-c) f).symm, ?_⟩
  rw [value_move, ← h.2, ← h.1, BitVec.toNat_sub]
  have hlt := b'.isLt
  push_cast [Nat.le_of_lt hlt]
  have hshift : (2 ^ n - (b'.toNat : Int) + b.toNat) = (b.toNat - b'.toNat) + 2 ^ n * 1 := by ring
  rw [hshift, Int.add_mul_emod_self_left, Int.sub_emod, hc, ← Int.sub_emod, Int.sub_eq_add_neg]

theorem Describes.setWidth (h : Describes f x b) (w : Nat) :
    Describes (f.cast false w) x (b.setWidth w) := by
  refine ⟨(width_cast false w f).symm, ?_⟩
  rw [value_cast, BitVec.toNat_setWidth]
  push_cast
  rw [h.2]
  simp [extended]

theorem Describes.signExtend (h : Describes f x b) {w : Nat} (hw : n ≤ w) :
    Describes (f.cast true w) x (b.signExtend w) := by
  refine ⟨(width_cast true w f).symm, ?_⟩
  have hvalue : ((b.signExtend w).toNat : Int) = b.toInt % 2 ^ w := by
    have hbmod := BitVec.toInt_eq_toNat_bmod (b.signExtend w)
    rw [BitVec.toInt_signExtend_of_le hw] at hbmod
    rw [hbmod]
    have hcast : ((2 ^ w : Nat) : Int) = 2 ^ w := by push_cast; rfl
    rw [← hcast, Int.bmod_emod, Int.emod_eq_of_lt (Int.natCast_nonneg _)
      (by exact_mod_cast (b.signExtend w).isLt)]
  rw [hvalue, value_cast, BitVec.toInt_eq_toNat_bmod, h.2, h.1]
  split
  · rename_i hle
    have heq : w = f.width := Nat.le_antisymm hle (h.1 ▸ hw)
    rw [heq]
    have hcast : ((2 ^ f.width : Nat) : Int) = 2 ^ f.width := by push_cast; rfl
    rw [← hcast, Int.bmod_emod]
  · rfl

end Form

end Wrapping
