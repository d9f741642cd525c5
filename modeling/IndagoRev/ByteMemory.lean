import Mathlib

/-!
# Byte memories

A memory holds a byte at every address.  Numbers are written and read as a row of
bytes, the lowest byte first.
-/

namespace ByteMemory

/-- A memory.  What stands at an address counts modulo 256. -/
abbrev Memory := Nat → Nat

/-- The number in the `n` bytes from an address on. -/
def read (m : Memory) : Nat → Nat → Nat
  | _, 0 => 0
  | a, n + 1 => m a % 256 + 256 * read m (a + 1) n

/-- A memory with the low `n` bytes of a number written from an address on. -/
def write (m : Memory) (a n d : Nat) : Memory := fun x =>
  if a ≤ x ∧ x < a + n then d / 256 ^ (x - a) else m x

/-- Whether two rows of bytes have no address in common. -/
def Apart (a n b k : Nat) : Prop := ∀ i, i < n → ∀ j, j < k → a + i ≠ b + j

theorem read_of_bytes {m : Memory} {a n d : Nat}
    (h : ∀ i, i < n → m (a + i) % 256 = d / 256 ^ i % 256) : read m a n = d % 256 ^ n := by
  induction n generalizing a d with
  | zero => simp [read, Nat.mod_one]
  | succ n ih =>
    have hfirst : m a % 256 = d % 256 := by
      have h0 := h 0 (by omega)
      simpa using h0
    have hrest : read m (a + 1) n = d / 256 % 256 ^ n := by
      apply ih
      intro i hi
      have hnext := h (i + 1) (by omega)
      have haddress : a + 1 + i = a + (i + 1) := by omega
      rw [haddress, hnext, Nat.pow_succ, Nat.mul_comm, Nat.div_div_eq_div_mul]
    rw [read, hfirst, hrest, Nat.pow_succ, Nat.mul_comm (256 ^ n), Nat.mod_mul]

theorem read_congr {m m' : Memory} {a n : Nat} (h : ∀ i, i < n → m (a + i) = m' (a + i)) :
    read m a n = read m' a n := by
  induction n generalizing a with
  | zero => rfl
  | succ n ih =>
    have hfirst : m a = m' a := by simpa using h 0 (by omega)
    have hrest : read m (a + 1) n = read m' (a + 1) n := by
      apply ih
      intro i hi
      have haddress : a + 1 + i = a + (i + 1) := by omega
      rw [haddress]
      exact h (i + 1) (by omega)
    rw [read, read, hfirst, hrest]

theorem read_write_same (m : Memory) (a n d : Nat) : read (write m a n d) a n = d % 256 ^ n := by
  apply read_of_bytes
  intro i hi
  have hinside : a ≤ a + i ∧ a + i < a + n := by omega
  have hoffset : a + i - a = i := by omega
  rw [write, if_pos hinside, hoffset]

theorem read_write_apart {m : Memory} {a n d b k : Nat} (h : Apart a n b k) :
    read (write m a n d) b k = read m b k := by
  apply read_congr
  intro j hj
  have houtside : ¬ (a ≤ b + j ∧ b + j < a + n) := by
    rintro ⟨hlow, hhigh⟩
    exact h (b + j - a) (by omega) j hj (by omega)
  rw [write, if_neg houtside]

end ByteMemory
