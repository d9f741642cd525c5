import Mathlib

/-!
# Logs with sequence numbers

The records of a log that have a number are numbered from 1 in the order in which they stand.
-/

namespace SequencedLogs

open List

variable {R : Type} {number f : R → Option Nat} {l : List R} {r : R} {count m n : Nat}

/-- The numbers of a log are those up to `count`, in order. -/
def Numbered (number : R → Option Nat) (l : List R) (count : Nat) : Prop :=
  l.filterMap number = List.range' 1 count

theorem Numbered.skip (h : Numbered number l count) (hr : number r = none) :
    Numbered number (l ++ [r]) count := by
  unfold Numbered at *
  rw [filterMap_append, h, filterMap_cons_none hr, filterMap_nil, append_nil]

theorem Numbered.snoc (h : Numbered number l count) (hr : number r = some (count + 1)) :
    Numbered number (l ++ [r]) (count + 1) := by
  unfold Numbered at *
  rw [filterMap_append, h, filterMap_cons_some hr, filterMap_nil,
    range'_1_concat, Nat.add_comm 1]

theorem Numbered.le (h : Numbered number l count) (hr : r ∈ l) (hn : number r = some n) :
    n ≤ count := by
  have hmem : n ∈ List.range' 1 count := h ▸ mem_filterMap.mpr ⟨r, hr, hn⟩
  rw [mem_range'_1] at hmem
  omega

/-- The largest number that `f` reads in a log, or 0. -/
def latest (f : R → Option Nat) (l : List R) : Nat := (l.filterMap f).foldl max 0

theorem latest_snoc : latest f (l ++ [r]) = max (latest f l) ((f r).getD 0) := by
  unfold latest
  rw [filterMap_append, foldl_append]
  cases hr : f r with
  | none => rw [filterMap_cons_none hr]; exact (Nat.max_zero _).symm
  | some n => rw [filterMap_cons_some hr]; rfl

theorem latest_le (h : ∀ r ∈ l, ∀ n, f r = some n → n ≤ m) : latest f l ≤ m := by
  induction l using List.reverseRecOn with
  | nil => exact Nat.zero_le m
  | append_singleton l r ih =>
    rw [latest_snoc]
    refine Nat.max_le.mpr ⟨ih fun r hr => h r (mem_append_left _ hr), ?_⟩
    cases hr : f r with
    | none => exact Nat.zero_le m
    | some n => exact h r (mem_append_right _ mem_cons_self) n hr

end SequencedLogs
