import Mathlib

/-!
# Queues that run dry

A work list takes an item out and puts items in for it.  When each of these has a
smaller rank than the item, and there are never more than a fixed number of them, the
list runs dry: every item is given a price that pays for all that follows from it.
-/

namespace Worklists

/-- What an item of a rank costs, with everything that follows from it. -/
def price (branching : Nat) : Nat → Nat
  | 0 => 1
  | rank + 1 => 1 + branching * price branching rank

theorem price_pos (branching rank : Nat) : 0 < price branching rank := by
  cases rank with
  | zero => exact Nat.one_pos
  | succ rank => rw [price]; omega

variable {α : Type} (branching : Nat) (rank : α → Nat)

/-- What a queue costs. -/
def total (queue : List α) : Nat := (queue.map (fun item => price branching (rank item))).sum

variable {branching rank}

theorem total_append (queue more : List α) : total branching rank (queue ++ more) =
      total branching rank queue + total branching rank more := by
  simp [total]

theorem total_cons (item : α) (queue : List α) : total branching rank (item :: queue) =
      price branching (rank item) + total branching rank queue := rfl

theorem price_mono (hbranching : 0 < branching) {k n : Nat} (h : k ≤ n) :
    price branching k ≤ price branching n := by
  induction h with
  | refl => exact le_rfl
  | step _ ih =>
    refine ih.trans ?_
    rw [price]
    exact (Nat.le_mul_of_pos_left _ hbranching).trans (Nat.le_add_left _ _)

theorem total_lt_price {item : α} {more : List α} (hmore : more.length ≤ branching)
    (hrank : ∀ x ∈ more, rank x < rank item) :
    total branching rank more < price branching (rank item) := by
  cases more with
  | nil => exact price_pos _ _
  | cons first others =>
    have hbranching : 0 < branching := lt_of_lt_of_le (Nat.succ_pos _) hmore
    obtain ⟨k, hk⟩ : ∃ k, rank item = k + 1 :=
      Nat.exists_eq_succ_of_ne_zero (Nat.ne_of_gt (Nat.zero_lt_of_lt (hrank first (by simp))))
    have hsum : total branching rank (first :: others) ≤
        (first :: others).length * price branching k := by
      refine le_of_le_of_eq (List.sum_le_card_nsmul _ (price branching k) ?_) (by simp)
      intro cost hcost
      obtain ⟨x, hx, rfl⟩ := List.mem_map.mp hcost
      have hless := hrank x hx
      exact price_mono hbranching (by omega)
    rw [hk, price]
    have hle := Nat.mul_le_mul_right (price branching k) hmore
    omega

/-- Taking the first item out and putting its items in makes the queue cheaper. -/
theorem total_expand {item : α} {queue more : List α} (hmore : more.length ≤ branching)
    (hrank : ∀ x ∈ more, rank x < rank item) :
    total branching rank (queue ++ more) < total branching rank (item :: queue) := by
  have hless := total_lt_price hmore hrank
  rw [total_append, total_cons]
  omega

theorem total_tail (item : α) (queue : List α) :
    total branching rank queue < total branching rank (item :: queue) := by
  have hpos := price_pos branching (rank item)
  rw [total_cons]
  omega

end Worklists
