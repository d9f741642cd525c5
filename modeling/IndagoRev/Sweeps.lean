import Mathlib

/-!
# Sweeps over a list of pairs

Marks are pushed backwards along a list of pairs, one pair after the other, and the
whole list is gone through several times.  How many times it takes for a mark to
arrive depends on the order of the list: within one sweep a mark moves along pairs
that stand in the order in which it meets them, and it waits for the next sweep
where it has to turn back.
-/

namespace Sweeps

open List

variable {α : Type}

/-- One pair: a mark on its second component is given to its first one. -/
def push (marked : Set α) (slot : α × α) : Set α :=
  {v | v ∈ marked ∨ (v = slot.1 ∧ slot.2 ∈ marked)}

/-- The whole list, once. -/
def sweep (slots : List (α × α)) (marked : Set α) : Set α := slots.foldl push marked

/-- Nothing is left to push. -/
def Closed (slots : List (α × α)) (marked : Set α) : Prop :=
  ∀ slot ∈ slots, slot.2 ∈ marked → slot.1 ∈ marked

/-- A way of a mark: how often it has turned back against the list so far, behind which
place of the list it stands, and what it has reached. -/
inductive Chain (slots : List (α × α)) (start : Set α) : Nat → Nat → α → Prop
  | start {v : α} (h : v ∈ start) : Chain slots start 0 0 v
  | onward {turns place i : Nat} {a p : α} (h : Chain slots start turns place p)
      (hslot : slots[i]? = some (a, p)) (hi : place ≤ i) : Chain slots start turns (i + 1) a
  | back {turns place i : Nat} {a p : α} (h : Chain slots start turns place p)
      (hslot : slots[i]? = some (a, p)) (hi : i < place) : Chain slots start (turns + 1) (i + 1) a

/-- Everything that a mark can reach is reached with few turns. -/
def FewTurns (slots : List (α × α)) (start : Set α) (bound : Nat) : Prop :=
  ∀ turns place v, Chain slots start turns place v →
    ∃ turns' ≤ bound, ∃ place', Chain slots start turns' place' v

variable {slots : List (α × α)} {start marked : Set α} {slot : α × α}

theorem mem_push {v : α} :
    v ∈ push marked slot ↔ v ∈ marked ∨ (v = slot.1 ∧ slot.2 ∈ marked) := Iff.rfl

theorem Chain.place_le {turns place : Nat} {v : α} (h : Chain slots start turns place v) :
    place ≤ slots.length := by
  cases h with
  | start _ => exact Nat.zero_le _
  | onward _ hslot _ => exact (List.getElem?_eq_some_iff.mp hslot).1
  | back _ hslot _ => exact (List.getElem?_eq_some_iff.mp hslot).1

theorem Chain.move {turns place i : Nat} {a p : α} (h : Chain slots start turns place p)
    (hslot : slots[i]? = some (a, p)) : ∃ turns' place', Chain slots start turns' place' a := by
  rcases Nat.lt_or_ge i place with hi | hi
  · exact ⟨_, _, h.back hslot hi⟩
  · exact ⟨_, _, h.onward hslot hi⟩

/-- The marks after some whole sweeps and the first pairs of the next one. -/
def after (slots : List (α × α)) (start : Set α) (n k : Nat) : Set α :=
  sweep (slots.take k) ((sweep slots)^[n] start)

theorem after_zero (n : Nat) : after slots start n 0 = (sweep slots)^[n] start := rfl

theorem after_length (n : Nat) :
    after slots start n slots.length = (sweep slots)^[n + 1] start := by
  rw [after, take_length, Function.iterate_succ_apply']

theorem after_succ {n k : Nat} (h : slots[k]? = some slot) :
    after slots start n (k + 1) = push (after slots start n k) slot := by
  rw [after, after, sweep, sweep, take_add_one, h, Option.toList_some, foldl_append]
  rfl

/-- What a sweep under way has marked: the chains that have not turned more often than
there were sweeps, as far as the list has been gone through. -/
theorem mem_after {n k : Nat} (hk : k ≤ slots.length) {v : α} : v ∈ after slots start n k ↔
      ∃ turns place, Chain slots start turns place v ∧ (turns < n ∨ (turns = n ∧ place ≤ k)) := by
  induction n generalizing k v with
  | zero =>
    induction k generalizing v with
    | zero =>
      constructor
      · intro h
        exact ⟨0, 0, .start h, .inr ⟨rfl, Nat.le_refl 0⟩⟩
      rintro ⟨turns, place, hchain, hlt | ⟨rfl, hplace⟩⟩
      · omega
      · cases hchain with
        | start h => exact h
        | onward _ _ _ => omega
    | succ k ih => exact mem_after_step hk (fun v => ih (by omega))
  | succ n ihn =>
    induction k generalizing v with
    | zero =>
      have hwhole := @ihn slots.length (Nat.le_refl _) v
      rw [after_zero, ← after_length, hwhole]
      constructor
      · rintro ⟨turns, place, hchain, hlt | ⟨rfl, _⟩⟩
        · exact ⟨turns, place, hchain, .inl (by omega)⟩
        · exact ⟨turns, place, hchain, .inl (by omega)⟩
      rintro ⟨turns, place, hchain, hlt | ⟨rfl, hplace⟩⟩
      · rcases Nat.lt_or_ge turns n with hless | hmore
        · exact ⟨turns, place, hchain, .inl hless⟩
        · exact ⟨turns, place, hchain, .inr ⟨by omega, hchain.place_le⟩⟩
      · cases hchain with
        | onward _ _ _ => omega
        | back _ _ _ => omega
    | succ k ih => exact mem_after_step hk (fun v => ih (by omega))
where
  mem_after_step {n k : Nat} (hk : k + 1 ≤ slots.length) {v : α}
      (ih : ∀ v, v ∈ after slots start n k ↔ ∃ turns place, Chain slots start turns place v ∧
          (turns < n ∨ (turns = n ∧ place ≤ k))) :
      v ∈ after slots start n (k + 1) ↔
        ∃ turns place, Chain slots start turns place v ∧
          (turns < n ∨ (turns = n ∧ place ≤ k + 1)) := by
    have hslot : slots[k]? = some slots[k] := getElem?_eq_getElem (by omega)
    rw [after_succ hslot, mem_push, ih]
    constructor
    · rintro (⟨turns, place, hchain, hwhen⟩ | ⟨rfl, hp⟩)
      · exact ⟨turns, place, hchain, by omega⟩
      obtain ⟨turns, place, hchain, hwhen⟩ := (ih _).mp hp
      rcases Nat.lt_or_ge k place with hback | honward
      · exact ⟨turns + 1, k + 1, hchain.back hslot hback, by omega⟩
      · exact ⟨turns, k + 1, hchain.onward hslot honward, by omega⟩
    rintro ⟨turns, place, hchain, hwhen⟩
    by_cases hearlier : turns < n ∨ (turns = n ∧ place ≤ k)
    · exact .inl ⟨turns, place, hchain, hearlier⟩
    obtain ⟨rfl, rfl⟩ : turns = n ∧ place = k + 1 := by omega
    cases hchain with
    | onward hrest hslot' hi =>
      rw [hslot] at hslot'
      injection hslot' with hpair
      rw [hpair]
      exact .inr ⟨rfl, (ih _).mpr ⟨_, _, hrest, .inr ⟨rfl, hi⟩⟩⟩
    | back hrest hslot' hi =>
      rw [hslot] at hslot'
      injection hslot' with hpair
      rw [hpair]
      exact .inr ⟨rfl, (ih _).mpr ⟨_, _, hrest, .inl (by omega)⟩⟩

/-- What some sweeps mark: everything that is reached with fewer turns. -/
theorem mem_sweeps {n : Nat} {v : α} :
    v ∈ (sweep slots)^[n + 1] start ↔ ∃ turns ≤ n, ∃ place, Chain slots start turns place v := by
  rw [← after_length, mem_after (Nat.le_refl _)]
  constructor
  · rintro ⟨turns, place, hchain, hwhen⟩
    exact ⟨turns, by omega, place, hchain⟩
  · rintro ⟨turns, hle, place, hchain⟩
    have hplace := hchain.place_le
    exact ⟨turns, place, hchain, by omega⟩

/-- Some sweeps push every mark as far as it goes exactly if no mark has to turn back
more often. -/
theorem closed_sweeps_iff {n : Nat} :
    Closed slots ((sweep slots)^[n + 1] start) ↔ FewTurns slots start n := by
  constructor
  · intro hclosed turns place v hchain
    have hmem : v ∈ (sweep slots)^[n + 1] start := by
      induction hchain with
      | start h => exact mem_sweeps.mpr ⟨0, Nat.zero_le n, 0, .start h⟩
      | onward _ hslot _ ih => exact hclosed _ (mem_of_getElem? hslot) ih
      | back _ hslot _ ih => exact hclosed _ (mem_of_getElem? hslot) ih
    exact mem_sweeps.mp hmem
  · intro hfew slot hslot hp
    obtain ⟨turns, _, place, hchain⟩ := mem_sweeps.mp hp
    obtain ⟨i, hi⟩ := getElem?_of_mem hslot
    obtain ⟨turns', place', hmoved⟩ := hchain.move hi
    exact mem_sweeps.mpr (hfew turns' place' slot.1 hmoved)

theorem sweeps_of_fixed (h : sweep slots marked = marked) (n : Nat) :
    (sweep slots)^[n] marked = marked := Function.iterate_fixed h n

end Sweeps
