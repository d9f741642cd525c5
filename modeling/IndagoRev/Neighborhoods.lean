import Mathlib

/-!
# Searches to a bounded depth

A search meets nodes in the order of their distance from its seeds, and expands them in
that order: it meets the relations of a node, and the nodes at their ends.  When it leaves
nothing out, it meets exactly what lies within the depth.
-/

namespace Neighborhoods

open List

variable {α ρ : Type}

section Graph

variable (seed : α → Prop) (edge : α → ρ → Prop) (ends : ρ → α → Prop)

/-- What a chain of so many relations leads to. -/
inductive Within : Nat → α → Prop
  | seed {a : α} (h : seed a) : Within 0 a
  | step {n : Nat} {a b : α} {r : ρ} (h : Within n a) (hr : edge a r) (hb : ends r b) :
      Within (n + 1) b

/-- A relation of a node that is nearer than the depth. -/
def Touched (depth : Nat) (r : ρ) : Prop := ∃ n a, n < depth ∧ Within seed edge ends n a ∧ edge a r

end Graph

/-- The nodes that a search has met, those that are still to be expanded, and the relations
that it has met, each with the distance at which it did so. -/
structure Search (α ρ : Type) where
  met : List (α × Nat)
  todo : List (α × Nat)
  edges : List (ρ × Nat)

section Invariant

variable (seed : α → Prop) (edge : α → ρ → Prop) (ends : ρ → α → Prop) (depth : Nat)

/-- What a search has met lies within its depth. -/
structure Sound (s : Search α ρ) : Prop where
  met : ∀ p ∈ s.met, p.2 ≤ depth ∧ Within seed edge ends p.2 p.1
  edges : ∀ q ∈ s.edges, Touched seed edge ends depth q.1
  todo : ∀ p ∈ s.todo, p ∈ s.met

/-- A search that has left nothing out. `now` is the distance of the node it has expanded
last. -/
structure Closed (now : Nat) (s : Search α ρ) : Prop where
  seeds : ∀ a, seed a → (a, 0) ∈ s.met
  ordered : s.todo.Pairwise (fun p q => p.2 ≤ q.2)
  near : ∀ p ∈ s.met, p.2 ≤ now + 1
  waiting : ∀ p ∈ s.todo, now ≤ p.2
  todo : ∀ p ∈ s.todo, p ∈ s.met
  ends : ∀ q ∈ s.edges, q.2 ≤ now ∧ ∀ b, ends q.1 b → ∃ k, k ≤ q.2 + 1 ∧ (b, k) ∈ s.met
  expanded : ∀ p ∈ s.met, p ∈ s.todo ∨
    (p.2 < depth → ∀ r, edge p.1 r → ∃ k, k ≤ p.2 ∧ (r, k) ∈ s.edges)

/-- The first node that is to be expanded has been, and nothing was left out. -/
structure Expands (a : α) (d : Nat) (s s' : Search α ρ) : Prop where
  met : ∃ new : List α, s'.met = s.met ++ new.map (fun b => (b, d + 1)) ∧
    (a, d) :: s'.todo = s.todo ++ new.map (fun b => (b, d + 1))
  edges : ∃ more : List ρ, s'.edges = s.edges ++ more.map (fun r => (r, d)) ∧
    ∀ r ∈ more, ∀ b, ends r b → ∃ k, (b, k) ∈ s'.met
  all : d < depth → ∀ r, edge a r → ∃ k, (r, k) ∈ s'.edges

end Invariant

variable {seed : α → Prop} {edge : α → ρ → Prop} {ends : ρ → α → Prop} {depth : Nat}

theorem Closed.expand {now d : Nat} {a : α} {rest : List (α × Nat)} {s s' : Search α ρ}
    (h : Closed seed edge ends depth now s) (htodo : s.todo = (a, d) :: rest)
    (hexpands : Expands edge ends depth a d s s') : Closed seed edge ends depth d s' := by
  obtain ⟨⟨new, hmet, hqueue⟩, ⟨more, hedges, hmore⟩, hall⟩ := hexpands
  have hordered := h.ordered
  rw [htodo, pairwise_cons] at hordered
  have hwaiting : now ≤ d := h.waiting (a, d) (by rw [htodo]; exact mem_cons_self)
  have hhead : (a, d) ∈ s.met := h.todo (a, d) (by rw [htodo]; exact mem_cons_self)
  rw [htodo, cons_append] at hqueue
  have hrest := (List.cons.inj hqueue).2
  have hmono : ∀ p ∈ s.met, p ∈ s'.met := by
    intro p hp
    rw [hmet]
    exact mem_append_left _ hp
  have hnear : ∀ p ∈ s'.met, p.2 ≤ d + 1 := by
    intro p hp
    rw [hmet] at hp
    rcases mem_append.mp hp with hold | hnew
    · have hle := h.near p hold
      omega
    · obtain ⟨b, _, rfl⟩ := mem_map.mp hnew
      exact Nat.le_refl _
  have hends : ∀ q ∈ s'.edges, q.2 ≤ d ∧ ∀ b, ends q.1 b → ∃ k, k ≤ q.2 + 1 ∧ (b, k) ∈ s'.met := by
    intro q hq
    rw [hedges] at hq
    rcases mem_append.mp hq with hold | hnew
    · obtain ⟨hle, hold⟩ := h.ends q hold
      refine ⟨by omega, fun b hb => ?_⟩
      obtain ⟨k, hk, hb⟩ := hold b hb
      exact ⟨k, hk, hmono _ hb⟩
    obtain ⟨r, hr, rfl⟩ := mem_map.mp hnew
    refine ⟨Nat.le_refl _, fun b hb => ?_⟩
    obtain ⟨k, hk⟩ := hmore r hr b hb
    exact ⟨k, hnear _ hk, hk⟩
  refine ⟨fun b hb => hmono _ (h.seeds b hb), ?_, hnear, ?_, ?_, hends, ?_⟩
  · rw [hrest, pairwise_append]
    refine ⟨hordered.2, ?_, ?_⟩
    · exact pairwise_map.mpr (pairwise_of_forall (fun _ _ => Nat.le_refl _))
    · intro p hp q hq
      obtain ⟨b, _, rfl⟩ := mem_map.mp hq
      exact hnear p (hmono p (h.todo p (by rw [htodo]; exact mem_cons_of_mem _ hp)))
  · intro p hp
    rw [hrest] at hp
    rcases mem_append.mp hp with hold | hnew
    · exact hordered.1 p hold
    · obtain ⟨b, _, rfl⟩ := mem_map.mp hnew
      exact Nat.le_succ d
  · intro p hp
    rw [hrest] at hp
    rcases mem_append.mp hp with hold | hnew
    · exact hmono p (h.todo p (by rw [htodo]; exact mem_cons_of_mem _ hold))
    · rw [hmet]
      exact mem_append_right _ hnew
  · intro p hp
    rw [hmet] at hp
    rcases mem_append.mp hp with hold | hnew
    · rcases h.expanded p hold with hwait | hdone
      · rw [htodo] at hwait
        rcases mem_cons.mp hwait with rfl | hwait
        · refine Or.inr (fun hless r hr => ?_)
          obtain ⟨k, hk⟩ := hall hless r hr
          exact ⟨k, (hends _ hk).1, hk⟩
        · rw [hrest]
          exact Or.inl (mem_append_left _ hwait)
      · refine Or.inr (fun hless r hr => ?_)
        obtain ⟨k, hk, hr⟩ := hdone hless r hr
        rw [hedges]
        exact ⟨k, hk, mem_append_left _ hr⟩
    · rw [hrest]
      exact Or.inl (mem_append_right _ hnew)

variable {s : Search α ρ}

/-- When nothing is left to expand, everything within the depth has been met as early as
it can be. -/
theorem Closed.meets {now : Nat} (h : Closed seed edge ends depth now s)
    (hdone : s.todo = []) {n : Nat} {a : α} (hn : n ≤ depth)
    (ha : Within seed edge ends n a) : ∃ k, k ≤ n ∧ (a, k) ∈ s.met := by
  induction ha with
  | seed ha => exact ⟨0, Nat.le_refl 0, h.seeds _ ha⟩
  | @step n a b r _ hr hb ih =>
    obtain ⟨k, hk, hmet⟩ := ih (by omega)
    rcases h.expanded (a, k) hmet with hwait | hexpanded
    · rw [hdone] at hwait
      cases hwait
    have hless : k < depth := by omega
    obtain ⟨j, hj, hedge⟩ := hexpanded hless r hr
    obtain ⟨i, hi, hmet'⟩ := (h.ends (r, j) hedge).2 b hb
    have hj' : j ≤ k := hj
    have hi' : i ≤ j + 1 := hi
    exact ⟨i, by omega, hmet'⟩

/-- Then every relation of what is nearer than the depth has been met too. -/
theorem Closed.touches {now : Nat} (h : Closed seed edge ends depth now s)
    (hdone : s.todo = []) {r : ρ} (hr : Touched seed edge ends depth r) :
    ∃ k, (r, k) ∈ s.edges := by
  obtain ⟨n, a, hn, ha, hedge⟩ := hr
  obtain ⟨k, hk, hmet⟩ := h.meets hdone (by omega) ha
  rcases h.expanded (a, k) hmet with hwait | hexpanded
  · rw [hdone] at hwait
    cases hwait
  · have hless : k < depth := by omega
    obtain ⟨j, _, hj⟩ := hexpanded hless r hedge
    exact ⟨j, hj⟩

variable {ends' : ρ → α → Prop}

/-- What a chain of relations leads to, a chain of more relations leads to as well when
there are more. -/
theorem Within.mono {edge' : α → ρ → Prop} {n : Nat} {a : α}
    (hends : ∀ r b, ends r b → ends' r b) (hedge : ∀ a r, edge a r → edge' a r)
    (h : Within seed edge ends n a) : Within seed edge' ends' n a := by
  induction h with
  | seed h => exact Within.seed h
  | step _ hr hb ih => exact Within.step ih (hedge _ _ hr) (hends _ _ hb)

theorem Touched.mono {r : ρ} (hends : ∀ r b, ends r b → ends' r b)
    (h : Touched seed edge ends depth r) : Touched seed edge ends' depth r := by
  obtain ⟨n, a, hn, ha, hr⟩ := h
  exact ⟨n, a, hn, ha.mono hends (fun _ _ h => h), hr⟩

end Neighborhoods
