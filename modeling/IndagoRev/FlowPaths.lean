import Mathlib

/-!
# Paths through a flow graph

Paths from an entry along edges, and what is defined on every one of them: the
notion behind "every use is dominated by its definition".
-/

namespace FlowPaths

open List

section
variable {α β : Type} (entry : α → Prop) (edge : α → α → Prop)

/-- A path from an entry, the last node first. -/
inductive Path : List α → Prop
  | start {a : α} : entry a → Path [a]
  | step {a b : α} {path : List α} : Path (a :: path) → edge a b → Path (b :: a :: path)

/-- A node can be reached from an entry. -/
def Reached (b : α) : Prop := ∃ path, Path entry edge (b :: path)

/-- Every path to a node meets a definition of `v` before the node. -/
def Inherited (defs : α → β → Prop) (b : α) (v : β) : Prop :=
  ∀ path, Path entry edge (b :: path) → ∃ c ∈ path, defs c v

variable {entry edge}

theorem Path.to_node {before path : List α} {c : α}
    (h : Path entry edge (before ++ c :: path)) : Path entry edge (c :: path) := by
  induction before with
  | nil => exact h
  | cons b before ih =>
    cases before with
    | nil =>
      cases h with
      | step hpath _ => exact hpath
    | cons a before =>
      cases h with
      | step hpath _ => exact ih hpath

variable {b : α}

theorem Path.first_arrival [DecidableEq α] {path : List α}
    (h : Path entry edge (b :: path)) : ∃ first, Path entry edge (b :: first) ∧ b ∉ first := by
  induction hn : path.length using Nat.strongRecOn generalizing path with
  | ind n ih =>
    by_cases hmem : b ∈ path
    · obtain ⟨before, after, rfl⟩ := append_of_mem hmem
      have hshort : Path entry edge (b :: after) := by
        have hsplit : b :: (before ++ b :: after) = (b :: before) ++ b :: after := rfl
        rw [hsplit] at h
        exact h.to_node
      refine ih after.length ?_ hshort rfl
      rw [← hn, length_append, length_cons]
      omega
    · exact ⟨path, h, hmem⟩

variable {defs : α → β → Prop} {v : β}

/-- What is inherited is not defined in the node itself, if it is defined in one
node only. -/
theorem Inherited.not_defs [DecidableEq α] (h : Inherited entry edge defs b v)
    (hunique : ∀ c, defs c v → defs b v → c = b) (hreached : Reached entry edge b) :
    ¬ defs b v := by
  intro hdef
  obtain ⟨path, hpath⟩ := hreached
  obtain ⟨first, hfirst, hnot⟩ := hpath.first_arrival
  obtain ⟨c, hc, hcdef⟩ := h first hfirst
  rw [hunique c hcdef hdef] at hc
  exact hnot hc

theorem Inherited.before_edge {b c : α} (h : Inherited entry edge defs c v)
    (hedge : edge b c) : Inherited entry edge defs b v ∨ defs b v := by
  by_cases hdef : defs b v
  · exact Or.inr hdef
  · refine Or.inl ?_
    intro path hpath
    obtain ⟨d, hd, hddef⟩ := h (b :: path) (.step hpath hedge)
    rcases mem_cons.mp hd with rfl | hd
    · exact absurd hddef hdef
    · exact ⟨d, hd, hddef⟩

/-- What is there before every edge to a node that is no entry is inherited. -/
theorem inherited_of_edges {c : α} (hentry : ¬ entry c)
    (h : ∀ b, Reached entry edge b → edge b c → Inherited entry edge defs b v ∨ defs b v) :
    Inherited entry edge defs c v := by
  intro path hpath
  cases hpath with
  | start hstart => exact absurd hstart hentry
  | @step b _ before hbefore hedge =>
    rcases h b ⟨before, hbefore⟩ hedge with hin | hdef
    · obtain ⟨d, hd, hddef⟩ := hin before hbefore
      exact ⟨d, mem_cons_of_mem _ hd, hddef⟩
    · exact ⟨b, mem_cons_self, hdef⟩

/-- What is there wherever `v` is defined is inherited together with `v`. -/
theorem Inherited.trans {v w : β} (h : Inherited entry edge defs b v)
    (hdep : ∀ c, Reached entry edge c → defs c v → Inherited entry edge defs c w ∨ defs c w) :
    Inherited entry edge defs b w := by
  intro path hpath
  obtain ⟨c, hc, hcdef⟩ := h path hpath
  obtain ⟨before, after, rfl⟩ := append_of_mem hc
  have harrive : Path entry edge (c :: after) := by
    have hsplit : b :: (before ++ c :: after) = (b :: before) ++ c :: after := rfl
    rw [hsplit] at hpath
    exact hpath.to_node
  rcases hdep c ⟨after, harrive⟩ hcdef with hin | hdef
  · obtain ⟨d, hd, hddef⟩ := hin after harrive
    exact ⟨d, by simp [hd], hddef⟩
  · exact ⟨c, hc, hdef⟩

end

end FlowPaths
