import Mathlib

/-!
# Searches that close a set

A search holds the keys that are still to be looked up and the names that it has found.
Looking a key up gives names, and every name is a key itself.  When no key is left, the
names found are exactly those that can be reached.
-/

namespace Closures

open List

variable {κ α : Type} (rows : κ → List α) (key : α → κ)

/-- What is reached from a key. -/
inductive Reached (seed : κ) : α → Prop
  | direct {a : α} (h : a ∈ rows seed) : Reached seed a
  | chain {a b : α} (h : Reached seed a) (hb : b ∈ rows (key a)) : Reached seed b

/-- The keys that a search has come to. -/
def Known (seed : κ) (found : List α) (k : κ) : Prop := k = seed ∨ ∃ a ∈ found, k = key a

/-- The state of a search: what is found is reached and found once, and every key that it
has come to is still to be looked up or has nothing new. -/
structure Searching (seed : κ) (todo : List κ) (found : List α) : Prop where
  nodup : found.Nodup
  sound : ∀ a ∈ found, Reached rows key seed a
  known : ∀ k ∈ todo, Known key seed found k
  looked : ∀ k, Known key seed found k → k ∈ todo ∨ rows k ⊆ found

variable {rows key} {seed k : κ} {todo : List κ} {found : List α}

theorem Known.mono {found' : List α} (h : Known key seed found k) (hsub : found ⊆ found') :
    Known key seed found' k := by
  rcases h with rfl | ⟨a, ha, rfl⟩
  · exact Or.inl rfl
  · exact Or.inr ⟨a, hsub ha, rfl⟩

variable {a : α}

theorem Searching.reached (h : Searching rows key seed (k :: todo) found)
    (ha : a ∈ rows k) : Reached rows key seed a := by
  rcases h.known k mem_cons_self with rfl | ⟨b, hb, rfl⟩
  · exact Reached.direct ha
  · exact Reached.chain (h.sound b hb) ha

theorem Searching.start : Searching rows key seed [seed] [] where
  nodup := nodup_nil
  sound := fun _ ha => by cases ha
  known := fun k hk => Or.inl (mem_singleton.mp hk)
  looked := by
    intro k hk
    rcases hk with rfl | ⟨a, ha, _⟩
    · exact Or.inl mem_cons_self
    · cases ha

/-- A new name is found under the first key, and is to be looked up itself. -/
theorem Searching.find (h : Searching rows key seed (k :: todo) found)
    (ha : a ∈ rows k) (hnew : a ∉ found) :
    Searching rows key seed (k :: (todo ++ [key a])) (found ++ [a]) where
  nodup := by
    rw [nodup_append]
    refine ⟨h.nodup, nodup_singleton a, ?_⟩
    intro b hb c hc hbc
    rw [mem_singleton.mp hc] at hbc
    exact hnew (hbc ▸ hb)
  sound := by
    intro b hb
    rcases mem_append.mp hb with hold | hlast
    · exact h.sound b hold
    · rw [mem_singleton.mp hlast]
      exact h.reached ha
  known := by
    intro k' hk'
    rw [← cons_append] at hk'
    rcases mem_append.mp hk' with hold | hlast
    · exact (h.known k' hold).mono (subset_append_left _ _)
    · exact Or.inr ⟨a, mem_append_right _ mem_cons_self, mem_singleton.mp hlast⟩
  looked := by
    intro k' hk'
    have hsplit : Known key seed found k' ∨ k' = key a := by
      rcases hk' with rfl | ⟨b, hb, rfl⟩
      · exact Or.inl (Or.inl rfl)
      · rcases mem_append.mp hb with hold | hlast
        · exact Or.inl (Or.inr ⟨b, hold, rfl⟩)
        · exact Or.inr (congrArg key (mem_singleton.mp hlast))
    rcases hsplit with hold | rfl
    · rcases h.looked k' hold with htodo | hrows
      · left
        rw [← cons_append]
        exact mem_append_left _ htodo
      · exact Or.inr (fun b hb => mem_append_left _ (hrows hb))
    · left
      exact mem_cons_of_mem _ (mem_append_right _ mem_cons_self)

theorem Searching.done (h : Searching rows key seed (k :: todo) found) (hrows : rows k ⊆ found) :
    Searching rows key seed todo found where
  nodup := h.nodup
  sound := h.sound
  known := fun k' hk' => h.known k' (mem_cons_of_mem _ hk')
  looked := by
    intro k' hk'
    rcases h.looked k' hk' with htodo | hnothing
    · rcases mem_cons.mp htodo with rfl | hrest
      · exact Or.inr hrows
      · exact Or.inl hrest
    · exact Or.inr hnothing

theorem Searching.complete (h : Searching rows key seed [] found)
    (ha : Reached rows key seed a) : a ∈ found := by
  have hrows : ∀ k, Known key seed found k → rows k ⊆ found := by
    intro k hk
    rcases h.looked k hk with htodo | hnothing
    · cases htodo
    · exact hnothing
  induction ha with
  | direct ha => exact hrows seed (Or.inl rfl) ha
  | chain _ hb ih => exact hrows _ (Or.inr ⟨_, ih, rfl⟩) hb

end Closures
