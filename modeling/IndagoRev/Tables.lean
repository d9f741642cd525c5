import Mathlib

/-!
# Keyed tables

A table is the list of its rows in the order they were inserted. The key of a
row is a function of the row, so one relation can be looked up by several keys.
An update that keeps the key of every row commutes with the lookup, and a row
stored under a new key changes no other lookup.
-/

namespace Tables

open List

variable {κ ρ : Type} [DecidableEq κ]

variable (key : ρ → κ) (k : κ)

/-- The first row stored under `k`. -/
def row (rows : List ρ) : Option ρ :=
  rows.find? (fun r => key r = k)

/-- Apply `f` to the rows stored under `k`. -/
def rewrite (f : ρ → ρ) (rows : List ρ) : List ρ :=
  rows.map (fun r => if key r = k then f r else r)

/-- Remove the rows stored under `k`. -/
def erase (rows : List ρ) : List ρ :=
  rows.filter (fun r => key r ≠ k)

variable {key : ρ → κ} {k k' : κ} {rows : List ρ}

@[simp] theorem row_nil : row key k ([] : List ρ) = none := rfl

variable {r : ρ}

theorem row_some_key (h : row key k rows = some r) : key r = k := by
  have hfound := find?_some h
  simpa using hfound

theorem row_some_mem (h : row key k rows = some r) : r ∈ rows :=
  mem_of_find?_eq_some h

theorem row_none_iff : row key k rows = none ↔ ∀ r ∈ rows, key r ≠ k := by
  simp [row, find?_eq_none]

/-- Under distinct keys every row is the one found under its key. -/
theorem row_of_mem (hdistinct : (rows.map key).Nodup) (hr : r ∈ rows) :
    row key (key r) rows = some r := by
  cases hrow : row key (key r) rows with
  | none => exact absurd rfl (row_none_iff.mp hrow r hr)
  | some found =>
    have hsame := inj_on_of_nodup_map hdistinct (row_some_mem hrow) hr (row_some_key hrow)
    rw [hsame]

theorem row_append (more : List ρ) :
    row key k (rows ++ more) = (row key k rows).or (row key k more) := by
  simp [row, find?_append]

/-- A row inserted behind the others is found only where nothing was. -/
theorem row_insert (r : ρ) : row key k (rows ++ [r]) =
      (row key k rows).or (if key r = k then some r else none) := by
  rw [row_append]
  by_cases h : key r = k <;> simp [row, h]

variable {f : ρ → ρ}

theorem row_map (hkey : ∀ r, key (f r) = key r) :
    row key k (rows.map f) = (row key k rows).map f := by
  induction rows with
  | nil => rfl
  | cons r rows ih =>
    by_cases h : key r = k
    · simp [row, h, hkey]
    · simp [row, h, hkey]

omit [DecidableEq κ] in
theorem keys_map (hkey : ∀ r, key (f r) = key r) : (rows.map f).map key = rows.map key := by
  rw [map_map]
  exact map_congr_left (fun r _ => hkey r)

theorem keys_rewrite (hkey : ∀ r, key (f r) = key r) :
    (rewrite key k f rows).map key = rows.map key := by
  apply keys_map
  intro r
  split
  · exact hkey r
  · rfl

/-- A row behind an update is an updated row or one stored under another key. -/
theorem mem_rewrite {r' : ρ} (h : r' ∈ rewrite key k f rows) :
    (∃ r ∈ rows, key r = k ∧ r' = f r) ∨ (r' ∈ rows ∧ key r' ≠ k) := by
  obtain ⟨r, hr, rfl⟩ := mem_map.mp h
  by_cases hk : key r = k
  · exact Or.inl ⟨r, hr, hk, by rw [if_pos hk]⟩
  · exact Or.inr ⟨by rwa [if_neg hk], by rwa [if_neg hk]⟩

variable {keep : ρ → Bool}

/-- An update keeps a view of a selection of the rows when it keeps both for the
rows that it changes. -/
theorem map_filter_rewrite {β : Type} {view : ρ → β}
    (h : ∀ r ∈ rows, key r = k → keep (f r) = keep r ∧ view (f r) = view r) :
    ((rewrite key k f rows).filter keep).map view = (rows.filter keep).map view := by
  induction rows with
  | nil => rfl
  | cons r rows ih =>
    have hrest := ih (fun r' hr' => h r' (mem_cons_of_mem _ hr'))
    have hfirst : keep (if key r = k then f r else r) = keep r ∧
        view (if key r = k then f r else r) = view r := by
      split
      · next hk => exact h r (by simp) hk
      · exact ⟨rfl, rfl⟩
    simp only [rewrite, map_cons] at hrest ⊢
    simp only [filter_cons, hfirst.1]
    split
    · simp only [map_cons, hfirst.2, hrest]
    · exact hrest

theorem key_mem_of_row (h : row key k rows = some r) : k ∈ rows.map key :=
  row_some_key h ▸ mem_map_of_mem (row_some_mem h)

theorem row_rewrite_self (hkey : ∀ r, key (f r) = key r) :
    row key k (rewrite key k f rows) = (row key k rows).map f := by
  have hkeeps : ∀ r, key (if key r = k then f r else r) = key r := by
    intro r
    split
    · exact hkey r
    · rfl
  rw [rewrite, row_map hkeeps]
  cases hrow : row key k rows with
  | none => rfl
  | some r => simp [row_some_key hrow]

theorem row_rewrite_other (hkey : ∀ r, key (f r) = key r) (hne : k' ≠ k) :
    row key k' (rewrite key k f rows) = row key k' rows := by
  have hkeeps : ∀ r, key (if key r = k then f r else r) = key r := by
    intro r
    split
    · exact hkey r
    · rfl
  rw [rewrite, row_map hkeeps]
  cases hrow : row key k' rows with
  | none => rfl
  | some r =>
    have hr := row_some_key hrow
    have hother : key r ≠ k := by rw [hr]; exact hne
    simp [hother]

theorem rewrite_rewrite {f g : ρ → ρ} (hkey : ∀ r, key (f r) = key r) :
    rewrite key k g (rewrite key k f rows) = rewrite key k (g ∘ f) rows := by
  unfold rewrite
  rw [map_map]
  apply map_congr_left
  intro r _
  by_cases hk : key r = k
  · simp [hk, hkey]
  · simp [hk]

theorem rewrite_absent (h : row key k rows = none) : rewrite key k f rows = rows := by
  have hother := row_none_iff.mp h
  calc rewrite key k f rows = rows.map id :=
        map_congr_left (fun r hr => if_neg (hother r hr))
    _ = rows := map_id rows

theorem filter_rewrite (hkeep : ∀ r, keep (f r) = keep r) :
    (rewrite key k f rows).filter keep = rewrite key k f (rows.filter keep) := by
  unfold rewrite
  rw [filter_map]
  congr 1
  apply filter_congr
  intro r _
  by_cases hr : key r = k <;> simp [hr, hkeep]

theorem row_filter_of_key (hkeep : ∀ r, key r = k → keep r = true) :
    row key k (rows.filter keep) = row key k rows := by
  induction rows with
  | nil => rfl
  | cons r rows ih =>
    by_cases hk : key r = k
    · simp [row, hk, hkeep r hk]
    · by_cases hkept : keep r = true
      · simpa [row, hk, hkept] using ih
      · simpa [row, hk, hkept] using ih

@[simp] theorem row_erase_self : row key k (erase key k rows) = none := by
  rw [row_none_iff]
  intro r hr
  simpa [erase] using (mem_filter.mp hr).2

theorem row_erase_other (hne : k' ≠ k) : row key k' (erase key k rows) = row key k' rows := by
  apply row_filter_of_key
  intro r hr
  simpa [hr] using hne

end Tables
