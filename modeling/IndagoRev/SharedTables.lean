import IndagoRev.Tables

/-!
# Tables that several owners share

Every row has an owner and a key. An insertion that ignores a key that is there
already depends on the rows of all owners, so that a sequence of insertions can
be repeated for one owner only where the keys of the others stand in their place.
-/

namespace SharedTables

open Tables List

variable {κ ρ π : Type} [DecidableEq κ] [DecidableEq π]

/-- The rows of one owner, in their order. -/
def owned (owner : ρ → π) (p : π) (rows : List ρ) : List ρ := rows.filter (fun r => owner r = p)

/-- The rows of everyone else. -/
def others (owner : ρ → π) (p : π) (rows : List ρ) : List ρ := rows.filter (fun r => owner r ≠ p)

/-- `INSERT OR IGNORE`. -/
def insertNew (key : ρ → κ) (r : ρ) (rows : List ρ) : List ρ :=
  match row key (key r) rows with
  | some _ => rows
  | none => rows ++ [r]

def insertAll (key : ρ → κ) : List ρ → List ρ → List ρ
  | [], rows => rows
  | r :: rs, rows => insertAll key rs (insertNew key r rows)

/-- `INSERT … ON CONFLICT DO UPDATE`. -/
def upsert (key : ρ → κ) (f : ρ → ρ) (r : ρ) (rows : List ρ) : List ρ :=
  match row key (key r) rows with
  | some _ => rewrite key (key r) f rows
  | none => rows ++ [r]

variable {owner : ρ → π} {key : ρ → κ} {p q : π} {r : ρ} {f : ρ → ρ}
  {rs rows rows' more : List ρ}

variable {a : ρ}

@[simp] theorem mem_owned : a ∈ owned owner p rows ↔ a ∈ rows ∧ owner a = p := by
  simp [owned]

@[simp] theorem mem_others : a ∈ others owner p rows ↔ a ∈ rows ∧ owner a ≠ p := by
  simp [others]

/-- The rows of one owner are among those that are not another's. -/
theorem owned_others (h : q ≠ p) : owned owner q (others owner p rows) = owned owner q rows := by
  unfold owned others
  rw [filter_filter]
  apply filter_congr
  intro a _
  by_cases ha : owner a = q
  · simp [ha, h]
  · simp [ha]

theorem owned_others_self : owned owner p (others owner p rows) = [] := by
  unfold owned
  rw [filter_eq_nil_iff]
  intro a ha
  simpa using (mem_others.mp ha).2

theorem others_others : others owner p (others owner p rows) = others owner p rows := by
  unfold others
  rw [filter_filter]
  simp

/-- Whose rows look the same to every other owner look the same to them. -/
theorem owned_eq_of_others (h : others owner p rows = others owner p rows') (hq : q ≠ p) :
    owned owner q rows = owned owner q rows' := by
  rw [← owned_others hq, h, owned_others hq]

theorem insertNew_cases (key : ρ → κ) (r : ρ) (rows : List ρ) :
    (insertNew key r rows = rows ∧ ∃ a ∈ rows, key a = key r) ∨
      (insertNew key r rows = rows ++ [r] ∧ ∀ a ∈ rows, key a ≠ key r) := by
  unfold insertNew
  cases hrow : row key (key r) rows with
  | some a => exact Or.inl ⟨rfl, a, row_some_mem hrow, row_some_key hrow⟩
  | none => exact Or.inr ⟨rfl, row_none_iff.mp hrow⟩

theorem upsert_cases (key : ρ → κ) (f : ρ → ρ) (r : ρ) (rows : List ρ) :
    (upsert key f r rows = rewrite key (key r) f rows ∧ ∃ a ∈ rows, key a = key r) ∨
      (upsert key f r rows = rows ++ [r] ∧ ∀ a ∈ rows, key a ≠ key r) := by
  unfold upsert
  cases hrow : row key (key r) rows with
  | some a => exact Or.inl ⟨rfl, a, row_some_mem hrow, row_some_key hrow⟩
  | none => exact Or.inr ⟨rfl, row_none_iff.mp hrow⟩

theorem subset_insertNew : rows ⊆ insertNew key r rows := by
  rcases insertNew_cases key r rows with ⟨hsame, _⟩ | ⟨hnew, _⟩
  · rw [hsame]
    exact List.Subset.refl _
  · rw [hnew]
    exact subset_append_left _ _

theorem subset_insertAll : rows ⊆ insertAll key rs rows := by
  induction rs generalizing rows with
  | nil => exact List.Subset.refl _
  | cons r rs ih => exact List.Subset.trans subset_insertNew ih

theorem mem_insertAll (h : a ∈ insertAll key rs rows) : a ∈ rows ∨ a ∈ rs := by
  induction rs generalizing rows with
  | nil => exact Or.inl h
  | cons r rs ih =>
    rcases ih h with hmem | hmem
    · rcases insertNew_cases key r rows with ⟨hsame, _⟩ | ⟨hnew, _⟩
      · rw [hsame] at hmem
        exact Or.inl hmem
      rw [hnew] at hmem
      rcases mem_append.mp hmem with hmem | hmem
      · exact Or.inl hmem
      · rw [mem_singleton.mp hmem]
        exact Or.inr mem_cons_self
    · exact Or.inr (mem_cons_of_mem _ hmem)

theorem insertNew_others (hr : owner r = p) :
    others owner p (insertNew key r rows) = others owner p rows := by
  rcases insertNew_cases key r rows with ⟨hsame, _⟩ | ⟨hnew, _⟩
  · rw [hsame]
  · rw [hnew]
    simp [others, filter_append, hr]

theorem insertAll_others (hrs : ∀ r ∈ rs, owner r = p) :
    others owner p (insertAll key rs rows) = others owner p rows := by
  induction rs generalizing rows with
  | nil => rfl
  | cons r rs ih =>
    have hrest : others owner p (insertAll key rs (insertNew key r rows)) =
        others owner p (insertNew key r rows) :=
      ih (fun a ha => hrs a (mem_cons_of_mem _ ha))
    exact hrest.trans (insertNew_others (hrs r mem_cons_self))

theorem upsert_others (hr : owner r = p) (hf : ∀ a, owner (f a) = owner a)
    (hkey : ∀ a, key a = key r → owner a = p) :
    others owner p (upsert key f r rows) = others owner p rows := by
  rcases upsert_cases key f r rows with ⟨hold, _⟩ | ⟨hnew, _⟩
  · rw [hold, others, filter_rewrite (fun a => by rw [hf])]
    apply rewrite_absent
    rw [row_none_iff]
    intro a ha hsame
    exact (mem_others.mp ha).2 (hkey a hsame)
  · rw [hnew]
    simp [others, filter_append, hr]

theorem nodup_insertNew (h : (rows.map key).Nodup) : ((insertNew key r rows).map key).Nodup := by
  rcases insertNew_cases key r rows with ⟨hsame, _⟩ | ⟨hnew, hfresh⟩
  · rw [hsame]
    exact h
  rw [hnew, map_append, nodup_append]
  refine ⟨h, nodup_singleton _, ?_⟩
  intro k hk k' hk' hsame
  obtain ⟨a, ha, rfl⟩ := mem_map.mp hk
  rw [mem_singleton.mp hk'] at hsame
  exact hfresh a ha hsame

theorem nodup_insertAll (h : (rows.map key).Nodup) : ((insertAll key rs rows).map key).Nodup := by
  induction rs generalizing rows with
  | nil => exact h
  | cons r rs ih => exact ih (nodup_insertNew h)

/-- The second table fits the first one for an owner: the keys of the others in it
are those of the rows of others in the first. -/
def Fits (owner : ρ → π) (key : ρ → κ) (p : π) (rows rows' : List ρ) : Prop :=
  ∀ a ∈ rows, owner a = p ↔ key a ∉ (others owner p rows').map key

omit [DecidableEq κ] in
theorem Fits.mono (h : Fits owner key p more rows') (hsub : rows ⊆ more) :
    Fits owner key p rows rows' :=
  fun a ha => h a (hsub ha)

omit [DecidableEq κ] in
theorem Fits.of_others (h : Fits owner key p rows rows')
    (hothers : others owner p more = others owner p rows') : Fits owner key p rows more := by
  intro a ha
  rw [hothers]
  exact h a ha

omit [DecidableEq κ] in
theorem fits_of_nodup (hnodup : (rows.map key).Nodup)
    (hsame : ∀ a, a ∈ others owner p rows' ↔ a ∈ others owner p rows) :
    Fits owner key p rows rows' := by
  intro a ha
  constructor
  · intro hown hmem
    obtain ⟨b, hb, hkey⟩ := mem_map.mp hmem
    obtain ⟨hrow, hother⟩ := mem_others.mp ((hsame b).mp hb)
    have heq : b = a := inj_on_of_nodup_map hnodup hrow ha hkey
    exact hother (heq ▸ hown)
  · intro hnone
    by_contra hother
    exact hnone (mem_map_of_mem ((hsame a).mpr (mem_others.mpr ⟨ha, hother⟩)))

omit [DecidableEq κ] in
theorem mem_of_fits (hown : owned owner p rows = owned owner p rows')
    (hfits : Fits owner key p rows rows') (ha : a ∈ rows) : ∃ b ∈ rows', key b = key a := by
  by_cases howner : owner a = p
  · have hmem : a ∈ owned owner p rows' := hown ▸ mem_owned.mpr ⟨ha, howner⟩
    exact ⟨a, (mem_owned.mp hmem).1, rfl⟩
  have hkeys : key a ∈ (others owner p rows').map key := by
    by_contra hnone
    exact howner ((hfits a ha).mpr hnone)
  obtain ⟨b, hb, hba⟩ := mem_map.mp hkeys
  exact ⟨b, (mem_others.mp hb).1, hba⟩

theorem insertNew_owned (hown : owned owner p rows = owned owner p rows') (hr : owner r = p)
    (hfits : Fits owner key p (insertNew key r rows) rows') :
    owned owner p (insertNew key r rows) = owned owner p (insertNew key r rows') := by
  rcases insertNew_cases key r rows with ⟨hsame, a, ha, hkey⟩ | ⟨hnew, hfresh⟩
  · obtain ⟨b, hb, hba⟩ := mem_of_fits hown (hfits.mono subset_insertNew) ha
    rcases insertNew_cases key r rows' with ⟨hsame', _⟩ | ⟨_, hfresh'⟩
    · rw [hsame, hsame', hown]
    · exact absurd (hba.trans hkey) (hfresh' b hb)
  have habsent : ∀ b ∈ rows', key b ≠ key r := by
    intro b hb hbr
    by_cases howner : owner b = p
    · have hmem : b ∈ owned owner p rows := hown ▸ mem_owned.mpr ⟨hb, howner⟩
      exact hfresh b (mem_owned.mp hmem).1 hbr
    have hr' : r ∈ insertNew key r rows := by
      rw [hnew]
      simp
    apply (hfits r hr').mp hr
    rw [← hbr]
    exact mem_map_of_mem (mem_others.mpr ⟨hb, howner⟩)
  rcases insertNew_cases key r rows' with ⟨_, b, hb, hbr⟩ | ⟨hnew', _⟩
  · exact absurd hbr (habsent b hb)
  · rw [hnew, hnew']
    simp only [owned, filter_append] at hown ⊢
    rw [hown]

theorem insertAll_owned (hown : owned owner p rows = owned owner p rows')
    (hrs : ∀ r ∈ rs, owner r = p) (hfits : Fits owner key p (insertAll key rs rows) rows') :
    owned owner p (insertAll key rs rows) = owned owner p (insertAll key rs rows') := by
  induction rs generalizing rows rows' with
  | nil => exact hown
  | cons r rs ih =>
    have hr : owner r = p := hrs r mem_cons_self
    apply ih _ (fun a ha => hrs a (mem_cons_of_mem _ ha))
    · exact hfits.of_others (insertNew_others hr)
    · exact insertNew_owned hown hr (hfits.mono subset_insertAll)

omit [DecidableEq κ] in
/-- Where the key names the owner, only the rows of the owner count. -/
theorem mem_key_owned (hown : owned owner p rows = owned owner p rows')
    (hkey : ∀ a, key a = key r → owner a = p) :
    (∃ a ∈ rows, key a = key r) ↔ ∃ a ∈ rows', key a = key r := by
  constructor
  · rintro ⟨a, ha, hsame⟩
    have hmem : a ∈ owned owner p rows' := hown ▸ mem_owned.mpr ⟨ha, hkey a hsame⟩
    exact ⟨a, (mem_owned.mp hmem).1, hsame⟩
  · rintro ⟨a, ha, hsame⟩
    have hmem : a ∈ owned owner p rows := hown ▸ mem_owned.mpr ⟨ha, hkey a hsame⟩
    exact ⟨a, (mem_owned.mp hmem).1, hsame⟩

theorem insertNew_owned_of_key (hown : owned owner p rows = owned owner p rows')
    (hkey : ∀ a, key a = key r → owner a = p) :
    owned owner p (insertNew key r rows) = owned owner p (insertNew key r rows') := by
  have hiff := mem_key_owned hown hkey
  rcases insertNew_cases key r rows with ⟨hsame, hold⟩ | ⟨hnew, hfresh⟩
  · rcases insertNew_cases key r rows' with ⟨hsame', _⟩ | ⟨_, hfresh'⟩
    · rw [hsame, hsame', hown]
    · obtain ⟨b, hb, hbr⟩ := hiff.mp hold
      exact absurd hbr (hfresh' b hb)
  rcases insertNew_cases key r rows' with ⟨_, hold'⟩ | ⟨hnew', _⟩
  · obtain ⟨b, hb, hbr⟩ := hiff.mpr hold'
    exact absurd hbr (hfresh b hb)
  · rw [hnew, hnew']
    simp only [owned, filter_append] at hown ⊢
    rw [hown]

theorem upsert_owned (hown : owned owner p rows = owned owner p rows')
    (hf : ∀ a, owner (f a) = owner a) (hkey : ∀ a, key a = key r → owner a = p) :
    owned owner p (upsert key f r rows) = owned owner p (upsert key f r rows') := by
  have hiff := mem_key_owned hown hkey
  rcases upsert_cases key f r rows with ⟨hsame, hold⟩ | ⟨hnew, hfresh⟩
  · rcases upsert_cases key f r rows' with ⟨hsame', _⟩ | ⟨_, hfresh'⟩
    · rw [hsame, hsame', owned, owned, filter_rewrite (fun a => by rw [hf]),
        filter_rewrite (fun a => by rw [hf])]
      exact congrArg (rewrite key (key r) f) hown
    · obtain ⟨b, hb, hbr⟩ := hiff.mp hold
      exact absurd hbr (hfresh' b hb)
  · rcases upsert_cases key f r rows' with ⟨_, hold'⟩ | ⟨hnew', _⟩
    · obtain ⟨b, hb, hbr⟩ := hiff.mpr hold'
      exact absurd hbr (hfresh b hb)
    · rw [hnew, hnew']
      simp only [owned, filter_append] at hown ⊢
      rw [hown]

end SharedTables
