import IndagoRev.Workbench.JobInvariant
import IndagoRev.Workbench.PublishedIndex

/-!
# Reindexing

The rows of a publication belong to its project, and depend on the layouts of this
project only. Publishing the results of one project again, on tables that keep the
rows of the others, therefore makes the rows of this project again.
-/

namespace Indago

open StdText Tables SharedTables Transactions JsonValues List

variable {sha256 : Text → Text} {parse : Text → Access Json}
  {normalize : StaticInput → Access StaticIndex}
variable {t t' v v' : IndexTables} {rows : IndexRows} {p : PublishedResult} {project : Text}

/-- All rows belong to one project. -/
structure IndexRows.Of (rows : IndexRows) (project : Text) : Prop where
  revision : rows.revision.project = project
  layout : ∀ r, rows.layout = some r → r.project = project
  head : ∀ r, rows.head = some r → r.project = project
  entities : ∀ r ∈ rows.entities, r.project = project
  relations : ∀ r ∈ rows.relations, r.project = project
  claims : ∀ r ∈ rows.claims, r.project = project

theorem revisionRow_project {b : Bool} {r : RevisionRow} (h : p.revisionRow sha256 b = .ok r) :
    r.project = p.project := by
  simp only [PublishedResult.revisionRow, except_bind_ok] at h
  obtain ⟨_, _, _, _, h⟩ := h
  cases h
  rfl

theorem layoutRow_project {found : Option LayoutRow} (h : p.layoutRow = .ok found) {r : LayoutRow}
    (hr : found = some r) : r.project = p.project := by
  subst hr
  unfold PublishedResult.layoutRow at h
  split at h
  · split at h
    · simp only [except_bind_ok] at h
      obtain ⟨_, _, h⟩ := h
      cases h
      rfl
    · cases h
  · cases h

variable {record : Json}

theorem entityRow_project {r : EntityRow} (h : p.entityRow record = .ok r) :
    r.project = p.project := by
  simp only [PublishedResult.entityRow, except_bind_ok] at h
  obtain ⟨_, _, _, _, _, _, _, _, _, _, h⟩ := h
  cases h
  rfl

theorem relationRow_project {r : RelationRow} (h : p.relationRow record = .ok r) :
    r.project = p.project := by
  simp only [PublishedResult.relationRow, except_bind_ok] at h
  obtain ⟨_, _, _, _, _, _, _, _, _, _, _, _, h⟩ := h
  cases h
  rfl

theorem claimRow_project {r : ClaimRow} (h : p.claimRow record = .ok r) :
    r.project = p.project := by
  simp only [PublishedResult.claimRow, except_bind_ok] at h
  obtain ⟨_, _, _, _, _, _, h⟩ := h
  cases h
  rfl

theorem rows_of {layout : Json} (h : p.rows sha256 normalize layout = .ok rows) :
    rows.Of p.project := by
  simp only [PublishedResult.rows, except_bind_ok] at h
  obtain ⟨_, _, _, _, _, _, _, _, _, hlayout, _, hrevision, _, hentities, _, hrelations, _, hclaims,
    h⟩ := h
  cases h
  refine ⟨revisionRow_project hrevision, ?_, ?_, ?_, ?_, ?_⟩
  · intro r hr
    split at hr
    · exact layoutRow_project hlayout hr
    · cases hr
  · intro r hr
    split at hr
    · cases hr
      rfl
    · cases hr
  · intro r hr
    obtain ⟨_, _, hok⟩ := except_mapM_mem _ hentities hr
    exact entityRow_project hok
  · intro r hr
    obtain ⟨_, _, hok⟩ := except_mapM_mem _ hrelations hr
    exact relationRow_project hok
  · intro r hr
    obtain ⟨_, _, hok⟩ := except_mapM_mem _ hclaims hr
    exact claimRow_project hok

namespace IndexTables

/-- The rows of a project are the same, in the same order. -/
structure SameOwned (project : Text) (t t' : IndexTables) : Prop where
  revisions : SharedTables.owned RevisionRow.project project t.revisions =
    SharedTables.owned RevisionRow.project project t'.revisions
  layouts : SharedTables.owned LayoutRow.project project t.layouts =
    SharedTables.owned LayoutRow.project project t'.layouts
  heads : SharedTables.owned AnalysisHead.project project t.heads =
    SharedTables.owned AnalysisHead.project project t'.heads
  entities : SharedTables.owned EntityRow.project project t.entities =
    SharedTables.owned EntityRow.project project t'.entities
  relations : SharedTables.owned RelationRow.project project t.relations =
    SharedTables.owned RelationRow.project project t'.relations
  claims : SharedTables.owned ClaimRow.project project t.claims =
    SharedTables.owned ClaimRow.project project t'.claims

/-- The rows of all other projects are the same, in the same order. -/
structure SameOthers (project : Text) (t t' : IndexTables) : Prop where
  revisions : others RevisionRow.project project t.revisions =
    others RevisionRow.project project t'.revisions
  layouts : others LayoutRow.project project t.layouts =
    others LayoutRow.project project t'.layouts
  heads : others AnalysisHead.project project t.heads = others AnalysisHead.project project t'.heads
  entities : others EntityRow.project project t.entities =
    others EntityRow.project project t'.entities
  relations : others RelationRow.project project t.relations =
    others RelationRow.project project t'.relations
  claims : others ClaimRow.project project t.claims = others ClaimRow.project project t'.claims

/-- The rows of the other projects stand in the second tables where they did in the
first. Layouts and heads are named by their project. -/
structure Fits (project : Text) (t t' : IndexTables) : Prop where
  revisions : SharedTables.Fits RevisionRow.project RevisionRow.revision project t.revisions
    t'.revisions
  entities : SharedTables.Fits EntityRow.project EntityRow.id project t.entities t'.entities
  relations : SharedTables.Fits RelationRow.project RelationRow.id project t.relations t'.relations
  claims : SharedTables.Fits ClaimRow.project ClaimRow.id project t.claims t'.claims

/-- No row is lost where keys are shared. -/
structure Grows (t t' : IndexTables) : Prop where
  revisions : t.revisions ⊆ t'.revisions
  entities : t.entities ⊆ t'.entities
  relations : t.relations ⊆ t'.relations
  claims : t.claims ⊆ t'.claims

/-- The primary keys. -/
structure Keyed (t : IndexTables) : Prop where
  revisions : (t.revisions.map RevisionRow.revision).Nodup
  entities : (t.entities.map EntityRow.id).Nodup
  relations : (t.relations.map RelationRow.id).Nodup
  claims : (t.claims.map ClaimRow.id).Nodup

theorem SameOwned.refl (project : Text) (t : IndexTables) : t.SameOwned project t :=
  ⟨rfl, rfl, rfl, rfl, rfl, rfl⟩

theorem SameOwned.symm (h : t.SameOwned project t') : t'.SameOwned project t :=
  ⟨h.revisions.symm, h.layouts.symm, h.heads.symm, h.entities.symm, h.relations.symm, h.claims.symm⟩

theorem SameOwned.trans (h : t.SameOwned project t') (h' : t'.SameOwned project v) :
    t.SameOwned project v :=
  ⟨h.revisions.trans h'.revisions, h.layouts.trans h'.layouts, h.heads.trans h'.heads,
    h.entities.trans h'.entities, h.relations.trans h'.relations, h.claims.trans h'.claims⟩

theorem SameOthers.refl (project : Text) (t : IndexTables) : t.SameOthers project t :=
  ⟨rfl, rfl, rfl, rfl, rfl, rfl⟩

theorem SameOthers.trans (h : t.SameOthers project t') (h' : t'.SameOthers project v) :
    t.SameOthers project v :=
  ⟨h.revisions.trans h'.revisions, h.layouts.trans h'.layouts, h.heads.trans h'.heads,
    h.entities.trans h'.entities, h.relations.trans h'.relations, h.claims.trans h'.claims⟩

theorem SameOthers.owned (h : t.SameOthers project t') {other : Text} (hne : other ≠ project) :
    t.SameOwned other t' where
  revisions := owned_eq_of_others h.revisions hne
  layouts := owned_eq_of_others h.layouts hne
  heads := owned_eq_of_others h.heads hne
  entities := owned_eq_of_others h.entities hne
  relations := owned_eq_of_others h.relations hne
  claims := owned_eq_of_others h.claims hne

theorem Grows.refl (t : IndexTables) : t.Grows t :=
  ⟨List.Subset.refl _, List.Subset.refl _, List.Subset.refl _, List.Subset.refl _⟩

theorem Grows.trans (h : t.Grows t') (h' : t'.Grows v) : t.Grows v :=
  ⟨List.Subset.trans h.revisions h'.revisions, List.Subset.trans h.entities h'.entities,
    List.Subset.trans h.relations h'.relations, List.Subset.trans h.claims h'.claims⟩

theorem Fits.mono (h : v.Fits project t') (hgrows : t.Grows v) : t.Fits project t' :=
  ⟨h.revisions.mono hgrows.revisions, h.entities.mono hgrows.entities,
    h.relations.mono hgrows.relations, h.claims.mono hgrows.claims⟩

theorem Fits.of_others (h : t.Fits project t') (hothers : t'.SameOthers project v) :
    t.Fits project v :=
  ⟨h.revisions.of_others hothers.revisions.symm, h.entities.of_others hothers.entities.symm,
    h.relations.of_others hothers.relations.symm, h.claims.of_others hothers.claims.symm⟩

end IndexTables

open IndexTables

theorem layout_key {a r : LayoutRow} (h : a.key = r.key) : a.project = r.project :=
  congrArg Prod.fst h

theorem head_key {a r : AnalysisHead} (h : a.key = r.key) : a.project = r.project :=
  congrArg Prod.fst h

theorem with_grows : t.Grows (t.with rows) :=
  ⟨subset_insertNew, subset_insertAll, subset_insertAll, subset_insertAll⟩

theorem with_keyed (h : t.Keyed) : (t.with rows).Keyed :=
  ⟨nodup_insertNew h.revisions, nodup_insertAll h.entities, nodup_insertAll h.relations,
    nodup_insertAll h.claims⟩

theorem with_others (hrows : rows.Of project) : t.SameOthers project (t.with rows) where
  revisions := (insertNew_others hrows.revision).symm
  layouts := by
    simp only [IndexTables.with]
    split
    · next r hr => exact (insertNew_others (hrows.layout r hr)).symm
    · rfl
  heads := by
    simp only [IndexTables.with]
    split
    · next r hr =>
        have hproject := hrows.head r hr
        symm
        apply upsert_others hproject
        · exact fun _ => rfl
        · exact fun a ha => (head_key ha).trans hproject
    · rfl
  entities := (insertAll_others hrows.entities).symm
  relations := (insertAll_others hrows.relations).symm
  claims := (insertAll_others hrows.claims).symm

/-- It writes the same rows wherever its project sees the same tables. -/
theorem with_owned (hown : t.SameOwned project t') (hrows : rows.Of project)
    (hfits : (t.with rows).Fits project t') : (t.with rows).SameOwned project (t'.with rows) where
  revisions := insertNew_owned hown.revisions hrows.revision hfits.revisions
  layouts := by
    simp only [IndexTables.with]
    split
    · next r hr =>
        exact insertNew_owned_of_key hown.layouts
          (fun a ha => (layout_key ha).trans (hrows.layout r hr))
    · exact hown.layouts
  heads := by
    simp only [IndexTables.with]
    split
    · next r hr =>
        apply upsert_owned hown.heads
        · exact fun _ => rfl
        · exact fun a ha => (head_key ha).trans (hrows.head r hr)
    · exact hown.heads
  entities := insertAll_owned hown.entities hrows.entities hfits.entities
  relations := insertAll_owned hown.relations hrows.relations hfits.relations
  claims := insertAll_owned hown.claims hrows.claims hfits.claims

theorem with_founded (hown : t.SameOwned project t') (hrows : rows.Of project)
    (hfits : (t.with rows).Fits project t') (h : t.Founded (t.with rows)) :
    t'.Founded (t'.with rows) := by
  have hsame := with_owned hown hrows hfits
  intro c hc
  rcases mem_insertAll hc with hold | hnew
  · exact Or.inl (mem_map_of_mem hold)
  have hproject : c.project = project := hrows.claims c hnew
  have hmem : c ∈ SharedTables.owned ClaimRow.project project (t.with rows).claims := by
    rw [hsame.claims]
    exact mem_owned.mpr ⟨hc, hproject⟩
  rcases h c (mem_owned.mp hmem).1 with hknown | hsubject
  · obtain ⟨a, ha, hid⟩ := mem_map.mp hknown
    obtain ⟨b, hb, hkey⟩ := mem_of_fits hown.claims (hfits.mono with_grows).claims ha
    exact Or.inl (mem_map.mpr ⟨b, hb, hkey.trans hid⟩)
  · obtain ⟨a, ha, hid⟩ := mem_map.mp hsubject
    have hentities : SharedTables.Fits EntityRow.project EntityRow.id project
        (t.with rows).entities (t'.with rows).entities :=
      hfits.entities.of_others (with_others hrows).entities.symm
    obtain ⟨b, hb, hkey⟩ := mem_of_fits hsame.entities hentities ha
    exact Or.inr (mem_map.mpr ⟨b, hb, hkey.trans hid⟩)

theorem insert_ok (h : t.insert rows = .ok v) : v = t.with rows ∧ t.Founded (t.with rows) := by
  unfold IndexTables.insert at h
  split at h
  · next hfounded =>
      cases h
      exact ⟨rfl, hfounded⟩
  · cases h

theorem newestLayout_same (h : t.SameOwned project t') (artifact : Text) :
    t.newestLayout project artifact = t'.newestLayout project artifact := by
  unfold IndexTables.newestLayout
  rw [h.layouts]

theorem persistIndex_ok (h : persistIndex sha256 normalize t p = .ok v) :
    ∃ rows, p.rows sha256 normalize (t.newestLayout p.project p.artifact) = .ok rows ∧
      rows.Of p.project ∧ v = t.with rows ∧ t.Founded v := by
  simp only [persistIndex, except_bind_ok] at h
  obtain ⟨rows, hrows, h⟩ := h
  obtain ⟨rfl, hfounded⟩ := insert_ok h
  exact ⟨rows, hrows, rows_of hrows, rfl, hfounded⟩

theorem persistIndex_grows (h : persistIndex sha256 normalize t p = .ok v) : t.Grows v := by
  obtain ⟨rows, _, _, rfl, _⟩ := persistIndex_ok h
  exact with_grows

theorem persistIndex_keyed (h : persistIndex sha256 normalize t p = .ok v) (hkeyed : t.Keyed) :
    v.Keyed := by
  obtain ⟨rows, _, _, rfl, _⟩ := persistIndex_ok h
  exact with_keyed hkeyed

theorem persistIndex_others (h : persistIndex sha256 normalize t p = .ok v) :
    t.SameOthers p.project v := by
  obtain ⟨rows, _, hrows, rfl, _⟩ := persistIndex_ok h
  exact with_others hrows

/-- A publication that one store took is taken by another one that looks the same to
its project, and looks the same afterwards. -/
theorem persistIndex_same (h : persistIndex sha256 normalize t p = .ok v)
    (hown : t.SameOwned p.project t') (hfits : v.Fits p.project t') :
    ∃ v', persistIndex sha256 normalize t' p = .ok v' ∧ v.SameOwned p.project v' ∧
      t'.SameOthers p.project v' := by
  obtain ⟨rows, hmade, hrows, rfl, hfounded⟩ := persistIndex_ok h
  have hfounded' := with_founded hown hrows hfits hfounded
  refine ⟨t'.with rows, ?_, with_owned hown hrows hfits, with_others hrows⟩
  simp only [persistIndex, except_bind_ok]
  refine ⟨rows, ?_, ?_⟩
  · rw [← newestLayout_same hown]
    exact hmade
  · rw [IndexTables.insert, if_pos hfounded']

/-- Publications, one after the other. -/
def replay (sha256 : Text → Text) (normalize : StaticInput → Access StaticIndex)
    (pubs : List PublishedResult) (t : IndexTables) : Access IndexTables :=
  pubs.foldlM (persistIndex sha256 normalize) t

variable {pubs : List PublishedResult}

theorem replay_cons : replay sha256 normalize (p :: pubs) t = .ok v ↔
      ∃ mid, persistIndex sha256 normalize t p = .ok mid ∧ replay sha256 normalize pubs mid = .ok v :=
  by rw [replay, foldlM_cons, except_bind_ok]; rfl

theorem replay_keeps (keeps : IndexTables → Prop)
    (hstep : ∀ t p v, keeps t → persistIndex sha256 normalize t p = .ok v → keeps v)
    (h : replay sha256 normalize pubs t = .ok v) (ht : keeps t) : keeps v :=
  except_foldlM_keeps keeps pubs (fun t p _ v => hstep t p v) ht h

theorem replay_grows (h : replay sha256 normalize pubs t = .ok v) : t.Grows v :=
  replay_keeps (t.Grows ·) (fun _ _ _ hgrows hok => hgrows.trans (persistIndex_grows hok)) h
    (.refl t)

/-- The publications of one project, repeated on tables that have the rows of the
others, make the rows of this project again. The induction is on the publications of
all projects: those of the others change nothing that this project sees. -/
theorem replay_owned (h : replay sha256 normalize pubs t = .ok v)
    (hown : t.SameOwned project t') (hfits : v.Fits project t') :
    ∃ v', replay sha256 normalize (pubs.filter (fun p => p.project = project)) t' = .ok v' ∧
      v.SameOwned project v' ∧ t'.SameOthers project v' := by
  induction pubs generalizing t t' with
  | nil =>
    cases h
    exact ⟨t', rfl, hown, .refl project t'⟩
  | cons p pubs ih =>
    obtain ⟨mid, hfirst, hrest⟩ := replay_cons.mp h
    by_cases hproject : p.project = project
    · subst hproject
      obtain ⟨mid', hfirst', hown', hothers⟩ :=
        persistIndex_same hfirst hown (hfits.mono (replay_grows hrest))
      obtain ⟨v', hrest', hsame, hothers'⟩ := ih hrest hown' (hfits.of_others hothers)
      refine ⟨v', ?_, hsame, hothers.trans hothers'⟩
      rw [filter_cons_of_pos (by simp)]
      exact replay_cons.mpr ⟨mid', hfirst', hrest'⟩
    · have hown' : mid.SameOwned project t' :=
        ((persistIndex_others hfirst).owned (Ne.symm hproject)).symm.trans hown
      obtain ⟨v', hrest', hsame, hothers⟩ := ih hrest hown' hfits
      refine ⟨v', ?_, hsame, hothers⟩
      rw [filter_cons_of_neg (by simpa using hproject)]
      exact hrest'

end Indago
