import IndagoRev.Neighborhoods
import IndagoRev.Workbench.EvidenceGraph

/-!
# What the search in the evidence graph meets

The tables are those that `persist_index` writes: columns repeat fields of the records,
and ids are not empty and stand for one row.  Over such tables a query meets rows of its
filter, a relation is followed to the entities that its ends are looked up by, and the
search meets what lies within its depth, all of it when nothing has been cut.
-/

namespace Indago

open StdText JsonValues JsonValues.Json Cursors Neighborhoods Transactions List

/-- A text field of a record, or the empty text. -/
def textIn (record : Json) (key : Text) : Text :=
  match record.get? key with
  | some (.str t) => t
  | _ => []

/-- The anchor of a location of a record, or the empty text. -/
def anchorIn (record : Json) (key : Text) : Text :=
  match record.get? key with
  | some loc => textIn loc "anchor_id"
  | none => []

structure ListedRow.WrittenEntity (r : ListedRow) : Prop where
  id : r.record.get? "id" = some (.str r.id)
  named : r.id ≠ []
  anchor : r.anchor = anchorIn r.record "location"

structure ListedRow.WrittenRelation (t : ListedRow) : Prop where
  id : t.record.get? "id" = some (.str t.id)
  kind : t.record.get? "kind" = some (.str t.kind)
  entity : ∀ side : GraphSide, side.entity t = textIn t.record side.entityKey
  anchor : ∀ side : GraphSide, side.anchor t = anchorIn t.record side.locationKey
  named : ∀ side : GraphSide, t.record.get? side.entityKey ≠ some (.str [])
  anchored : ∀ side : GraphSide, ∀ loc, t.record.get? side.locationKey = some loc →
    loc.get? "anchor_id" ≠ some (.str [])

/-- The tables of entities and relations as `persist_index` writes them. -/
structure ListedStore.Written (store : ListedStore) : Prop where
  entityIds : ((store.index .entities).map ListedRow.id).Nodup
  relationIds : ((store.index .relations).map ListedRow.id).Nodup
  entities : ∀ r ∈ store.index .entities, r.WrittenEntity
  relations : ∀ t ∈ store.index .relations, t.WrittenRelation

theorem eq_of_id {rows : List ListedRow} (hnodup : (rows.map ListedRow.id).Nodup)
    {r r' : ListedRow} (hr : r ∈ rows) (hr' : r' ∈ rows) (h : r.id = r'.id) : r = r' := by
  induction rows with
  | nil => cases hr
  | cons first rest ih =>
    rw [map_cons, nodup_cons] at hnodup
    rcases mem_cons.mp hr with heq | hrest
    · rcases mem_cons.mp hr' with heq' | hrest'
      · rw [heq, heq']
      · rw [heq] at h
        exact absurd (mem_map.mpr ⟨r', hrest', h.symm⟩) hnodup.1
    · rcases mem_cons.mp hr' with heq' | hrest'
      · rw [heq'] at h
        exact absurd (mem_map.mpr ⟨r, hrest, h⟩) hnodup.1
      · exact ih hnodup.2 hrest hrest'

section Spec

variable (store : ListedStore) (project : Text) (req : GraphRequest)

/-- An entity that the seed filter matches. -/
def IsSeed (r : ListedRow) : Prop :=
  ∃ address, req.seeds.canonical = .ok address ∧ r ∈ listedRows store project address req.seeds

/-- A current relation of the kinds that are asked for, at an entity. -/
structure Follows (r t : ListedRow) : Prop where
  row : t ∈ store.index .relations
  current : store.isHead t = true
  project : t.project = project
  artifact : asks req.artifact t.artifact = true
  kind : req.kinds = [] ∨ t.kind ∈ req.kinds
  entry : ∃ side ∈ req.entries, matchesSide r.id r.anchor t side = true

/-- An entity of the project, and of the artifact that is asked for. -/
structure InScope (r : ListedRow) : Prop where
  row : r ∈ store.index .entities
  project : r.project = project
  artifact : asks req.artifact r.artifact = true

variable (t r : ListedRow) (side : GraphSide)

/-- An entity at an end of a relation: by its id, or current at its location. -/
def AtEnd : Prop :=
  r.id = side.entity t ∨
    (side.anchor t ≠ [] ∧ r.anchor = side.anchor t ∧ store.isHead r = true)

/-- An entity at an end of a relation, found by the location alone where there is one. -/
def FoundAtEnd : Prop :=
  if side.anchor t ≠ [] then r.anchor = side.anchor t ∧ store.isHead r = true
  else r.id = side.entity t

/-- A relation leads to the entities at the ends that a request asks for. -/
def LeadsTo : Prop :=
  InScope store project req r ∧ ∃ side ∈ req.sides, AtEnd store t r side

def Finds : Prop :=
  InScope store project req r ∧ ∃ side ∈ req.sides, FoundAtEnd store t r side

end Spec

variable {store : ListedStore} {project : Text} {req : GraphRequest}

theorem leadsTo_of_finds {t r : ListedRow} (h : Finds store project req t r) :
    LeadsTo store project req t r := by
  obtain ⟨hscope, side, hside, hfound⟩ := h
  refine ⟨hscope, side, hside, ?_⟩
  unfold FoundAtEnd at hfound
  split at hfound
  · next hanchor => exact Or.inr ⟨hanchor, hfound⟩
  · exact Or.inl hfound

theorem indexShown_get? {r : ListedRow} {row : Json} (h : indexShown store r = .ok row)
    {key : Text} (hfreshness : key ≠ "freshness") (hnative : key ≠ "native")
    (hvalue : key ≠ "value") (hname : key ≠ "name")
    (homitted : key ≠ "payload_omitted") : row.get? key = r.record.get? key := by
  unfold indexShown at h
  rw [except_bind_ok] at h
  obtain ⟨fresh, hfresh, h⟩ := h
  have hkeep := put_get?_ne hfresh hfreshness
  split at h
  · unfold shortened at h
    simp only [except_bind_ok] at h
    obtain ⟨row₁, h₁, row₂, h₂, name, -, h⟩ := h
    cases hcut : cutBytes 4096 name with
    | none =>
      rw [hcut] at h
      cases h
    | some cut =>
      rw [hcut] at h
      simp only [except_bind_ok] at h
      obtain ⟨row₃, h₃, h⟩ := h
      rw [put_get?_ne h homitted, put_get?_ne h₃ hname, drop_get? h₂, if_neg hvalue,
        drop_get? h₁, if_neg hnative, hkeep]
  · cases h
    exact hkeep

theorem brief_get? {record shown : Json} (h : brief record = .ok shown) {key : Text}
    (hnative : key ≠ "native") (homitted : key ≠ "native_payload_omitted") :
    shown.get? key = record.get? key := by
  unfold brief at h
  rw [except_bind_ok] at h
  obtain ⟨dropped, hdrop, hput⟩ := h
  rw [put_get?_ne hput homitted, drop_get? hdrop, if_neg hnative]

/-- The anchor that is read from a record is the one of its row. -/
theorem anchorOf_eq {r : ListedRow} (hr : r.WrittenEntity) {record : Json}
    (hrecord : record.get? "location" = r.record.get? "location") {anchor : Text}
    (h : anchorOf record = .ok anchor) : anchor = r.anchor := by
  rw [hr.anchor, anchorIn, ← hrecord]
  unfold anchorOf at h
  rw [except_bind_ok] at h
  obtain ⟨loc, hloc, h⟩ := h
  cases record with
  | obj fields =>
    have hget : loc = ((Json.obj fields).get? "location").getD .null := by
      rw [value_eq rfl] at hloc
      exact (Except.ok.inj hloc).symm
    cases hfield : (Json.obj fields).get? "location" with
    | none =>
      rw [hfield] at hget
      subst hget
      cases h
      rfl
    | some v =>
      rw [hfield] at hget
      have hv : loc = v := hget
      subst hv
      cases loc with
      | obj inner =>
        simp only [isObject, if_true, valueText, valueWith] at h
        simp only [textIn, get?]
        cases hlookup : inner.lookup "anchor_id".toList with
        | none =>
          rw [hlookup] at h
          cases h
          rfl
        | some w =>
          rw [hlookup] at h
          cases w with
          | str a =>
            cases h
            rfl
          | null | bool | int | real | arr | obj => cases h
      | null | bool | int | real | str | arr =>
        cases h
        rfl
  | null | bool | int | real | str | arr => cases hloc

/-- The rows of a page, and all rows where no page is left. -/
structure Queried (store : ListedStore) (rows : List ListedRow)
    (records : List (ListedRow × Json)) (next : Option Nat) : Prop where
  shown : ∀ p ∈ records, p.1 ∈ rows ∧ indexShown store p.1 = .ok p.2
  all : next = none → ∀ r ∈ rows, ∃ p ∈ records, p.1 = r

theorem indexRows_ok {f : IndexFilter} {limit : Nat} {records : List (ListedRow × Json)}
    {next : Option Nat} (h : indexRows store project f limit = .ok (records, next)) :
    ∃ address, f.canonical = .ok address ∧
      Queried store (listedRows store project address f) records next := by
  unfold indexRows at h
  rw [except_bind_ok] at h
  obtain ⟨address, haddress, h⟩ := h
  refine ⟨address, haddress, ?_⟩
  have hpage := page_ok (clampLimit_pos limit) h
  have hshows := hpage.shows
  rw [drop_zero] at hshows
  have hemit : ∀ {r : ListedRow} {p : ListedRow × Json},
      (indexShown store r).map (fun row => (r, row)) = .ok p →
        p.1 = r ∧ indexShown store r = .ok p.2 := by
    intro r p hp
    cases hrow : indexShown store r with
    | error e =>
      rw [hrow] at hp
      cases hp
    | ok row =>
      rw [hrow] at hp
      cases hp
      exact ⟨rfl, rfl⟩
  constructor
  · intro p hp
    obtain ⟨r, hr, hshow⟩ := forall₂_mem_right hshows hp
    obtain ⟨heq, hrow⟩ := hemit hshow.2
    subst heq
    exact ⟨mem_of_mem_take hr, hrow⟩
  · intro hnone r hr
    have hend : ¬ 0 + records.length < (listedRows store project address f).length := by
      intro hless
      have hnext := hpage.goesOn
      rw [hnone, if_pos hless] at hnext
      cases hnext
    rw [take_of_length_le (by omega)] at hshows
    obtain ⟨p, hp, hshow⟩ := forall₂_mem_left hshows hr
    exact ⟨p, hp, (hemit hshow.2).1⟩

end Indago
