import IndagoRev.Workbench.Listings

/-!
# What a visit of all pages shows

A visit follows the offsets from 0 on until a page names none.  It shows every row once
in the declared order, unless `index_query` meets a record that is too long for a page
and whose name it cannot cut after 4096 bytes.
-/

namespace Indago

open StdText JsonValues JsonValues.Json Cursors

theorem utf8Length_nil : utf8Length [] = 0 := rfl

theorem utf8Length_cons (c : Char) (t : Text) :
    utf8Length (c :: t) = c.utf8Size + utf8Length t := by
  simp [utf8Length]

theorem utf8Length_append (s t : Text) : utf8Length (s ++ t) = utf8Length s + utf8Length t := by
  simp [utf8Length]

theorem utf8Length_replicate (n : Nat) (c : Char) :
    utf8Length (List.replicate n c) = n * c.utf8Size := by
  simp [utf8Length]

theorem length_le_utf8Length (t : Text) : t.length ≤ utf8Length t := by
  induction t with
  | nil => exact Nat.zero_le _
  | cons c rest ih =>
    have hc : 0 < c.utf8Size := Char.utf8Size_pos c
    simp only [utf8Length, List.map_cons, List.sum_cons, List.length_cons] at ih ⊢
    omega

theorem cutBytes_append (s t : Text) (n : Nat) :
    cutBytes (utf8Length s + n) (s ++ t) = (cutBytes n t).map (s ++ ·) := by
  induction s with
  | nil => simp [utf8Length]
  | cons c rest ih =>
    have hlength : utf8Length (c :: rest) + n = c.utf8Size + (utf8Length rest + n) := by
      simp only [utf8Length, List.map_cons, List.sum_cons]
      omega
    rw [hlength, List.cons_append, cutBytes, if_pos (Nat.le_add_right _ _),
      Nat.add_sub_cancel_left, ih, Option.map_map]
    rfl

theorem length_le_quoted (t : Text) : t.length ≤ (quoted t).length := by
  have hescape : ∀ c : Char, 1 ≤ (escape c).length := by
    intro c
    unfold escape
    repeat' split
    all_goals simp
  have hflat : t.length ≤ (t.flatMap escape).length := by
    induction t with
    | nil => exact Nat.zero_le _
    | cons c rest ih =>
      have hc := hescape c
      rw [List.flatMap_cons, List.length_append, List.length_cons]
      omega
  unfold quoted
  simp only [List.length_cons, List.length_append, List.length_nil]
  omega

variable (store : ListedStore) (r : ListedRow)

/-- The fields of a record with its freshness. -/
def freshFields : List (Text × Json) :=
  insertField "freshness"
    (.str (if store.isHead r then "current" else "superseded")) r.fields

theorem freshRecord_eq : freshRecord store r = .ok (.obj (freshFields store r)) := rfl

/-- A name that is missing, or a text that has a place to be cut after 4096 bytes. -/
def CutsClean (name : Option Json) : Prop :=
  match name with
  | none => True
  | some (.str t) => cutBytes 4096 t ≠ none
  | some _ => False

/-- A record is short enough for a page, or its name can be cut. -/
def Presentable : Prop :=
  oversized (.obj (freshFields store r)) = true → CutsClean (r.fields.lookup "name".toList)

/-- A record that is too long is shortened when its name can be cut. -/
theorem shortened_iff {fields : List (Text × Json)} :
    (∃ row, shortened (.obj fields) = .ok row) ↔ CutsClean (fields.lookup "name".toList) := by
  have hname : ((fields.filter (fun f => f.1 != "native".toList)).filter
      (fun f => f.1 != "value".toList)).lookup "name".toList = fields.lookup "name".toList := by
    rw [lookup_filter_ne (by decide), lookup_filter_ne (by decide)]
  unfold shortened
  simp only [drop, bind, Except.bind, valueText, valueWith, hname]
  cases fields.lookup "name".toList with
  | none => simp [CutsClean, cutBytes, put]
  | some v =>
    cases v with
    | str t =>
      simp only [asText, CutsClean]
      cases cutBytes 4096 t with
      | none => simp
      | some cut => simp [put]
    | null | bool | int | real | arr | obj => simp [asText, CutsClean]

theorem indexShown_iff : (∃ row, indexShown store r = .ok row) ↔ Presentable store r := by
  have hname : (freshFields store r).lookup "name".toList = r.fields.lookup "name".toList := by
    unfold freshFields
    rw [lookup_insertField, if_neg (by decide)]
  unfold indexShown Presentable
  rw [freshRecord_eq]
  simp only [bind, Except.bind]
  split
  · next hlong =>
      rw [shortened_iff, hname]
      exact ⟨fun h _ => h, fun h => h hlong⟩
  · next hshort => exact ⟨fun _ hlong => absurd hlong hshort, fun _ => ⟨_, rfl⟩⟩

/-- A listing that is asked for in pages. -/
inductive Listing where
  | evidence (id : Text)
  | functions (artifact : Text)
  | functionViews (id : Text)
  | index (filter : IndexFilter)

section Visits

variable (sha256 : Text → Text) (parse : Text → Access Json)
variable (store : ListedStore) (project : Text)

/-- The page of a listing at an offset. -/
def Listing.page (limit : Nat) : Listing → Nat → Access (List Json × Option Nat)
  | .evidence id => evidencePage sha256 parse store project id limit
  | .functions artifact => functionsPage store project artifact limit
  | .functionViews id => viewsPage store project id limit
  | .index f => indexPage store project f limit

/-- The matching records in the declared order, each as a page shows it. -/
def Listing.shown : Listing → List (Access Json)
  | .evidence id =>
    (listedEvidence store project id).map (evidenceShown sha256 parse store id)
  | .functions artifact =>
    (listedFunctions store project artifact).map (fun r => .ok (functionShown r))
  | .functionViews id => (listedViews store id).map (fun r => .ok (viewShown r))
  | .index f =>
    match f.canonical with
    | .ok address => (listedRows store project address f).map (indexShown store)
    | .error _ => []

/-- A request that is not refused: what it names is there and unchanged. -/
def Listing.Accepted : Listing → Prop
  | .evidence id => id = [] ∨
      (listedEvidence store project id ≠ [] ∧ ∀ r ∈ listedEvidence store project id, ∃ text native,
          store.objects r.sha = some text ∧ sha256 text = r.sha ∧ parse text = .ok native)
  | .functions _ => True
  | .functionViews id => ∃ r ∈ store.functions, r.project = project ∧ r.id = id
  | .index f => ∃ address, f.canonical = .ok address

/-- Following the offsets from 0 on comes to an end, and shows every matching record once
in the declared order. -/
def Listing.VisitsAll (limit : Nat) (listing : Listing) : Prop :=
  ∃ items, Visit (listing.page sha256 parse store project limit) 0 items ∧
    listing.shown sha256 parse store project = items.map .ok

/-- Every record that `index_query` matches is presentable. -/
def Listing.Fits : Listing → Prop
  | .index f => ∀ address, f.canonical = .ok address →
      ∀ r ∈ listedRows store project address f, Presentable store r
  | _ => True

variable {sha256 parse store project} {id : Text}

theorem evidenceShown_total (h : Listing.Accepted sha256 parse store project (.evidence id)) :
    ∀ r ∈ listedEvidence store project id, ∃ item,
      evidenceShown sha256 parse store id r = .ok item := by
  intro r hr
  unfold evidenceShown
  rcases h with hall | ⟨_, hintact⟩
  · rw [if_pos hall]
    exact ⟨_, rfl⟩
  by_cases hid : id = []
  · rw [if_pos hid]
    exact ⟨_, rfl⟩
  obtain ⟨text, native, hobject, hsha, hparse⟩ := hintact r hr
  rw [if_neg hid, hobject]
  simp only [hsha, ne_eq, not_true, if_false, hparse, bind, Except.bind]
  exact ⟨_, rfl⟩

variable {limit : Nat}

theorem evidence_visitsAll (hproject : project ∈ store.projects)
    (h : Listing.Accepted sha256 parse store project (.evidence id)) :
    Listing.VisitsAll sha256 parse store project limit (.evidence id) := by
  have htotal := evidenceShown_total h
  have hvisited : ∃ items, Visit (page (clampLimit limit) 0 (fun _ => .ok 0)
      (evidenceShown sha256 parse store id) (listedEvidence store project id)) 0 items ∧
        (listedEvidence store project id).map (evidenceShown sha256 parse store id) =
          items.map .ok :=
    (visit_map_iff (clampLimit_pos limit) (fun _ _ _ _ => ⟨0, rfl⟩)).mpr htotal
  obtain ⟨items, hvisit, hshown⟩ := hvisited
  refine ⟨items, ?_, hshown⟩
  by_cases hid : id = []
  · have hpages : Listing.page sha256 parse store project limit (.evidence id) =
        page (clampLimit limit) 0 (fun _ => .ok 0) (evidenceShown sha256 parse store id)
          (listedEvidence store project id) := by
      funext offset
      simp only [Listing.page, evidencePage, hproject, hid, not_true, if_false, ne_eq, false_and]
      split
      · next e heq => exact heq.symm
      · next rows next heq => exact heq.symm
    rw [hpages]
    exact hvisit
  · have hne : listedEvidence store project id ≠ [] := by
      rcases h with hall | ⟨hne, _⟩
      · exact absurd hall hid
      · exact hne
    refine visit_refusing (clampLimit_pos limit) ?_ (List.length_pos_iff.mpr hne) hvisit
    intro offset shown next hpage hshown
    simp only [Listing.page, evidencePage, hproject, hid, hpage, hshown, not_true, if_false, ne_eq,
      not_false_eq_true, true_and]

theorem functions_visitsAll {artifact : Text} (hproject : project ∈ store.projects) :
    Listing.VisitsAll sha256 parse store project limit (.functions artifact) := by
  have hpages : Listing.page sha256 parse store project limit (.functions artifact) =
      page (clampLimit limit) 0 (fun _ => .ok 0) (fun r => .ok (functionShown r))
        (listedFunctions store project artifact) := by
    funext offset
    simp only [Listing.page, functionsPage, hproject, not_true, if_false]
  unfold Listing.VisitsAll
  rw [hpages]
  exact (visit_map_iff (clampLimit_pos limit) (fun _ _ _ _ => ⟨0, rfl⟩)).mpr
    (fun r _ => ⟨functionShown r, rfl⟩)

theorem views_visitsAll (hproject : project ∈ store.projects)
    (h : Listing.Accepted sha256 parse store project (.functionViews id)) :
    Listing.VisitsAll sha256 parse store project limit (.functionViews id) := by
  have hknown : store.functions.any (fun r => r.project = project && r.id = id) = true := by
    obtain ⟨r, hr, hmatch⟩ := h
    rw [List.any_eq_true]
    exact ⟨r, hr, by simp [hmatch]⟩
  have hpages : Listing.page sha256 parse store project limit (.functionViews id) =
      page (clampLimit limit) pageBytes (fun r => .ok (utf8Length r.record.dump * 2))
        (fun r => .ok (viewShown r)) (listedViews store id) := by
    funext offset
    simp only [Listing.page, viewsPage, hproject, hknown, not_true, if_false, Bool.true_eq_false]
  unfold Listing.VisitsAll
  rw [hpages]
  exact (visit_map_iff (clampLimit_pos limit) (fun _ _ _ _ => ⟨_, rfl⟩)).mpr
    (fun r _ => ⟨viewShown r, rfl⟩)

/-- The pages of `index_query` show every record exactly when all are presentable. -/
theorem index_visitsAll_iff {f : IndexFilter} (hproject : project ∈ store.projects)
    {address : Text} (haddress : f.canonical = .ok address) :
    Listing.VisitsAll sha256 parse store project limit (.index f) ↔
      ∀ r ∈ listedRows store project address f, Presentable store r := by
  have hpages : Listing.page sha256 parse store project limit (.index f) =
      page (clampLimit limit) pageBytes (indexCost store) (indexShown store)
        (listedRows store project address f) := by
    funext offset
    simp only [Listing.page, indexPage, hproject, haddress, not_true, if_false, bind, Except.bind]
  have hshown : Listing.shown sha256 parse store project (.index f) =
      (listedRows store project address f).map (indexShown store) := by
    simp only [Listing.shown, haddress]
  have hcost : ∀ r ∈ listedRows store project address f, ∀ item,
      indexShown store r = .ok item → ∃ size, indexCost store r = .ok size := by
    intro r _ item hitem
    unfold indexCost
    rw [hitem]
    exact ⟨_, rfl⟩
  unfold Listing.VisitsAll
  rw [hpages, hshown, visit_map_iff (clampLimit_pos limit) hcost]
  exact forall₂_congr (fun r _ => indexShown_iff store r)

/-- A request that is not refused is visited in full exactly when every record that
`index_query` matches is presentable; the other listings always are. -/
theorem visitsAll_iff (sha256 : Text → Text) (parse : Text → Access Json) (store : ListedStore)
    (project : Text) (limit : Nat) (listing : Listing) (hproject : project ∈ store.projects)
    (haccepted : listing.Accepted sha256 parse store project) :
    listing.VisitsAll sha256 parse store project limit ↔ listing.Fits store project := by
  cases listing with
  | evidence id => exact iff_of_true (evidence_visitsAll hproject haccepted) trivial
  | functions artifact => exact iff_of_true (functions_visitsAll hproject) trivial
  | functionViews id => exact iff_of_true (views_visitsAll hproject haccepted) trivial
  | index f =>
    obtain ⟨address, haddress⟩ := haccepted
    rw [index_visitsAll_iff hproject haddress]
    constructor
    · intro h address' haddress'
      rw [haddress] at haddress'
      cases haddress'
      exact h
    · intro h
      exact h address haddress

end Visits

/-- The row of an entity. -/
def entityRow (fields : List (Text × Json)) : ListedRow where
  project := "case"
  artifact := "a"
  backend := "ghidra"
  revision := "r"
  fields := fields

/-- A store with the current entities of one project. -/
def entities (records : List (List (Text × Json))) : ListedStore where
  projects := ["case"]
  evidence := []
  functions := []
  views := []
  index category := if category = .entities then records.map entityRow else []
  heads := [("case", "r")]
  objects _ := none

def oneEntity (fields : List (Text × Json)) : ListedStore := entities [fields]

def shortNames : List Text := ["main", "init", "exit"]

/-- The entities of a project with short records are all shown, one on a page. -/
theorem short_entity_visited : Listing.VisitsAll id (fun _ => .ok .null)
    (entities (shortNames.map fun name => [("name", .str name)])) "case" 1 (.index {}) := by
  have haccepted : Listing.Accepted id (fun _ => .ok .null)
      (entities (shortNames.map fun name => [("name", .str name)])) "case" (.index {}) := ⟨[], rfl⟩
  refine (visitsAll_iff _ _ _ _ _ _ (by decide) haccepted).mpr ?_
  intro address haddress r hr _
  cases haddress
  obtain ⟨fields, hfields, rfl⟩ := List.mem_map.mp (List.mem_filter.mp hr).1
  obtain ⟨name, hname, rfl⟩ := List.mem_map.mp hfields
  have hshort : ∀ name ∈ shortNames, cutBytes 4096 name ≠ none := by decide
  exact hshort name hname

/-- A name of 4097 bytes whose last character has two. -/
def splitName : Text := List.replicate 4095 'a' ++ ['é']

/-- The record of an entity with a long native value and that name. -/
def longFields (n : Nat) : List (Text × Json) :=
  [("name", .str splitName), ("native", .str (List.replicate n 'a'))]

theorem longFields_oversized {store : ListedStore} {r : ListedRow} {n : Nat}
    (hn : 1024 * 1024 ≤ n) (hr : r.fields = longFields n) :
    oversized (.obj (freshFields store r)) = true := by
  have hfields : ∃ freshness, freshFields store r = [("freshness".toList, .str freshness),
      ("name".toList, .str splitName), ("native".toList, .str (List.replicate n 'a'))] := by
    refine ⟨if store.isHead r then "current".toList else "superseded".toList, ?_⟩
    unfold freshFields longFields at *
    rw [hr]
    rfl
  obtain ⟨freshness, hfields⟩ := hfields
  have hquoted := length_le_quoted (List.replicate n 'a')
  rw [List.length_replicate] at hquoted
  have hdump : n < (Json.obj (freshFields store r)).dump.length := by
    rw [hfields]
    simp only [dump, dumpFields, List.length_append, List.length_cons]
    omega
  have hbytes := length_le_utf8Length (Json.obj (freshFields store r)).dump
  unfold oversized
  rw [decide_eq_true_eq]
  omega

theorem splitName_cut : cutBytes 4096 splitName = none := by
  have hlength : utf8Length (List.replicate 4095 'a') + 1 = 4096 := by
    rw [utf8Length_replicate]
    rfl
  have hcut := cutBytes_append (List.replicate 4095 'a') ['é'] 1
  rw [hlength] at hcut
  rw [splitName, hcut]
  rfl

/-- An entity that is too long for a page, with a character across byte 4096 of its name,
stops the visit of all entities. -/
theorem split_name_stops :
    ¬ Listing.VisitsAll id (fun _ => .ok .null) (oneEntity (longFields (1024 * 1024)))
      "case".toList 100 (.index {}) := by
  have haddress : IndexFilter.canonical {} = .ok [] := rfl
  rw [index_visitsAll_iff (by decide) haddress]
  intro h
  have hrow : ∃ r ∈ listedRows (oneEntity (longFields (1024 * 1024))) "case" [] {},
      r.fields = longFields (1024 * 1024) := by
    refine ⟨_, List.mem_filter.mpr ⟨List.mem_singleton.mpr rfl, ?_⟩, rfl⟩
    rfl
  obtain ⟨r, hr, hfields⟩ := hrow
  have hclean := h r hr (longFields_oversized (Nat.le_refl _) hfields)
  have hname : r.fields.lookup "name".toList = some (.str splitName) := by
    rw [hfields]
    rfl
  rw [hname] at hclean
  exact hclean splitName_cut

end Indago
