import IndagoRev.JsonValues

/-!
# Grants of imported investigations

A bundle that is imported must not bring authority along. The import of an
investigation clears its grants in four branches, and only some of them write the
cleared record back to the row. The `record` column is kept as the value that its
text parses to.
-/

namespace Indago

open StdText Transactions JsonValues

/-- A row of `wb_investigations` in a bundle. -/
structure BundledInvestigation where
  project : Text
  id : Text
  tokenHash : Text
  deadline : Nat
  record : Json

/-- The record that the branches change, and the one that is in the row. -/
structure ImportedRecord where
  record : Json
  stored : Json

namespace ImportedRecord

variable (r : ImportedRecord)

/-- `row["record"] = record.dump()`. -/
def writeBack : ImportedRecord := { r with stored := r.record }

def importedName : Text := "imported investigation; inference must be configured explicitly".toList

def importPolicy : Json :=
  .str "Inference ownership, credentials and cloud grants are not portable authority.".toList

def mutationImportPolicy : Json :=
  .str ("Portable records do not grant new workbench mutations; " ++
    "create an explicitly granted investigation.").toList

def noArtifacts : Json :=
  .obj [("max_artifacts".toList, .int 0), ("max_bytes".toList, .int 0)]

/-- The owner of an imported built-in investigation. -/
def externalOwner (model : Text) : Json :=
  .obj [("mode".toList, .str "external".toList), ("name".toList, .str importedName),
    ("model_declaration".toList, .str model)]

def clearOwner : Access ImportedRecord := do
  let owner ← r.record.at? "owner".toList
  let mode ← owner.at? "mode".toList
  if mode.isText "builtin".toList then
    let profile ← owner.value "profile".toList (.obj [])
    let model ← profile.valueText "model".toList "unknown".toList
    let record ← r.record.put "owner".toList (externalOwner model)
    let record ← record.putIn "envelope".toList "model_calls".toList (.bool false)
    let record ← record.put "import_policy".toList importPolicy
    return writeBack { r with record := record }
  else
    return r

def clearHelpers : Access ImportedRecord := do
  let record ← r.record.putIn "envelope".toList "analysis_helpers".toList (.bool false)
  let record ← record.dropIn "envelope".toList "runtime_execution".toList
  return { r with record := record }

def clearMutations : Access ImportedRecord := do
  let envelope ← r.record.at? "envelope".toList
  if ← envelope.valueBool "workbench_mutations".toList false then
    let record ← r.record.putIn "envelope".toList "workbench_mutations".toList (.bool false)
    let record ← record.putIn "envelope".toList "profile".toList
      (.str "static-read-only-v1".toList)
    let record ← record.put "mutation_import_policy".toList mutationImportPolicy
    return writeBack { r with record := record }
  else
    return r

def clearArtifacts : Access ImportedRecord := do
  let envelope ← r.record.entry "envelope".toList
  if envelope.contains "derived_artifacts".toList then
    let record ← r.record.putIn "envelope".toList "derived_artifacts".toList noArtifacts
    return writeBack { r with record := record }
  else
    return r

end ImportedRecord

variable (record : Json)

/-- What the import stores of an investigation record. -/
def importRecord : Access Json := do
  let r ← ImportedRecord.clearOwner ⟨record, record⟩
  let r ← r.clearHelpers
  let r ← r.clearMutations
  let r ← r.clearArtifacts
  return r.stored

variable (project : Text) (row : BundledInvestigation)

/-- What `bundles(import)` checks of the row of an investigation. -/
def checkInvestigation : Access Unit :=
  if row.project ≠ project then
    .error "cross-project or invalid bundle row"
  else if row.record.isObject = false ∨
      (row.record.get? "project".toList).any (fun named => !named.isText project) then
    .error "cross-project or invalid bundle record"
  else if row.tokenHash ≠ [] ∨ row.deadline ≠ 0 then
    .error "bundle cannot restore investigation ownership lease"
  else
    .ok ()

/-- The row of an investigation as `bundles(import)` inserts it. -/
def importInvestigation : Access BundledInvestigation := do
  checkInvestigation project row
  let record ← importRecord row.record
  return { row with record := record }

/-- The investigations of an imported bundle. -/
def importInvestigations (rows : List BundledInvestigation) : Access (List BundledInvestigation) :=
  rows.mapM (importInvestigation project)

/-- A grant of the envelope is absent or false. -/
def NotGranted (key : Text) : Prop :=
  record.path? "envelope".toList key = none ∨
    record.path? "envelope".toList key = some (.bool false)

/-- A stored record has no authority of the one that was exported. -/
structure Stripped (exported stored : Json) : Prop where
  owner : stored.path? "owner".toList "mode".toList = some (.str "external".toList)
  calls : exported.path? "owner".toList "mode".toList = some (.str "builtin".toList) →
    stored.path? "envelope".toList "model_calls".toList = some (.bool false)
  helpers : NotGranted stored "analysis_helpers".toList
  execution : stored.path? "envelope".toList "runtime_execution".toList = none
  mutations : NotGranted stored "workbench_mutations".toList
  artifacts : ∀ grant, stored.path? "envelope".toList "derived_artifacts".toList = some grant →
    grant.get? "max_artifacts".toList = some (.int 0) ∧
      grant.get? "max_bytes".toList = some (.int 0)

/-- The branches that write the record back after the helpers were cleared. -/
def WritesBack : Prop :=
  record.path? "envelope".toList "workbench_mutations".toList = some (.bool true) ∨
    (record.path? "envelope".toList "derived_artifacts".toList).isSome

namespace ImportedRecord

variable {r r' : ImportedRecord} {record : Json}

/-- What a branch that leaves the owner makes of the envelope. -/
structure Clears (r r' : ImportedRecord) (envelope : Text → Option Json) : Prop where
  owner : r'.record.path? "owner".toList "mode".toList =
    r.record.path? "owner".toList "mode".toList
  envelope : ∀ key, r'.record.path? "envelope".toList key = envelope key

theorem clearOwner_ok (h : clearOwner ⟨record, record⟩ = .ok r) :
    (record.path? "owner".toList "mode".toList = some (.str "builtin".toList) ∧
      r.stored = r.record ∧
      r.record.path? "owner".toList "mode".toList = some (.str "external".toList) ∧
      ∀ key, r.record.path? "envelope".toList key =
        if key = "model_calls".toList then some (.bool false)
        else record.path? "envelope".toList key) ∨
    (record.path? "owner".toList "mode".toList ≠ some (.str "builtin".toList) ∧
      r = ⟨record, record⟩) := by
  simp only [clearOwner, except_bind_ok] at h
  obtain ⟨owner, howner, mode, hmode, h⟩ := h
  have hpath : record.path? "owner".toList "mode".toList = some mode := by
    simp only [Json.path?, Json.at?_ok.mp howner, Option.bind_some, Json.at?_ok.mp hmode]
  split at h
  · next hbuiltin =>
      simp only [except_bind_ok] at h
      obtain ⟨_, _, model, _, first, hfirst, second, hsecond, third, hthird, h⟩ := h
      cases h
      left
      have hmode : mode = .str "builtin".toList := by
        cases mode with
        | str t => simpa [Json.isText] using hbuiltin
        | null | bool | int | real | arr | obj => cases hbuiltin
      refine ⟨by rw [hpath, hmode], rfl, ?_, ?_⟩
      · simp only [writeBack]
        rw [Json.put_path?_ne hthird (by decide), Json.path?,
          Json.putIn_get?_ne hsecond (by decide), Json.put_get?_self hfirst]
        rfl
      intro key
      simp only [writeBack]
      rw [Json.put_path?_ne hthird (by decide), Json.putIn_path? hsecond,
        Json.put_path?_ne hfirst (by decide)]
  · next hother =>
      cases h
      right
      refine ⟨?_, rfl⟩
      intro hbuiltin
      rw [hpath] at hbuiltin
      cases hbuiltin
      simp [Json.isText] at hother

theorem clearHelpers_ok (h : clearHelpers r = .ok r') :
    r'.stored = r.stored ∧ r.Clears r' (fun key =>
      if key = "runtime_execution".toList then none
      else if key = "analysis_helpers".toList then some (.bool false)
      else r.record.path? "envelope".toList key) := by
  simp only [clearHelpers, except_bind_ok] at h
  obtain ⟨first, hfirst, second, hsecond, h⟩ := h
  cases h
  refine ⟨rfl, ?_, ?_⟩
  · simp only [Json.path?]
    rw [Json.dropIn_get?_ne hsecond (by decide), Json.putIn_get?_ne hfirst (by decide)]
  · intro key
    rw [Json.dropIn_path? hsecond, Json.putIn_path? hfirst]

theorem clearMutations_ok (h : clearMutations r = .ok r') :
    (r.record.path? "envelope".toList "workbench_mutations".toList = some (.bool true) ∧
      r'.stored = r'.record ∧ r.Clears r' (fun key =>
        if key = "profile".toList then some (.str "static-read-only-v1".toList)
        else if key = "workbench_mutations".toList then some (.bool false)
        else r.record.path? "envelope".toList key)) ∨
    (NotGranted r.record "workbench_mutations".toList ∧ r' = r) := by
  simp only [clearMutations, except_bind_ok] at h
  obtain ⟨envelope, henvelope, granted, hgranted, h⟩ := h
  have hpath : r.record.path? "envelope".toList "workbench_mutations".toList =
      envelope.get? "workbench_mutations".toList := by
    simp only [Json.path?, Json.at?_ok.mp henvelope, Option.bind_some]
  have hvalue := Json.valueBool_ok hgranted
  cases granted with
  | true =>
    simp only [if_true, except_bind_ok] at h
    obtain ⟨first, hfirst, second, hsecond, third, hthird, h⟩ := h
    cases h
    left
    refine ⟨?_, rfl, ?_, ?_⟩
    · rw [hpath]
      simpa using hvalue
    · simp only [writeBack]
      rw [Json.put_path?_ne hthird (by decide)]
      simp only [Json.path?]
      rw [Json.putIn_get?_ne hsecond (by decide), Json.putIn_get?_ne hfirst (by decide)]
    intro key
    simp only [writeBack]
    rw [Json.put_path?_ne hthird (by decide), Json.putIn_path? hsecond,
      Json.putIn_path? hfirst]
  | false =>
    cases h
    right
    refine ⟨?_, rfl⟩
    unfold NotGranted
    rw [hpath]
    rcases hvalue with hvalue | ⟨hvalue, -⟩
    · exact Or.inr hvalue
    · exact Or.inl hvalue

theorem clearArtifacts_ok (h : clearArtifacts r = .ok r') :
    ((r.record.path? "envelope".toList "derived_artifacts".toList).isSome = true ∧
      r'.stored = r'.record ∧ r.Clears r' (fun key =>
        if key = "derived_artifacts".toList then some noArtifacts
        else r.record.path? "envelope".toList key)) ∨
    (r.record.path? "envelope".toList "derived_artifacts".toList = none ∧ r' = r) := by
  simp only [clearArtifacts, except_bind_ok] at h
  obtain ⟨envelope, henvelope, h⟩ := h
  have hpath := Json.entry_get? henvelope "derived_artifacts".toList
  unfold Json.contains at h
  split at h
  · next hgrant =>
      simp only [except_bind_ok] at h
      obtain ⟨first, hfirst, h⟩ := h
      cases h
      left
      refine ⟨by rw [← hpath]; exact hgrant, rfl, ?_, ?_⟩
      · simp only [writeBack, Json.path?]
        rw [Json.putIn_get?_ne hfirst (by decide)]
      · intro key
        simp only [writeBack]
        rw [Json.putIn_path? hfirst]
  · next hnone =>
      cases h
      right
      exact ⟨by rw [← hpath]; simpa using hnone, rfl⟩

/-- A record that the last two branches wrote back. -/
structure Rewritten (record stored : Json) : Prop where
  owner : stored.path? "owner".toList "mode".toList = record.path? "owner".toList "mode".toList
  others : ∀ key, key ≠ "profile".toList → key ≠ "workbench_mutations".toList →
    key ≠ "derived_artifacts".toList →
    stored.path? "envelope".toList key = record.path? "envelope".toList key
  mutations : NotGranted stored "workbench_mutations".toList
  artifacts : ∀ grant, stored.path? "envelope".toList "derived_artifacts".toList = some grant →
    grant = noArtifacts

/-- Either one of the last two branches writes back what was cleared before, or
the row stays as it was. -/
theorem clearGrants_ok {middle : ImportedRecord} (h : clearMutations r = .ok middle)
    (h' : clearArtifacts middle = .ok r') : (WritesBack r.record ∧ Rewritten r.record r'.stored) ∨
    (¬ WritesBack r.record ∧ r' = r ∧ NotGranted r.record "workbench_mutations".toList ∧
      r.record.path? "envelope".toList "derived_artifacts".toList = none) := by
  rcases clearMutations_ok h with ⟨hgranted, hstored, hclears⟩ | ⟨hnot, rfl⟩
  · left
    refine ⟨Or.inl hgranted, ?_⟩
    have hmutations : middle.record.path? "envelope".toList "workbench_mutations".toList =
        some (.bool false) := hclears.envelope _
    rcases clearArtifacts_ok h' with ⟨_, hstored', hclears'⟩ | ⟨hnone, rfl⟩
    · rw [hstored']
      refine ⟨hclears'.owner.trans hclears.owner, ?_, ?_, ?_⟩
      · intro key hprofile hkey hartifacts
        rw [hclears'.envelope, if_neg hartifacts, hclears.envelope, if_neg hprofile, if_neg hkey]
      · exact Or.inr ((hclears'.envelope _).trans hmutations)
      intro grant hgrant
      have hsame := (hclears'.envelope "derived_artifacts".toList).symm.trans hgrant
      rw [if_pos rfl, Option.some.injEq] at hsame
      exact hsame.symm
    · rw [hstored]
      refine ⟨hclears.owner, ?_, Or.inr hmutations, ?_⟩
      · intro key hprofile hkey _
        rw [hclears.envelope, if_neg hprofile, if_neg hkey]
      · intro grant hgrant
        rw [hnone] at hgrant
        cases hgrant
  · rcases clearArtifacts_ok h' with ⟨hsome, hstored', hclears'⟩ | ⟨hnone, rfl⟩
    · left
      refine ⟨Or.inr hsome, ?_⟩
      rw [hstored']
      refine ⟨hclears'.owner, ?_, ?_, ?_⟩
      · intro key _ _ hartifacts
        rw [hclears'.envelope, if_neg hartifacts]
      · have hsame : r'.record.path? "envelope".toList "workbench_mutations".toList =
            middle.record.path? "envelope".toList "workbench_mutations".toList :=
          hclears'.envelope _
        unfold NotGranted
        rw [hsame]
        exact hnot
      · intro grant hgrant
        have hsame := (hclears'.envelope "derived_artifacts".toList).symm.trans hgrant
        rw [if_pos rfl, Option.some.injEq] at hsame
        exact hsame.symm
    · right
      refine ⟨?_, rfl, hnot, hnone⟩
      rintro (hgranted | hsome)
      · rcases hnot with hnot | hnot <;> rw [hnot] at hgranted <;> cases hgranted
      · rw [hnone] at hsome
        cases hsome

/-- What the first two branches make of the record and of the row. -/
structure Cleared (record : Json) (r : ImportedRecord) : Prop where
  mode : r.record.path? "owner".toList "mode".toList = some (.str "external".toList) ↔
    record.path? "owner".toList "mode".toList = some (.str "builtin".toList) ∨
      record.path? "owner".toList "mode".toList = some (.str "external".toList)
  stored : r.stored.path? "owner".toList "mode".toList =
    r.record.path? "owner".toList "mode".toList
  calls : record.path? "owner".toList "mode".toList = some (.str "builtin".toList) →
    r.record.path? "envelope".toList "model_calls".toList = some (.bool false) ∧
      r.stored.path? "envelope".toList "model_calls".toList = some (.bool false)
  helpers : NotGranted r.record "analysis_helpers".toList
  execution : r.record.path? "envelope".toList "runtime_execution".toList = none
  unwritten : ∀ key, key ≠ "model_calls".toList →
    r.stored.path? "envelope".toList key = record.path? "envelope".toList key
  others : ∀ key, key ≠ "model_calls".toList → key ≠ "runtime_execution".toList →
    key ≠ "analysis_helpers".toList →
    r.record.path? "envelope".toList key = record.path? "envelope".toList key

theorem cleared {first : ImportedRecord} (h : clearOwner ⟨record, record⟩ = .ok first)
    (h' : clearHelpers first = .ok r) : Cleared record r := by
  obtain ⟨hstored, howner, henvelope⟩ := clearHelpers_ok h'
  have hhelpers : r.record.path? "envelope".toList "analysis_helpers".toList =
      some (.bool false) := henvelope _
  have hexecution : r.record.path? "envelope".toList "runtime_execution".toList = none :=
    henvelope _
  have hcalls : r.record.path? "envelope".toList "model_calls".toList =
      first.record.path? "envelope".toList "model_calls".toList := henvelope _
  rcases clearOwner_ok h with ⟨hbuiltin, hwritten, hexternal, hfirst⟩ | ⟨hother, rfl⟩
  · have hfalse : first.record.path? "envelope".toList "model_calls".toList =
        some (.bool false) := hfirst _
    refine ⟨?_, ?_, fun _ => ⟨hcalls.trans hfalse, ?_⟩, Or.inr hhelpers, hexecution, ?_, ?_⟩
    · rw [howner, hexternal, hbuiltin]
      simp
    · rw [hstored, hwritten, howner]
    · rw [hstored, hwritten, hfalse]
    · intro key hkey
      rw [hstored, hwritten, hfirst, if_neg hkey]
    · intro key hkey hruntime hhelper
      rw [henvelope, if_neg hruntime, if_neg hhelper, hfirst, if_neg hkey]
  · refine ⟨?_, ?_, fun hbuiltin => absurd hbuiltin hother, Or.inr hhelpers, hexecution, ?_, ?_⟩
    · rw [howner]
      simp only [hother, false_or]
    · rw [hstored, howner]
    · intro key _
      rw [hstored]
    · intro key _ hruntime hhelper
      rw [henvelope, if_neg hruntime, if_neg hhelper]

end ImportedRecord

/-- The exported records whose authority is stripped: the owner has one of the two
modes, and a branch writes the record back after the helpers and the runtime grant
were cleared, unless there was nothing to clear. -/
def StripsAuthority : Prop :=
  (record.path? "owner" "mode" = some (.str "builtin") ∨
    record.path? "owner" "mode" = some (.str "external")) ∧
  (WritesBack record ∨ NotGranted record "analysis_helpers" ∧
      record.path? "envelope" "runtime_execution" = none)

theorem importRecord_stored {record stored : Json} (h : importRecord record = .ok stored) :
    Stripped record stored ↔ StripsAuthority record := by
  simp only [importRecord, except_bind_ok] at h
  obtain ⟨first, howner, middle, hhelpers, third, hmutations, last, hartifacts, h⟩ := h
  cases h
  have hcleared := ImportedRecord.cleared howner hhelpers
  have hwrites : WritesBack middle.record ↔ WritesBack record := by
    unfold WritesBack
    rw [hcleared.others _ (by decide) (by decide) (by decide),
      hcleared.others _ (by decide) (by decide) (by decide)]
  rcases ImportedRecord.clearGrants_ok hmutations hartifacts with
    ⟨hwritten, hrewritten⟩ | ⟨hkept, rfl, hnot, hnone⟩
  · have hhelper := hrewritten.others "analysis_helpers" (by decide) (by decide) (by decide)
    have hruntime := hrewritten.others "runtime_execution" (by decide) (by decide)
      (by decide)
    have hcall := hrewritten.others "model_calls" (by decide) (by decide) (by decide)
    constructor
    · intro hstripped
      exact ⟨hcleared.mode.mp (hrewritten.owner.symm.trans hstripped.owner),
        Or.inl (hwrites.mp hwritten)⟩
    rintro ⟨hmode, -⟩
    refine ⟨hrewritten.owner.trans (hcleared.mode.mpr hmode),
      fun hbuiltin => hcall.trans (hcleared.calls hbuiltin).1, ?_,
      hruntime.trans hcleared.execution, hrewritten.mutations, ?_⟩
    · unfold NotGranted
      rw [hhelper]
      exact hcleared.helpers
    · intro grant hgrant
      rw [hrewritten.artifacts grant hgrant]
      exact ⟨rfl, rfl⟩
  · have hhelper := hcleared.unwritten "analysis_helpers" (by decide)
    have hruntime := hcleared.unwritten "runtime_execution" (by decide)
    have hmutation := hcleared.unwritten "workbench_mutations" (by decide)
    have hartifact := hcleared.unwritten "derived_artifacts" (by decide)
    have hmutation' := hcleared.others "workbench_mutations" (by decide) (by decide)
      (by decide)
    have hartifact' := hcleared.others "derived_artifacts" (by decide) (by decide)
      (by decide)
    constructor
    · intro hstripped
      refine ⟨hcleared.mode.mp (hcleared.stored.symm.trans hstripped.owner), Or.inr ⟨?_, ?_⟩⟩
      · have hclear := hstripped.helpers
        unfold NotGranted at hclear
        rwa [hhelper] at hclear
      · exact hruntime.symm.trans hstripped.execution
    rintro ⟨hmode, hrest⟩
    obtain ⟨hclear, hexecution⟩ := hrest.resolve_left (fun hback => hkept (hwrites.mpr hback))
    refine ⟨hcleared.stored.trans (hcleared.mode.mpr hmode),
      fun hbuiltin => (hcleared.calls hbuiltin).2, ?_, hruntime.trans hexecution, ?_, ?_⟩
    · unfold NotGranted
      rw [hhelper]
      exact hclear
    · unfold NotGranted at hnot ⊢
      rw [hmutation, ← hmutation']
      exact hnot
    · intro grant hgrant
      rw [hartifact, ← hartifact', hnone] at hgrant
      cases hgrant

theorem importInvestigation_ok {project : Text} {row stored : BundledInvestigation}
    (h : importInvestigation project row = .ok stored) :
    row.project = project ∧ ∃ record, importRecord row.record = .ok record ∧
      stored = { row with record := record } := by
  simp only [importInvestigation, except_bind_ok] at h
  obtain ⟨_, hcheck, record, hrecord, h⟩ := h
  cases h
  refine ⟨?_, record, hrecord, rfl⟩
  by_contra hproject
  rw [checkInvestigation, if_pos hproject] at hcheck
  cases hcheck

/-- In an accepted bundle an investigation is stored without authority exactly when
its exported record is one of those. -/
theorem imported_authority (rows stored : List BundledInvestigation)
    (h : importInvestigations project rows = .ok stored) :
    List.Forall₂ (fun row imported => imported.id = row.id ∧ imported.project = project ∧
      (Stripped row.record imported.record ↔ StripsAuthority row.record)) rows stored := by
  apply (except_mapM_ok rows h).imp
  intro row imported hrow
  obtain ⟨hproject, record, hrecord, rfl⟩ := importInvestigation_ok hrow
  exact ⟨rfl, hproject, importRecord_stored hrecord⟩

def investigationRecord (mode : Text) (envelope : List (Text × Json)) : Json :=
  .obj [("project", .str "p"), ("owner", .obj [("mode", .str mode)]), ("envelope", .obj envelope)]

/-- An external investigation that may run helpers, without a derived grant. -/
def helperInvestigation : BundledInvestigation :=
  ⟨"p", "i", [], 0, investigationRecord "external"
    [("model_calls", .bool false), ("analysis_helpers", .bool true),
      ("workbench_mutations", .bool false)]⟩

/-- A built-in investigation with every grant. -/
def grantedInvestigation : BundledInvestigation :=
  ⟨"p", "i", [], 0, investigationRecord "builtin"
    [("model_calls", .bool true), ("analysis_helpers", .bool true),
      ("runtime_execution", .obj []), ("workbench_mutations", .bool true),
      ("derived_artifacts", .obj [("max_artifacts", .int 4)])]⟩

/-- The helper grant survives the import. -/
theorem helpers_survive_import :
    ∃ stored, importInvestigations "p" [helperInvestigation] = .ok [stored] ∧
      stored.record.path? "envelope" "analysis_helpers" = some (.bool true) ∧
      ¬ Stripped helperInvestigation.record stored.record := by
  refine ⟨helperInvestigation, rfl, rfl, ?_⟩
  intro hstripped
  rcases hstripped.helpers with hnone | hfalse
  · cases hnone
  · cases hfalse

theorem imported_authority_granted :
    ∃ stored, importInvestigations "p" [grantedInvestigation] = .ok [stored] ∧
      Stripped grantedInvestigation.record stored.record := by
  refine ⟨_, rfl, ?_⟩
  cases imported_authority "p" [grantedInvestigation] [_] rfl with
  | cons hfirst _ => exact hfirst.2.2.mpr ⟨Or.inl rfl, Or.inl (Or.inl rfl)⟩

end Indago
