import IndagoRev.JsonValues
import IndagoRev.SharedTables
import IndagoRev.Workbench.Jobs

/-!
# The index of published results

A publication writes its evidence and the rows of the static index in one
transaction; `reindex` deletes the index of one project and writes it again from
the evidence. The projection of a native result to entities, relations and claims
is a function of what `normalize_static` is given, and any such function will do.
The evidence table keeps the published text where the source keeps its SHA-256.
-/

namespace Indago

open StdText Tables SharedTables Transactions JsonValues

structure RevisionRow where
  revision : Nat
  project : Text
  artifact : Text
  backend : Text
  evidence : Nat
  scope : Text
  request : JobRequest
  provenance : Json
  isPartial : Bool
  sourceStatus : Text
  sourceIncomplete : Bool
  projectionPartial : Bool
  programRevision : Json

structure LayoutRow where
  project : Text
  artifact : Text
  revision : Nat
  record : Json

def LayoutRow.key (r : LayoutRow) : Text × Text × Nat := (r.project, r.artifact, r.revision)

structure AnalysisHead where
  project : Text
  scope : Text
  revision : Nat

def AnalysisHead.key (r : AnalysisHead) : Text × Text := (r.project, r.scope)

structure EntityRow where
  id : Text
  project : Text
  artifact : Text
  revision : Nat
  backend : Text
  kind : Text
  name : Text
  address : Text
  anchor : Text
  evidence : Nat
  record : Json

structure RelationRow where
  id : Text
  project : Text
  artifact : Text
  revision : Nat
  backend : Text
  kind : Text
  source : Text
  target : Text
  sourceAnchor : Text
  targetAnchor : Text
  record : Json

structure ClaimRow where
  id : Text
  project : Text
  artifact : Text
  revision : Nat
  backend : Text
  subject : Text
  predicate : Text
  evidence : Nat
  record : Json

/-- The derived tables, which `reindex` rebuilds. -/
structure IndexTables where
  revisions : List RevisionRow
  layouts : List LayoutRow
  heads : List AnalysisHead
  entities : List EntityRow
  relations : List RelationRow
  claims : List ClaimRow

def IndexTables.empty : IndexTables := ⟨[], [], [], [], [], []⟩

/-- What `normalize_static` is given. -/
structure StaticInput where
  artifact : Text
  revision : Nat
  operation : Text
  backend : Text
  evidence : Nat
  native : Json
  layout : Json

/-- What `normalize_static` returns. -/
structure StaticIndex where
  entities : List Json
  relations : List Json
  claims : List Json
  isPartial : Bool

/-- What `persist_index` is given. -/
structure PublishedResult where
  project : Text
  artifact : Text
  revision : Nat
  request : JobRequest
  backend : Text
  evidence : Nat
  native : Json
  status : ResultStatus

/-- The rows of one publication. -/
structure IndexRows where
  revision : RevisionRow
  layout : Option LayoutRow
  head : Option AnalysisHead
  entities : List EntityRow
  relations : List RelationRow
  claims : List ClaimRow

section Projection

variable (sha256 : Text → Text) (normalize : StaticInput → Access StaticIndex)

variable (p : PublishedResult)

/-- The scope of a result: what was asked, of which artifact. -/
def PublishedResult.scope : Text :=
  sha256 ('[' :: Json.dumpItems [.str p.artifact, .str p.backend, .str p.request.operation,
    .str p.request.address, .str p.request.view] ++ ',' :: p.request.arguments ++ [']'])

/-- A failed result is no new knowledge. -/
def PublishedResult.known : Bool :=
  p.status = .completed || p.status = .partialResult

variable (projectionPartial : Bool)

/-- The status of the publication, in every record of the projection. -/
def PublishedResult.mark (record : Json) : Access Json := do
  let record ← record.put "source_status" (.str p.status.text)
  let record ← record.put "source_result_incomplete" (.bool (p.status ≠ .completed))
  let record ← record.put "projection_partial" (.bool projectionPartial)
  record.put "partial" (.bool (projectionPartial || p.status ≠ .completed))

def PublishedResult.revisionRow : Access RevisionRow := do
  let provenance ← p.native.value "provenance" (.obj [])
  let programRevision ← p.native.value "program_revision" .null
  return ⟨p.revision, p.project, p.artifact, p.backend, p.evidence, p.scope sha256, p.request,
    provenance, projectionPartial || p.status ≠ .completed, p.status.text,
    p.status ≠ .completed, projectionPartial, programRevision⟩

/-- A program with segments is the new layout of its artifact. -/
def PublishedResult.layoutRow : Access (Option LayoutRow) :=
  match p.native.get? "program" with
  | some program =>
    if program.contains "segments" then do
      let record ← program.put "mapping_evidence_id" (.int p.evidence)
      return some ⟨p.project, p.artifact, p.revision, record⟩
    else return none
  | none => return none

variable (record : Json)

/-- A field of a record that may be a location. -/
def locationText (field key : Text) : Access Text := do
  let location ← record.at? field
  if location.isObject then location.valueText key [] else return []

/-- A field of a record that may be a text. -/
def textOr (field : Text) : Access Text := do
  let v ← record.at? field
  match v with
  | .str t => return t
  | _ => return []

def fieldText (field : Text) : Access Text := do
  let v ← record.at? field
  v.asText

def PublishedResult.entityRow : Access EntityRow := do
  let address ← locationText record "location" "address"
  let anchor ← locationText record "location" "anchor_id"
  return ⟨← fieldText record "id", p.project, p.artifact, p.revision, p.backend,
    ← fieldText record "kind", ← fieldText record "name", address, anchor,
    p.evidence, record⟩

def PublishedResult.relationRow : Access RelationRow := do
  let sourceAnchor ← locationText record "source_location" "anchor_id"
  let targetAnchor ← locationText record "target_location" "anchor_id"
  return ⟨← fieldText record "id", p.project, p.artifact, p.revision, p.backend,
    ← fieldText record "kind", ← textOr record "source_entity",
    ← textOr record "target_entity", sourceAnchor, targetAnchor, record⟩

def PublishedResult.claimRow : Access ClaimRow := do
  return ⟨← fieldText record "id", p.project, p.artifact, p.revision, p.backend,
    ← fieldText record "subject", ← fieldText record "predicate", p.evidence, record⟩

/-- The rows that a publication writes, from the layout it finds. -/
def PublishedResult.rows (layout : Json) : Access IndexRows := do
  let index ← normalize ⟨p.artifact, p.revision, p.request.operation, p.backend, p.evidence,
    p.native, layout⟩
  let entities ← index.entities.mapM (p.mark index.isPartial)
  let relations ← index.relations.mapM (p.mark index.isPartial)
  let claims ← index.claims.mapM (p.mark index.isPartial)
  let layoutRow ← p.layoutRow
  return {
    revision := ← p.revisionRow sha256 index.isPartial
    layout := if p.known then layoutRow else none
    head := if p.known then some ⟨p.project, p.scope sha256, p.revision⟩ else none
    entities := ← entities.mapM p.entityRow
    relations := ← relations.mapM p.relationRow
    claims := ← claims.mapM p.claimRow }

variable (t : IndexTables)

/-- The newest layout of an artifact. -/
def IndexTables.newestLayout (project artifact : Text) : Json :=
  match ((SharedTables.owned LayoutRow.project project t.layouts).filter
      (fun r => r.artifact = artifact)).getLast? with
  | some r => r.record
  | none => .obj []

/-- The tables with the rows of a publication, where no key refuses them. -/
def IndexTables.with (t : IndexTables) (rows : IndexRows) : IndexTables where
  revisions := insertNew RevisionRow.revision rows.revision t.revisions
  layouts := match rows.layout with
    | some r => insertNew LayoutRow.key r t.layouts
    | none => t.layouts
  heads := match rows.head with
    | some r => upsert AnalysisHead.key (fun old => { old with revision := r.revision }) r t.heads
    | none => t.heads
  entities := insertAll EntityRow.id rows.entities t.entities
  relations := insertAll RelationRow.id rows.relations t.relations
  claims := insertAll ClaimRow.id rows.claims t.claims

/-- Every new claim is about an entity. -/
def IndexTables.Founded (t t' : IndexTables) : Prop :=
  ∀ c ∈ t'.claims, c.id ∈ t.claims.map ClaimRow.id ∨ c.subject ∈ t'.entities.map EntityRow.id

instance (t t' : IndexTables) : Decidable (t.Founded t') := by
  unfold IndexTables.Founded
  infer_instance

def IndexTables.insert (rows : IndexRows) : Access IndexTables :=
  if t.Founded (t.with rows) then .ok (t.with rows) else .error "FOREIGN KEY constraint failed"

def persistIndex (p : PublishedResult) : Access IndexTables := do
  let rows ← p.rows sha256 normalize (t.newestLayout p.project p.artifact)
  t.insert rows

end Projection

structure IndexStore where
  jobs : JobStore
  tables : IndexTables

abbrev IndexTx := Transaction IndexStore String

/-- A transaction on the job tables. -/
def inJobs {α : Type} (t : JobTx α) : IndexTx α := fun store =>
  match t store.jobs with
  | .ok (a, jobs) => .ok (a, { store with jobs := jobs })
  | .error e => .error e

/-- A computation that may fail. -/
def checked {α : Type} (x : Access α) : IndexTx α := fun store =>
  match x with
  | .ok a => .ok (a, store)
  | .error e => .error e

/-- `target`: an empty id names the newest target of the project. -/
def JobStore.target (jobs : JobStore) (project id : Text) : Option TargetRecord :=
  (jobs.targets.filter (fun t => t.project = project ∧ (t.id = id ∨ id = []))).getLast?

def readTarget (project id : Text) : IndexTx TargetRecord := do
  let store ← get
  if project ∈ store.jobs.projects then
    match store.jobs.target project id with
    | some target => return target
    | none => throw "project has no matching target"
  else throw "unknown project"

/-- `INSERT OR IGNORE` of a target: its id and its content are unique. -/
def importTarget (project freshId sha : Text) : IndexTx Unit := do
  let store ← get
  if project ∈ store.jobs.projects then
    if store.jobs.targets.any (fun t => t.id = "tgt_" ++ freshId ||
        (t.project = project && t.sha256 = sha)) then return ()
    else set { store with jobs := { store.jobs with
      targets := store.jobs.targets ++
        [TargetRecord.mk ("tgt_" ++ freshId) project sha] } }
  else throw "unknown project"

section Service

variable (sha256 : Text → Text) (parse : Text → Access Json)
  (normalize : StaticInput → Access StaticIndex)

/-- A new publication writes its index in the same transaction. -/
def indexPublication (p : PublishedResult) : IndexTx Unit := do
  let store ← get
  let tables ← checked (persistIndex sha256 normalize store.tables p)
  set { store with tables := tables }

/-- `publish_result` with its index. A job that has a result keeps it. -/
def publishIndexed (now : Nat) (project targetId : Text) (ticket : JobTicket) (backend : Text)
    (result : CommandResult) : IndexTx ResultEnvelope := do
  let target ← readTarget project targetId
  let store ← get
  let envelope ← inJobs (publishResult now target ticket backend result)
  match (store.jobs.job ticket.id).bind Job.result with
  | some _ => return envelope
  | none => do
    let native ← checked (parse result.json)
    indexPublication sha256 normalize ⟨target.project, target.sha256, ticket.revision,
      ticket.request, backend, envelope.evidenceId, native, envelope.status⟩
    return envelope

/-- The content store, by SHA-256. -/
abbrev Objects := List (Text × Text)

/-- The text of an object that is intact. -/
def readObject (objects : Objects) (sha : Text) : Access Text :=
  match objects.lookup sha with
  | none => .error "cannot open"
  | some text =>
    if sha256 text = sha then .ok text
    else .error "evidence integrity failure during reindex"

/-- The evidence of a project, joined with its jobs, in the order of insertion. -/
def JobStore.evidenceOf (jobs : JobStore) (project : Text) : List (Evidence × Job) :=
  (jobs.evidence.filter (fun e => e.project = project)).filterMap
    (fun e => (jobs.job e.job).map (fun job => (e, job)))

/-- The publication that a row of evidence stands for. -/
def JobStore.publication (jobs : JobStore) (objects : Objects) (row : Evidence × Job) :
    Access PublishedResult := do
  let text ← readObject sha256 objects (sha256 row.1.raw)
  match jobs.target row.1.project row.2.target with
  | none => throw "project has no matching target"
  | some target => do
    let native ← parse text
    return ⟨target.project, target.sha256, row.2.revision, row.2.request, row.1.producer,
      row.1.id, native, row.1.status⟩

/-- The index without the rows of a project. -/
def IndexTables.clear (t : IndexTables) (project : Text) : IndexTables where
  revisions := others RevisionRow.project project t.revisions
  layouts := others LayoutRow.project project t.layouts
  heads := others AnalysisHead.project project t.heads
  entities := others EntityRow.project project t.entities
  relations := others RelationRow.project project t.relations
  claims := others ClaimRow.project project t.claims

/-- No row names one that is not there. -/
def IndexTables.intact (t : IndexTables) : Bool :=
  let revisions := t.revisions.map RevisionRow.revision
  t.layouts.all (fun r => r.revision ∈ revisions) && t.heads.all (fun r => r.revision ∈ revisions) &&
    t.entities.all (fun r => r.revision ∈ revisions) &&
    t.relations.all (fun r => r.revision ∈ revisions) &&
    t.claims.all (fun r => r.revision ∈ revisions && r.subject ∈ t.entities.map EntityRow.id)

/-- The deletes of `reindex`, which the foreign keys of other projects may refuse. -/
def IndexTables.cleared (t : IndexTables) (project : Text) : Access IndexTables :=
  if (t.clear project).intact then .ok (t.clear project)
  else .error "FOREIGN KEY constraint failed"

/-- The index written again from the evidence of a project. -/
def IndexStore.rebuilt (store : IndexStore) (project : Text) (objects : Objects) :
    Access IndexTables := do
  let cleared ← store.tables.cleared project
  (store.jobs.evidenceOf project).foldlM (fun t row => do
    let p ← store.jobs.publication sha256 parse objects row
    persistIndex sha256 normalize t p) cleared

def reindex (project : Text) (objects : Objects) : IndexTx Nat := do
  let store ← get
  if project ∈ store.jobs.projects then do
    let tables ← checked (store.rebuilt sha256 parse normalize project objects)
    set { store with tables := tables }
    return (store.jobs.evidenceOf project).length
  else throw "unknown project"

inductive IndexCall where
  | importTarget (project freshId sha : Text)
  | start (project targetId : Text) (request : JobRequest)
  | claim (project : Text) (id : Nat)
  | beat (id token : Nat)
  | recover (project : Text)
  | publish (project targetId : Text) (ticket : JobTicket) (backend : Text) (result : CommandResult)
  | reindex (project : Text) (objects : Objects)

/-- A call with the clock that it reads. Its answer is not looked at. -/
def indexService : Service IndexStore (Nat × IndexCall) Unit String where
  exec
    | (_, .importTarget project freshId sha) => importTarget project freshId sha
    | (now, .start project targetId request) => do
      let target ← readTarget project targetId
      (fun _ => ()) <$> inJobs (startJob now target request)
    | (now, .claim project id) => (fun _ => ()) <$> inJobs (claimJob now project id)
    | (now, .beat id token) => inJobs (heartbeat now id token)
    | (now, .recover project) => (fun _ => ()) <$> inJobs (recoverJobs now project)
    | (now, .publish project targetId ticket backend result) => (fun _ => ()) <$>
        publishIndexed sha256 parse normalize now project targetId ticket backend result
    | (_, .reindex project objects) => (fun _ => ()) <$>
        reindex sha256 parse normalize project objects

/-- A store with projects and nothing in them. -/
def IndexStore.fresh (projects : List Text) : IndexStore :=
  ⟨JobStore.fresh projects [], .empty⟩

end Service

end Indago
