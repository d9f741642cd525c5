import IndagoRev.Numerals
import IndagoRev.Workbench.Batch

/-!
# Knowledge records

A knowledge record is a chain of immutable revisions with a head. One put is one
transaction: it names the revision it expects to replace, pins every dependency
to what the project holds at that moment, and moves the head. Freshness is
computed from the pins when a record is read; nothing of it is stored.
-/

namespace Indago

open StdText Tables Transactions

inductive DependencyType where
  | record | artifact | entity | evidence | revision | observation | epoch
  deriving DecidableEq

def DependencyType.text : DependencyType → Text
  | .record => "record"
  | .artifact => "artifact"
  | .entity => "entity"
  | .evidence => "evidence"
  | .revision => "revision"
  | .observation => "observation"
  | .epoch => "epoch"

def DependencyType.all : List DependencyType :=
  [.record, .artifact, .entity, .evidence, .revision, .observation, .epoch]

def DependencyType.read (t : Text) : Option DependencyType :=
  DependencyType.all.find? (fun d => d.text = t)

/-- A dependency as a record stores it. -/
structure Dependency where
  type : DependencyType
  id : Text
  pin : Text
  deriving DecidableEq

/-- A dependency as a request names it. -/
structure DependencyInput where
  type : Text
  id : Text
  pin : Option Text
  deriving DecidableEq

/-- What the checks of a put look at in a field of a JSON object. -/
inductive FieldValue where
  | text (value : Text)
  | number (value : Int)
  | array
  | other
  deriving DecidableEq

abbrev Fields := List (Text × FieldValue)

def Fields.field (fields : Fields) (name : Text) : Option FieldValue :=
  (fields.find? (fun f => f.1 = name)).map Prod.snd

/-- The harness action that a record was published by. -/
structure PublicationOrigin where
  investigation : Text
  action : Text
  requestSha256 : Text
  deriving DecidableEq

structure KnowledgeRecord where
  project : Text
  id : Text
  revision : Nat
  kind : Text
  title : Text
  state : Text
  scope : Fields
  body : Fields
  assumptions : List Text
  dependencies : List Dependency
  support : List Text
  counterevidence : List Text
  author : Text
  createdAt : Text
  internal : Bool
  harnessOrigin : Option PublicationOrigin
  deriving DecidableEq

/-- A row of `wb_records`. Its record text parses back to the record. -/
structure RecordRow where
  project : Text
  id : Text
  revision : Nat
  kind : Text
  record : KnowledgeRecord
  sha : Text
  deriving DecidableEq

def RecordRow.name (row : RecordRow) : Text × Text × Nat := (row.project, row.id, row.revision)

/-- A row of `wb_heads`. -/
structure HeadRow where
  project : Text
  id : Text
  revision : Nat
  deriving DecidableEq

def HeadRow.name (row : HeadRow) : Text × Text := (row.project, row.id)

/-- A row of `wb_dependencies`. -/
structure DependencyRow where
  project : Text
  id : Text
  revision : Nat
  dependency : Dependency
  deriving DecidableEq

/-- A row that names the analysis revision it belongs to. -/
structure AnalysisRow where
  project : Text
  id : Text
  revision : Text
  deriving DecidableEq

def AnalysisRow.name (row : AnalysisRow) : Text × Text := (row.project, row.id)

structure IndexedRevision where
  project : Text
  revision : Text
  artifact : Text
  backend : Text
  sessionKey : Option Text
  programRevision : Option Nat
  deriving DecidableEq

/-- An observation or a code epoch of a runtime session of the project. -/
structure RuntimeRow where
  epoch : Bool
  project : Text
  id : Text
  record : Text
  sha : Text
  deriving DecidableEq

def RuntimeRow.name (row : RuntimeRow) : Bool × Text × Text := (row.epoch, row.project, row.id)

/-- What knowledge refers to and other commands write. `objects` maps a hash to
the hash of the file that is stored under it. -/
structure Library where
  projects : List Text
  targets : List (Text × Text)
  objects : List (Text × Text)
  entities : List AnalysisRow
  evidence : List AnalysisRow
  indexed : List IndexedRevision
  analysisHeads : List (Text × Text)
  runtime : Option (List RuntimeRow)
  deriving DecidableEq

namespace Library

variable (library : Library)

/-- The hash of the object file under a hash, where there is one. -/
def object (sha : Text) : Option Text :=
  (library.objects.find? (fun o => o.1 = sha)).map Prod.snd

def runtimeRow (epoch : Bool) (project id : Text) : Option RuntimeRow :=
  library.runtime.bind (row RuntimeRow.name (epoch, project, id))

def isAnalysisHead (project revision : Text) : Bool :=
  (project, revision) ∈ library.analysisHeads

/-- A newer revision of the same Ghidra session advanced the program. -/
def advanced (project revision : Text) : Bool :=
  library.indexed.any (fun old =>
    old.project = project && old.revision = revision && old.backend = "ghidra" &&
      library.indexed.any (fun newer =>
        newer.project = old.project && newer.artifact = old.artifact &&
          newer.backend = old.backend &&
          match old.sessionKey, newer.sessionKey, old.programRevision, newer.programRevision with
          | some key, some key', some n, some n' => key = key' && n < n'
          | _, _, _, _ => false))

end Library

structure KnowledgeStore where
  library : Library
  records : List RecordRow
  heads : List HeadRow
  dependencies : List DependencyRow
  deriving DecidableEq

namespace KnowledgeStore

variable (store : KnowledgeStore)

def head (project id : Text) : Option Nat :=
  (row HeadRow.name (project, id) store.heads).map HeadRow.revision

def record (project id : Text) (revision : Nat) : Option RecordRow :=
  row RecordRow.name (project, id, revision) store.records

/-- The revisions of one record, oldest first. -/
def revisions (project id : Text) : List Nat :=
  (store.records.filter (fun r => r.project = project ∧ r.id = id)).map RecordRow.revision

/-- `ON CONFLICT(project,id) DO UPDATE SET revision`. -/
def withHead (project id : Text) (revision : Nat) : KnowledgeStore :=
  { store with heads :=
      match store.head project id with
      | some _ => rewrite HeadRow.name (project, id)
          (fun row => { row with revision := revision }) store.heads
      | none => store.heads ++ [⟨project, id, revision⟩] }

end KnowledgeStore

abbrev KnowledgeTx := Transaction KnowledgeStore String

section Digests

-- SHA-256 of a text in hexadecimal, and the text of a record.
variable (sha256 : Text → Text) (dump : KnowledgeRecord → Text)

/-- `load`: revision 0 stands for the head. -/
def loadRecord (store : KnowledgeStore) (project id : Text) (revision : Nat) :
    Except String KnowledgeRecord :=
  match (if revision = 0 then store.head project id else some revision).bind
      (store.record project id) with
  | none => .error "unknown knowledge revision"
  | some row =>
    if sha256 (dump row.record) ≠ row.sha then .error "knowledge integrity mismatch"
    else .ok row.record

/-- `wb::hash`. -/
def isHash (s : Text) : Bool :=
  s.length = 64 && s.all (fun c => c ∈ "0123456789abcdef".toList)

def pinAnalysis (rows : List AnalysisRow) (project id : Text) : Except String Text :=
  match row AnalysisRow.name (project, id) rows with
  | none => .error "unknown project dependency"
  | some found => .ok found.revision

def pinRuntime (library : Library) (epoch : Bool) (project id : Text) : Except String Text :=
  match library.runtime with
  | none => .error "runtime evidence unavailable"
  | some _ =>
    match library.runtimeRow epoch project id with
    | none => .error "unknown project runtime dependency"
    | some found =>
      if epoch = false ∧ sha256 found.record ≠ found.sha then
        .error "runtime evidence integrity mismatch"
      else .ok (sha256 found.record)

/-- The pin that a dependency has now. -/
def currentPin (store : KnowledgeStore) (project : Text) (type : DependencyType) (id : Text) :
    Except String Text :=
  match type with
  | .record => do
    let record ← loadRecord sha256 dump store project id 0
    pure (decimal record.revision)
  | .artifact =>
    if !isHash id then .error "invalid SHA-256"
    else if (project, id) ∉ store.library.targets then .error "unknown project artifact"
    else if store.library.object id ≠ some id then .error "artifact integrity mismatch"
    else .ok id
  | .entity => pinAnalysis store.library.entities project id
  | .evidence => pinAnalysis store.library.evidence project id
  | .revision =>
    match store.library.indexed.find? (fun r => r.project = project ∧ r.revision = id) with
    | none => .error "unknown project dependency"
    | some found => .ok found.revision
  | .observation => pinRuntime sha256 store.library false project id
  | .epoch => pinRuntime sha256 store.library true project id

/-- `resolve`. -/
def resolve (store : KnowledgeStore) (project : Text) (input : DependencyInput) :
    Except String Dependency :=
  match DependencyType.read input.type with
  | none => .error
      "dependency type must be record, artifact, entity, evidence, revision, observation or epoch"
  | some type => do
    let pin ← currentPin sha256 dump store project type input.id
    if input.pin.any (· ≠ pin) then .error "dependency pin is stale"
    else pure ⟨type, input.id, pin⟩

/-- A put request. A field that has the wrong JSON type is `none`. -/
structure PutRequest where
  project : Text
  id : Option Text
  expectedRevision : Int
  kind : Text
  state : Text
  title : Text
  scope : Option Fields
  body : Option Fields
  assumptions : Option (List Text)
  dependencies : Option (List DependencyInput)
  support : Option (List Text)
  counterevidence : Option (List Text)
  author : Text
  deriving DecidableEq

def knowledgeKinds : List Text :=
  ["behavior", "hypothesis", "question", "summary",
    "assumption", "product", "transformation", "validation",
    "recognition", "signature", "system_manifest"]

/-- The kinds that only a deterministic operation publishes. -/
def computedKinds : List Text :=
  ["validation", "transformation", "system_manifest"]

def knowledgeStates : List Text :=
  ["observed", "derived", "inferred", "contradicted", "unknown", "validated"]

def behaviorArrays : List Text :=
  ["inputs", "outputs", "guards", "state_changes", "side_effects", "unknowns"]

def hypothesisFields : List Text :=
  ["prediction", "alternatives", "unknowns"]

/-- `wb::bound` of an optional field. -/
def withinBound (fields : Fields) (name : Text) (max : Nat) : Bool :=
  match fields.field name with
  | none => true
  | some (.number n) => 0 ≤ n && n ≤ max
  | some _ => false

/-- The checks on the body of each kind. -/
def checkBody (kind : Text) (body : Fields) : Except String Unit :=
  if kind = "behavior" ∧ behaviorArrays.any (fun f => body.field f ≠ some .array) then
    .error "behavior requires array"
  else if kind = "hypothesis" ∧ hypothesisFields.any (fun f => body.field f = none) then
    .error "hypothesis requires field"
  else if kind = "signature" then
    match body.field "sha256" with
    | some (.text sha) =>
      if !isHash sha then .error "invalid SHA-256"
      else if !withinBound body "offset" (512 * 1024 * 1024) then .error "invalid bound"
      else if !withinBound body "size" (512 * 1024 * 1024) then .error "invalid bound"
      else .ok ()
    | _ => .error "key 'sha256' not found"
  else .ok ()

/-- The checks on the assertion itself, before its dependencies. -/
def checkAssertion (request : PutRequest) (internal : Bool) : Except String (Fields × Fields) :=
  if request.kind ∉ knowledgeKinds then .error "unknown knowledge kind"
  else if internal = false ∧ request.kind ∈ computedKinds then
    .error "use validate, transform or system to publish computed records"
  else if request.state ∉ knowledgeStates ∨ (internal = false ∧ request.state = "validated") then
    .error "validated state requires a deterministic validator"
  else if request.title = [] ∨ (String.ofList request.title).utf8ByteSize > 4096 then
    .error "title must contain 1..4096 bytes"
  else
    match request.scope with
    | none | some [] => .error "explicit nonempty scope required"
    | some scope =>
      match request.body with
      | none => .error "body must be an object"
      | some body => do
        checkBody request.kind body
        pure (scope, body)

/-- `add`: resolve a dependency and keep it once. -/
def addDependency (store : KnowledgeStore) (project id : Text) (kept : List Dependency)
    (input : DependencyInput) : Except String (List Dependency) := do
  let d ← resolve sha256 dump store project input
  if d.type = .record ∧ d.id = id then .error "self dependency forbidden"
  else if d ∈ kept then pure kept
  else pure (kept ++ [d])

/-- The dependencies that the scope of an assertion implies. -/
def scopeDependencies (scope : Fields) : Except String (List DependencyInput) :=
  ["artifact".toList, "observation".toList, "epoch".toList].foldlM (fun found type =>
    let name := if type = "artifact".toList then "artifact_sha256".toList else type ++ "_id".toList
    match scope.field name with
    | none => .ok found
    | some (.text id) => .ok (found ++ [⟨type, id, none⟩])
    | some _ => .error "type must be string") []

/-- All dependencies that a request names, in the order of the source. -/
def namedDependencies (request : PutRequest) (scope : Fields) :
    Except String (List DependencyInput) :=
  match request.dependencies, request.support, request.counterevidence with
  | some dependencies, some support, some counterevidence =>
    if dependencies.length > 128 then .error "dependencies must be an array <=128"
    else if support.length > 128 ∨ counterevidence.length > 128 then
      .error "evidence references must be arrays <=128"
    else do
      let implied ← scopeDependencies scope
      pure (dependencies ++ (support ++ counterevidence).map (⟨"evidence", ·, none⟩) ++ implied)
  | none, _, _ => .error "dependencies must be an array <=128"
  | _, _, _ => .error "evidence references must be arrays <=128"

/-- The record that a put builds on revision `actual` of the record `id`. -/
def buildRecord (store : KnowledgeStore) (request : PutRequest) (id : Text) (actual : Nat)
    (createdAt : Text) (internal : Bool) (origin : Option PublicationOrigin) :
    Except String KnowledgeRecord := do
  let (scope, body) ← checkAssertion request internal
  let named ← namedDependencies request scope
  let deps ← named.foldlM (addDependency sha256 dump store request.project id) []
  if deps.length > 128 then .error "combined dependencies exceed 128"
  else
    match request.assumptions, request.support, request.counterevidence with
    | some assumptions, some support, some counterevidence =>
      pure ⟨request.project, id, actual + 1, request.kind, request.title, request.state, scope,
        body, assumptions, deps, support, counterevidence, request.author, createdAt, internal,
        origin⟩
    | _, _, _ => .error "assumptions must be an array"

/-- The tables with a new head revision. -/
def KnowledgeStore.published (store : KnowledgeStore) (record : KnowledgeRecord) : KnowledgeStore :=
  { (store.withHead record.project record.id record.revision) with
    records := store.records ++ [⟨record.project, record.id, record.revision, record.kind, record,
      sha256 (dump record)⟩]
    dependencies := store.dependencies ++ record.dependencies.map
      (⟨record.project, record.id, record.revision, ·⟩) }

/-- The transaction of `knowledge_put`. `freshId` is the id that a request
without one gets. -/
def putRecord (freshId createdAt : Text) (request : PutRequest) (internal : Bool)
    (origin : Option PublicationOrigin) : KnowledgeTx KnowledgeRecord := do
  let store ← get
  let id := request.id.getD freshId
  let actual := (store.head request.project id).getD 0
  if !isIdentifier request.project then throw "invalid identifier"
  else if request.project ∉ store.library.projects then throw "unknown project"
  else if !isIdentifier id then throw "invalid identifier"
  else if request.expectedRevision < 0 ∨ request.expectedRevision > 100000000 then
    throw "invalid bound: expected_revision"
  else if request.expectedRevision ≠ (actual : Int) then
    throw "revision_conflict: expected_revision does not match current record"
  else
    match buildRecord sha256 dump store request id actual createdAt internal origin with
    | .error e => throw e
    | .ok record =>
      if (String.ofList (dump record)).utf8ByteSize > 256 * 1024 then
        throw "knowledge record exceeds 256 KiB"
      else if (store.record record.project record.id record.revision).isSome then
        throw "UNIQUE constraint failed"
      else do
        set (store.published sha256 dump record)
        pure record

/-- Why a record is stale. -/
inductive Reason where
  | traversalLimit
  | dependencyCycle
  | recordRevised (dependency : Dependency)
  | upstreamStale (dependency : Dependency) (upstream : List Reason)
  | artifactUnavailable (dependency : Dependency)
  | runtimeChanged (dependency : Dependency)
  | runtimeMissing (dependency : Dependency)
  | analysisSuperseded (dependency : Dependency)
  | programAdvanced (dependency : Dependency)
  | recordSuperseded

/-- The members of `Freshness` that a traversal changes. -/
structure Traversal where
  visited : Nat
  bounded : Bool
  active : List Text

/-- The key of a revision in the visiting set. -/
def activeKey (record : KnowledgeRecord) : Text :=
  record.id ++ ":" ++ decimal record.revision

/-- The reasons of a dependency that is no record. -/
def leafReasons (store : KnowledgeStore) (project : Text) (d : Dependency) : List Reason :=
  match d.type with
  | .record => []
  | .artifact => if (store.library.object d.id).isSome then [] else [.artifactUnavailable d]
  | .observation | .epoch =>
    match currentPin sha256 dump store project d.type d.id with
    | .ok pin => if pin = d.pin then [] else [.runtimeChanged d]
    | .error _ => [.runtimeMissing d]
  | .entity | .evidence | .revision =>
    (if store.library.isAnalysisHead project d.pin then [] else [.analysisSuperseded d]) ++
      (if store.library.advanced project d.pin then [.programAdvanced d] else [])

/-- The reasons of one dependency. `check` is the traversal one level deeper. -/
def dependencyReasons (store : KnowledgeStore) (project : Text)
    (check : KnowledgeRecord → Traversal → Except String (List Reason × Traversal))
    (d : Dependency) (tr : Traversal) : Except String (List Reason × Traversal) :=
  match d.type with
  | .record => do
    let current ← loadRecord sha256 dump store project d.id 0
    let pinned ← loadRecord sha256 dump store project d.id (ofDecimal d.pin)
    let (inherited, tr) ← check pinned tr
    pure ((if decimal current.revision ≠ d.pin then [.recordRevised d] else []) ++
      (if inherited.isEmpty then [] else [.upstreamStale d inherited]), tr)
  | _ => .ok (leafReasons sha256 dump store project d, tr)

/-- The loop over the dependencies: it stops at 64 reasons. -/
def checkDependencies (store : KnowledgeStore) (project : Text)
    (check : KnowledgeRecord → Traversal → Except String (List Reason × Traversal)) :
    List Dependency → List Reason → Traversal → Except String (List Reason × Traversal)
  | [], reasons, tr => .ok (reasons, tr)
  | d :: rest, reasons, tr => do
    let (more, tr) ← dependencyReasons sha256 dump store project check d tr
    let reasons := reasons ++ more
    if 64 ≤ reasons.length then pure (reasons, { tr with bounded := true })
    else checkDependencies store project check rest reasons tr

/-- `Freshness::check`: `levels` counts down from 33 where the source counts its
depth up to 32. -/
def checkFreshness (store : KnowledgeStore) (project : Text) :
    Nat → KnowledgeRecord → Traversal → Except String (List Reason × Traversal)
  | 0, _, tr => .ok ([.traversalLimit], { tr with bounded := true })
  | levels + 1, record, tr =>
    if 4096 ≤ tr.visited then
      .ok ([.traversalLimit], { tr with visited := tr.visited + 1, bounded := true })
    else if activeKey record ∈ tr.active then
      .ok ([.dependencyCycle], { tr with visited := tr.visited + 1 })
    else do
      let (reasons, tr) ← checkDependencies sha256 dump store project
        (checkFreshness store project levels) record.dependencies []
        { tr with visited := tr.visited + 1, active := activeKey record :: tr.active }
      pure (reasons, { tr with active := tr.active.erase (activeKey record) })

inductive FreshnessState where
  | current
  | stale
  | unknown

/-- A record as it is shown. -/
structure Decorated where
  record : KnowledgeRecord
  staleReasons : List Reason
  freshness : FreshnessState
  complete : Bool

def decorated (store : KnowledgeStore) (project : Text) (record : KnowledgeRecord) :
    Except String Decorated := do
  let (reasons, tr) ← checkFreshness sha256 dump store project 33 record ⟨0, false, []⟩
  let reasons := reasons ++
    (if (store.head project record.id).any (· ≠ record.revision) then [.recordSuperseded] else [])
  pure ⟨record, reasons,
    if tr.bounded then .unknown else if reasons.isEmpty then .current else .stale, !tr.bounded⟩

/-- `knowledge show`. -/
def showKnowledge (store : KnowledgeStore) (project id : Text) (revision : Nat) :
    Except String Decorated := do
  let record ← loadRecord sha256 dump store project id revision
  decorated sha256 dump store project record

/-- What other commands write of what knowledge refers to. -/
inductive LibraryChange where
  | project (project : Text)
  | target (project sha : Text)
  | objects (objects : List (Text × Text))
  | evidence (row : AnalysisRow)
  | index (entities : List AnalysisRow) (indexed : List IndexedRevision)
      (heads : List (Text × Text))
  | runtime (row : RuntimeRow)

/-- Evidence and runtime captures are inserted and never changed; object files
may come and go, and the analysis index may be rebuilt. -/
def Library.change (library : Library) : LibraryChange → Except String Library
  | .project project => .ok { library with projects := library.projects ++ [project] }
  | .target project sha => .ok { library with targets := library.targets ++ [(project, sha)] }
  | .objects objects => .ok { library with objects := objects }
  | .evidence r =>
    if (row AnalysisRow.name r.name library.evidence).isSome then .error "UNIQUE constraint failed"
    else .ok { library with evidence := library.evidence ++ [r] }
  | .index entities indexed heads =>
    .ok { library with entities := entities, indexed := indexed, analysisHeads := heads }
  | .runtime r =>
    if (library.runtimeRow r.epoch r.project r.id).isSome then .error "UNIQUE constraint failed"
    else .ok { library with runtime := some (library.runtime.getD [] ++ [r]) }

inductive KnowledgeCall where
  | put (freshId createdAt : Text) (request : PutRequest) (internal : Bool)
      (origin : Option PublicationOrigin)
  | library (change : LibraryChange)

inductive KnowledgeAnswer where
  | put (shown : Except String Decorated)
  | changed

/-- A put shows the record that it published, after the commit. -/
def knowledgeService : Service KnowledgeStore KnowledgeCall KnowledgeAnswer String where
  exec
    | .put freshId createdAt request internal origin => fun store =>
      match putRecord sha256 dump freshId createdAt request internal origin store with
      | .error e => .error e
      | .ok (record, store') =>
        .ok (.put (decorated sha256 dump store' request.project record), store')
    | .library change => fun store =>
      match store.library.change change with
      | .error e => .error e
      | .ok library => .ok (.changed, { store with library := library })

end Digests

/-- A store without knowledge. -/
def KnowledgeStore.fresh (library : Library) : KnowledgeStore := ⟨library, [], [], []⟩

end Indago
