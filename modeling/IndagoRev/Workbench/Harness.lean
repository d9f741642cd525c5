import IndagoRev.Workbench.Knowledge

/-!
# Investigations

An investigation is a stored record with an owner lease, a budget and a list of
proposed actions. This module has the tables, the normalisation of a proposed
request, the reservation it needs, and the accesses that all operations share.
-/

namespace Indago

open StdText Tables Transactions

structure ActionBudget where
  wallMs : Nat
  outputBytes : Nat
  memoryBytes : Nat
  maxItems : Nat
  deriving DecidableEq

/-- A budget as a request names it. -/
structure BudgetDraft where
  wallMs : Option Int
  outputBytes : Option Int
  memoryBytes : Option Int
  maxItems : Option Int
  deriving DecidableEq

/-- The workbench operations that publish a product. -/
inductive ProductOperation where
  | helperRun | experimentRun | experimentCleanup | researchRun | guestRun
  deriving DecidableEq

/-- The schema of the product that an operation publishes. -/
def ProductOperation.schema : ProductOperation → Text
  | .helperRun => "indago.helper-run.v1"
  | .experimentRun => "indago.experiment.v1"
  | .experimentCleanup => "indago.experiment-cleanup.v1"
  | .researchRun => "indago.research.v1"
  | .guestRun => "indago.guest-run.v1"

/-- The operation of an action with its arguments. A static backend reads; the
other operations write knowledge. -/
inductive ActionWork where
  | static (backend operation address view arguments : Text)
  | knowledgePut (assertion : PutRequest)
  | knowledgeRevise (assertion : PutRequest)
  | validateCompare (arguments : Text)
  | validateTransform (arguments : Text)
  | transformRun (spec : Text) (offset size : Nat) (container : Bool)
  | product (operation : ProductOperation) (arguments : Text)
  deriving DecidableEq

/-- The backend of the action is the workbench. -/
def ActionWork.workbench : ActionWork → Bool
  | .static .. => false
  | _ => true

/-- A normalised request. `named` are the dependencies that the arguments of a
workbench operation name, `derivedBytes` its `derived_reservation`. -/
structure ActionRequest where
  project : Text
  targetId : Text
  artifactSha256 : Text
  work : ActionWork
  named : List DependencyInput
  budget : ActionBudget
  derivedBytes : Option Nat
  dependencyPins : List Dependency
  deriving DecidableEq

/-- A request as it is proposed. The checks of an operation on its own arguments
can only refuse it; the surroundings say whether they do. -/
structure ActionDraft where
  project : Option Text
  targetId : Option Text
  artifactSha256 : Option Text
  idempotencyKey : Option Text
  work : ActionWork
  named : List DependencyInput
  budget : Option BudgetDraft
  derivedBytes : Option Nat
  dependencyPins : Option (List Dependency)
  deriving DecidableEq

def ActionBudget.draft (budget : ActionBudget) : BudgetDraft :=
  ⟨some budget.wallMs, some budget.outputBytes, some budget.memoryBytes, some budget.maxItems⟩

/-- A stored request is a proposal of itself. -/
def ActionRequest.draft (request : ActionRequest) : ActionDraft :=
  ⟨some request.project, some request.targetId, some request.artifactSha256, none, request.work,
    request.named, some request.budget.draft, request.derivedBytes, some request.dependencyPins⟩

inductive InvestigationStatus where
  | ready | running | waitingForJob
  | answered | partialAnswer | budgetExhausted | unsupported | environmentUnavailable
  | contradictory | capabilityBlocked | failed | cancelled
  deriving DecidableEq

/-- `terminal`. -/
def InvestigationStatus.terminal : InvestigationStatus → Bool
  | .ready | .running | .waitingForJob => false
  | _ => true

structure Component where
  targetId : Text
  artifactSha256 : Text
  deriving DecidableEq

structure DerivedComponent where
  component : Component
  parentSha256 : Text
  action : Text
  knowledgeId : Text
  bytes : Nat
  deriving DecidableEq

structure DerivedGrant where
  maxArtifacts : Nat
  maxBytes : Nat
  deriving DecidableEq

structure Envelope where
  workbenchMutations : Bool
  analysisHelpers : Bool
  derivedArtifacts : DerivedGrant
  modelCalls : Bool
  deriving DecidableEq

structure InvestigationLimits where
  maxActions : Nat
  wallMs : Nat
  outputBytes : Nat
  deriving DecidableEq

structure Reserved where
  actions : Nat
  wallMs : Nat
  outputBytes : Nat
  derivedArtifacts : Nat
  derivedBytes : Nat
  deriving DecidableEq

structure ReportClaim where
  fact : Text
  text : Text
  evidenceIds : List Text
  limitations : List Text
  deriving DecidableEq

structure Report where
  answer : Text
  claims : List ReportClaim
  gaps : List Text
  requirementsVerified : Bool
  deriving DecidableEq

structure Owner where
  builtin : Bool
  name : Text
  deriving DecidableEq

structure Investigation where
  id : Text
  project : Text
  targetId : Text
  artifactSha256 : Text
  components : List Component
  derivedComponents : List DerivedComponent
  requiredFacts : List Text
  proofRequirements : Bool
  owner : Owner
  revision : Nat
  status : InvestigationStatus
  limits : InvestigationLimits
  reserved : Reserved
  envelope : Envelope
  board : Text
  reasoning : Text
  verifications : Nat
  runtimeSessions : List Text
  report : Option Report
  deriving DecidableEq

namespace Investigation

variable (inv : Investigation)

/-- `harness_components`. -/
def allComponents : List Component :=
  inv.components ++ inv.derivedComponents.map DerivedComponent.component

/-- `harness_contains_artifact`. -/
def containsArtifact (sha : Text) : Bool :=
  inv.allComponents.any (fun c => c.artifactSha256 = sha)

/-- `harness_select_component`. -/
def selectComponent (project targetId artifact : Option Text) : Except String Component :=
  if project.any (· ≠ inv.project) then .error "cross-project investigation request"
  else
    match targetId, artifact with
    | none, none => .ok ⟨inv.targetId, inv.artifactSha256⟩
    | _, _ =>
      match inv.allComponents.find? (fun c =>
        targetId.all (· = c.targetId) && artifact.all (· = c.artifactSha256)) with
      | some c => .ok c
      | none => .error "cross-scope or mismatched component request"

end Investigation

structure Proposal where
  gap : Text
  expectedEvidence : Text
  prediction : Text
  fallback : Text
  deriving DecidableEq

inductive ActionStatus where
  | proposed
  | running
  | waitingForJob
  | ended (status : ResultStatus)
  deriving DecidableEq

/-- What a transform derived, as its result tells it. -/
structure DerivedReceipt where
  targetId : Text
  artifactSha256 : Text
  parentSha256 : Text
  bytes : Nat
  knowledgeId : Text
  admitted : Bool
  deriving DecidableEq

/-- The result of an action. `knowledge` is the revision that a recovered
publication names. -/
structure ActionResult where
  status : ActionStatus
  outcomeUnknown : Bool
  diagnostic : String
  evidenceIds : List Nat
  knowledge : Option (Text × Nat)
  derived : Option DerivedReceipt
  runtimeSessions : List Text
  deriving DecidableEq

/-- The publication that an action points to. -/
structure Publication where
  knowledgeId : Text
  revision : Nat
  sha256 : Text
  origin : PublicationOrigin
  deriving DecidableEq

structure ActionRecord where
  id : Text
  project : Text
  investigation : Text
  key : Text
  proposal : Proposal
  request : ActionRequest
  status : ActionStatus
  dispatchStarted : Bool
  jobId : Option Nat
  publication : Option Publication
  result : Option ActionResult
  deriving DecidableEq

namespace ActionRecord

variable (action : ActionRecord)

/-- The outcome is unknown although a publication was committed, so that a
further run may still find it out. -/
def recoverable : Bool :=
  action.publication.isSome &&
    match action.result with
    | some result => result.outcomeUnknown
    | none => false

/-- The run of an action that has this result answers with it. -/
def settled : Bool :=
  action.result.isSome && !action.recoverable

/-- Proposed, running or waiting for a job. -/
def unsettled : Bool :=
  match action.status with
  | .ended _ => false
  | _ => true

end ActionRecord

/-- A row of `wb_investigations`. Without an owner lease the hash is empty. -/
structure InvestigationRow where
  project : Text
  id : Text
  record : Investigation
  tokenHash : Text
  deadline : Nat
  deriving DecidableEq

def InvestigationRow.name (row : InvestigationRow) : Text × Text := (row.project, row.id)

/-- A row of `wb_investigation_actions`. A runner is named by a number. -/
structure ActionRow where
  project : Text
  investigation : Text
  id : Text
  key : Text
  requestHash : Text
  record : ActionRecord
  runner : Option Nat
  deadline : Nat
  deriving DecidableEq

def ActionRow.name (row : ActionRow) : Text × Text := (row.project, row.id)

/-- A row of `wb_model_runs`, as far as others look at it. -/
structure ControllerRow where
  project : Text
  id : Text
  runner : Nat
  deadline : Nat
  deriving DecidableEq

structure HarnessStore where
  jobs : JobStore
  knowledge : KnowledgeStore
  investigations : List InvestigationRow
  actions : List ActionRow
  controllers : List ControllerRow
  deriving DecidableEq

namespace HarnessStore

variable (store : HarnessStore) (project id : Text)

def investigation : Option InvestigationRow :=
  row InvestigationRow.name (project, id) store.investigations

def action : Option ActionRow := row ActionRow.name (project, id) store.actions

/-- The actions of an investigation, oldest first. -/
def actionsOf : List ActionRow :=
  store.actions.filter (fun r => r.project = project ∧ r.investigation = id)

/-- `running`: another controller, or the runner of an action. -/
def running (now : Nat) (controller : Option Nat) : Bool :=
  store.controllers.any (fun c =>
    c.project = project && c.id = id && now < c.deadline && some c.runner ≠ controller) ||
  (store.actionsOf project id).any (fun r => r.runner.isSome && now < r.deadline)

/-- `unsettled`. -/
def unsettled : Bool := (store.actionsOf project id).any (fun r => r.record.unsettled)

/-- The target of the project under an id. -/
def target : Option TargetRecord :=
  store.jobs.targets.find? (fun t => t.project = project ∧ t.id = id)

/-- The target of the project with this content. -/
def targetOf (sha : Text) : Option TargetRecord :=
  store.jobs.targets.find? (fun t => t.project = project ∧ t.sha256 = sha)

end HarnessStore

abbrev HarnessTx := Transaction HarnessStore String

/-- What the surroundings contribute to one access: the clock and a later reading
of it, whether the database refuses the access or its commit, whether a check
that is not modelled refuses, whether the job lease was lost, fresh ids, the size
of a file, and what a backend or an operation computed. -/
structure HarnessInput where
  now : Nat
  later : Nat
  busy : Bool
  commitBusy : Bool
  refused : Bool
  leaseLost : Bool
  freshId : Text
  token : Text
  createdAt : Text
  bytes : Nat
  computed : PutRequest
  outcome : CommandResult
  sessions : List Text

def budgetField (name : String) (fallback min max : Nat) (value : Option Int) : Except String Nat :=
  match value with
  | none => .ok fallback
  | some n => if n < min ∨ max < n then .error ("out-of-range budget " ++ name) else .ok n.toNat

/-- The budget of a static action: small without any, else with the defaults and
the ranges of the action contract. -/
def normalizeBudget : Option BudgetDraft → Except String ActionBudget
  | none => .ok ⟨10000, 65536, 2147483648, 128⟩
  | some draft => do
    let wallMs ← budgetField "wall_ms" 120000 1 3600000 draft.wallMs
    let outputBytes ← budgetField "output_bytes" 2097152 4096 67108864 draft.outputBytes
    let memoryBytes ← budgetField "memory_bytes" 2147483648 1048576 2147483648 draft.memoryBytes
    let maxItems ← budgetField "max_items" 2048 1 100000 draft.maxItems
    pure ⟨wallMs, outputBytes, memoryBytes, maxItems⟩

/-- The static backends and the operations that the envelope forbids them. -/
def staticBackends : List Text :=
  ["airece", "xair", "sym", "ghidra", "ilspy", "capa", "floss", "lief", "wireshark"]

def staticForbidden : List Text :=
  ["annotate", "analyze", "flush", "close"]

variable (env : HarnessInput) (store : HarnessStore)

/-- The request of a static action: scope, envelope and `StaticService::normalize`. -/
def normalizeStatic (inv : Investigation)
    (draft : ActionDraft) (backend operation : Text) (c : Component) :
    Except String ActionRequest :=
  if backend ∉ staticBackends ∨ operation ∈ staticForbidden then
    .error "capability_blocked: action outside static-read-only envelope"
  else if draft.named ≠ [] ∨ draft.derivedBytes ≠ none ∨ draft.dependencyPins ≠ none then
    .error "contract action: unknown field"
  else do
    let budget ← normalizeBudget draft.budget
    if env.refused then .error "unsupported backend operation"
    else
      match store.target inv.project c.targetId with
      | none => .error "project has no matching target"
      | some target =>
        if target.sha256 ≠ c.artifactSha256 then .error "stale artifact identity"
        else pure ⟨inv.project, c.targetId, c.artifactSha256, draft.work, [], budget, none, []⟩

/-- The version that a mutation dependency has now. -/
def currentVersion (project : Text) (type : DependencyType) (id : Text) : Except String Text :=
  match type with
  | .record =>
    match store.knowledge.head project id with
    | some n => .ok (decimal n)
    | none => .error "unknown workbench dependency"
  | .evidence =>
    match row AnalysisRow.name (project, id) store.knowledge.library.evidence with
    | some found => .ok found.revision
    | none => .error "unknown workbench dependency"
  | _ => .error "capability_blocked: mutation dependency must be artifact, record or evidence"

/-- `pin`: a dependency with the version that it has now. -/
def pinDependency (inv : Investigation) (d : DependencyInput) : Except String Dependency :=
  match DependencyType.read d.type with
  | none => .error "capability_blocked: mutation dependency must be artifact, record or evidence"
  | some type => do
    let version ←
      if type = .artifact then
        if inv.containsArtifact d.id then .ok d.id
        else .error "artifact dependency outside investigation scope"
      else currentVersion store inv.project type d.id
    if d.pin.any (· ≠ version) then .error "dependency pin is stale"
    else pure ⟨type, d.id, version⟩

/-- The fixed budget of a workbench operation. -/
def ActionWork.capsule : ActionWork → ActionBudget
  | .product .helperRun _ => ⟨20000, 65536, 805306368, 16⟩
  | .product .experimentRun _ => ⟨40000, 65536, 67108864, 16⟩
  | .product .experimentCleanup _ => ⟨40000, 65536, 67108864, 16⟩
  | .product .guestRun _ => ⟨40000, 65536, 67108864, 16⟩
  | _ => ⟨10000, 65536, 67108864, 16⟩

/-- The bytes that a workbench operation may derive: those of a transform. -/
def ActionWork.reservation : ActionWork → Option Nat
  | .transformRun _ _ size container => some (if container then 1048576 else size)
  | _ => none

/-- What a workbench operation asks of the envelope and of its own arguments. -/
def ActionWork.granted (inv : Investigation) : ActionWork → Except String Unit
  | .product .helperRun _ =>
    if inv.envelope.analysisHelpers then .ok ()
    else .error "capability_blocked: explicit analysis_helpers grant required"
  | .transformRun _ _ size container =>
    if inv.envelope.derivedArtifacts.maxArtifacts = 0 ∨
        inv.envelope.derivedArtifacts.maxBytes = 0 then
      .error "capability_blocked: explicit derived-artifact grant required"
    else if container = false ∧ 1048576 < size then
      .error "harness transform selection exceeds 1 MiB; provide an explicit range"
    else .ok ()
  | .knowledgePut assertion =>
    if assertion.id.isSome then .error "use knowledge.revise for existing assertions"
    else .ok ()
  | .knowledgeRevise assertion =>
    if assertion.id = none ∨ assertion.body = none then
      .error "knowledge.revise requires id, expected_revision and replacement body"
    else .ok ()
  | _ => .ok ()

/-- `normalize_harness_workbench`. -/
def normalizeWorkbench (inv : Investigation)
    (draft : ActionDraft) (c : Component) : Except String ActionRequest :=
  if inv.envelope.workbenchMutations = false then
    .error "capability_blocked: explicit workbench mutation grant required"
  else do
    draft.work.granted inv
    let pins ← (⟨"artifact", c.artifactSha256, none⟩ :: draft.named).mapM
      (pinDependency store inv)
    if env.refused then .error "workbench arguments refused"
    else if draft.derivedBytes.any (fun bytes => some bytes ≠ draft.work.reservation) then
      .error "derived storage reservation mismatch"
    else if draft.dependencyPins.any (· ≠ pins) then
      .error "dependency pin is stale; proposal cannot be dispatched"
    else if draft.budget.any (· ≠ draft.work.capsule.draft) then
      .error "workbench capsule uses a fixed bounded reservation"
    else pure ⟨inv.project, c.targetId, c.artifactSha256, draft.work, draft.named,
      draft.work.capsule, draft.work.reservation, pins⟩

/-- The request that a proposal stands for. -/
def normalizeRequest (inv : Investigation) (draft : ActionDraft) : Except String ActionRequest := do
  let c ← inv.selectComponent draft.project draft.targetId draft.artifactSha256
  if draft.idempotencyKey.isSome then .error "controller owns idempotency keys"
  else
    match draft.work with
    | .static backend operation _ _ _ =>
      normalizeStatic env store inv draft backend operation c
    | _ => normalizeWorkbench env store inv draft c

/-- Addition of two 64-bit counters. -/
def add64 (m n : Nat) : Nat := (m + n) % 2 ^ 64

/-- The derived reservation of a request on top of the counters. -/
def Reserved.derive (used : Reserved) (grant : DerivedGrant) : Option Nat → Except String Reserved
  | none => .ok used
  | some bytes =>
    if grant.maxArtifacts < add64 used.derivedArtifacts 1 ∨
        grant.maxBytes < add64 used.derivedBytes bytes then
      .error "derived-artifact reservation exceeds investigation budget"
    else .ok { used with
      derivedArtifacts := add64 used.derivedArtifacts 1
      derivedBytes := add64 used.derivedBytes bytes }

/-- The counters with the share of one more request. -/
def Investigation.reserve (inv : Investigation) (request : ActionRequest) :
    Except String Reserved := do
  let used ← inv.reserved.derive inv.envelope.derivedArtifacts request.derivedBytes
  if 120000 < request.budget.wallMs ∨ 2147483648 < request.budget.memoryBytes ∨
      inv.limits.maxActions ≤ used.actions ∨
      inv.limits.wallMs < add64 used.wallMs request.budget.wallMs ∨
      inv.limits.outputBytes < add64 used.outputBytes request.budget.outputBytes then
    .error "action exceeds remaining investigation budget"
  else pure { used with
    wallMs := add64 used.wallMs request.budget.wallMs
    outputBytes := add64 used.outputBytes request.budget.outputBytes
    actions := add64 used.actions 1 }

/-- `text_field`. -/
def textField (t : Text) (max : Nat) : Bool :=
  t ≠ [] && (String.ofList t).utf8ByteSize ≤ max

/-- `texts`. -/
def textList (ts : List Text) (max : Nat) : Bool :=
  ts.length ≤ max && ts.all (textField · 4096)

variable (project id : Text)

def loadInvestigation : HarnessTx InvestigationRow := do
  let store ← get
  match store.investigation project id with
  | some found => pure found
  | none => throw "unknown investigation"

def updateInvestigation (change : InvestigationRow → InvestigationRow) : HarnessTx Unit :=
  modify (fun store => { store with
    investigations := rewrite InvestigationRow.name (project, id) change store.investigations })

/-- `save_investigation`: the revision goes up by one. -/
def saveInvestigation (inv : Investigation) : HarnessTx Investigation := do
  updateInvestigation project id (fun r =>
    { r with record := { inv with revision := inv.revision + 1 } })
  pure { inv with revision := inv.revision + 1 }

def actionRecord (project investigation id : Text) : HarnessTx ActionRow := do
  let store ← get
  match store.action project id with
  | some found =>
    if found.investigation = investigation then pure found
    else throw "unknown investigation action"
  | none => throw "unknown investigation action"

def updateAction (change : ActionRow → ActionRow) : HarnessTx Unit :=
  modify (fun store => { store with
    actions := rewrite ActionRow.name (project, id) change store.actions })

/-- `save_action`: the record of an action is replaced, whoever runs it. -/
def saveAction (action : ActionRecord) : HarnessTx Unit :=
  updateAction action.project action.id (fun r => { r with record := action })

def checkRevision (expected : Option Nat) (inv : Investigation) : HarnessTx Unit :=
  if expected = some inv.revision then pure ()
  else throw "revision_conflict: refresh investigation before changing it"

end Indago
