import IndagoRev.Workbench.HarnessOwner

/-!
# Runs of actions

A run claims the row of an action under its runner number, works on a copy of the
record, and settles the row that it finds at the end. A mutation is dispatched to
a worker process, which publishes one knowledge revision and the pointer to it in
one transaction; the run then reads back what was published. The worker is a
process of its own here: it may be started at any time, and outlives a run that
crashed.
-/

namespace Indago

open StdText Tables Transactions Interleaving

/-- What an access is about: a static run stores its job in the action, and a
worker publishes for a runner of the action. -/
inductive HarnessLabel where
  | access
  | storeJob (project action : Text)
  | publish (project action : Text) (runner : Nat)

/-- The copies that a run works on. -/
structure RunLocal where
  action : ActionRecord
  inv : Investigation

structure ActionOptions where
  project : Text
  id : Text
  action : Text
  runner : Nat

/-- A program of the harness with local data of type `ρ`. -/
abbrev HarnessProgram (ρ : Type) := Program HarnessInput HarnessLabel HarnessStore ρ String

/-- An access to the database, which may be refused. -/
def query {ρ α : Type} (label : HarnessLabel) (t : HarnessInput → HarnessTx α) :
    HarnessProgram ρ α :=
  Program.atomically label (fun env => if env.busy then throw "database is locked" else t env)

/-- A transaction on the job tables alone. -/
def overJobs {α : Type} (t : JobTx α) : HarnessTx α := fun store =>
  match t store.jobs with
  | .ok answer => .ok (answer.1, { store with jobs := answer.2 })
  | .error e => .error e

/-- A transaction on the knowledge tables alone. -/
def overKnowledge {α : Type} (t : KnowledgeTx α) : HarnessTx α := fun store =>
  match t store.knowledge with
  | .ok answer => .ok (answer.1, { store with knowledge := answer.2 })
  | .error e => .error e

def ActionResult.ofStatus (status : ActionStatus) : ActionResult :=
  ⟨status, false, "", [], none, none, []⟩

def ActionResult.failed (diagnostic : String) : ActionResult :=
  ⟨.ended .failed, false, diagnostic, [], none, none, []⟩

/-- A mutation of which nothing is known. -/
def ActionResult.unknown (diagnostic : String) : ActionResult :=
  ⟨.ended .interrupted, true, diagnostic, [], none, none, []⟩

def ActionResult.ofJob (result : ResultEnvelope) : ActionResult :=
  ⟨.ended result.status, false, "", [result.evidenceId], none, none, []⟩

/-- What is stored of a result: of a static action its status and evidence. -/
def ActionResult.summary (result : ActionResult) (request : ActionRequest) : ActionResult :=
  if request.work.workbench then result
  else ⟨result.status, false, result.diagnostic, result.evidenceIds, none, none, []⟩

section Digests

-- SHA-256 of a text in hexadecimal, and the texts of a record and of a request.
variable (sha256 : Text → Text) (dump : KnowledgeRecord → Text)
  (dumpRequest : ActionRequest → Text)

/-- `PublicationContext`. -/
structure PublicationContext where
  project : Text
  investigation : Text
  action : Text
  runner : Nat
  requestSha256 : Text

/-- `publication_origin`. -/
def PublicationContext.origin (ctx : PublicationContext) : PublicationOrigin :=
  ⟨ctx.investigation, ctx.action, ctx.requestSha256⟩

/-- `publication_action`: the action that the context still runs, not published yet. -/
def publicationAction (now : Nat) (ctx : PublicationContext) : HarnessTx ActionRow := do
  let store ← get
  match store.action ctx.project ctx.action with
  | none => throw "publication runner or request identity lost"
  | some found =>
    if found.investigation ≠ ctx.investigation ∨ found.runner ≠ some ctx.runner ∨
        found.deadline ≤ now ∨ found.requestHash ≠ ctx.requestSha256 then
      throw "publication runner or request identity lost"
    else if found.record.dispatchStarted = false ∨ found.record.publication.isSome = true ∨
        found.record.request.work.workbench = false ∨
        sha256 (dumpRequest found.record.request) ≠ ctx.requestSha256 then
      throw "invalid or repeated action publication"
    else pure found

/-- The pin that a dependency has at the publication. -/
def HarnessStore.publishedPin (store : HarnessStore) (project : Text) (d : Dependency) :
    Option Text :=
  match d.type with
  | .artifact => (store.targetOf project d.id).map TargetRecord.sha256
  | .record => (store.knowledge.head project d.id).map decimal
  | .evidence =>
    (row AnalysisRow.name (project, d.id) store.knowledge.library.evidence).map
      AnalysisRow.revision
  | _ => none

/-- `check_publication_dependencies`. -/
def checkPublicationDependencies (now : Nat) (ctx : PublicationContext) (project : Text) :
    HarnessTx Unit :=
  if ctx.project ≠ project then throw "cross-project publication context"
  else do
    let found ← publicationAction sha256 dumpRequest now ctx
    let store ← get
    if found.record.request.dependencyPins.all (fun d =>
        store.publishedPin project d = some d.pin) then
      pure ()
    else throw "dependency pin changed before publication"

/-- `link_publication`. -/
def linkPublication (now : Nat) (ctx : PublicationContext) (record : KnowledgeRecord) :
    HarnessTx Unit :=
  if record.project ≠ ctx.project then throw "cross-project publication context"
  else do
    let found ← publicationAction sha256 dumpRequest now ctx
    updateAction ctx.project ctx.action (fun r =>
      if r.runner = some ctx.runner then
        { r with record := { found.record with
          publication := some ⟨record.id, record.revision, sha256 (dump record), ctx.origin⟩ } }
      else r)

/-- The transaction of a put inside a publication scope. -/
def publishRecord (env : HarnessInput) (ctx : PublicationContext) (request : PutRequest)
    (internal : Bool) : HarnessTx KnowledgeRecord := do
  checkPublicationDependencies sha256 dumpRequest env.now ctx request.project
  let record ← overKnowledge
    (putRecord sha256 dump env.freshId env.createdAt request internal (some ctx.origin))
  linkPublication sha256 dump dumpRequest env.later ctx record
  pure record

/-- The body fields that tell which request a publication belongs to. -/
def ActionRequest.marks (request : ActionRequest) : Fields :=
  match request.work with
  | .transformRun spec offset size _ =>
    [("input_artifact", .text request.artifactSha256), ("spec", .text spec),
      ("input_offset", .number offset), ("input_size", .number size)]
  | .product operation arguments =>
    [("schema", .text operation.schema), ("request_sha256", .text (sha256 arguments))]
  | _ => []

/-- The kind of record that an operation publishes. -/
def ActionWork.kind : ActionWork → Text
  | .static .. => []
  | .knowledgePut assertion => assertion.kind
  | .knowledgeRevise assertion => assertion.kind
  | .validateCompare _ => "validation"
  | .validateTransform _ => "validation"
  | .transformRun .. => "transformation"
  | .product .. => "product"

/-- `execute_harness_workbench`: the put that an operation ends in. What an
operation computes on its own comes from the surroundings. -/
def ActionRequest.execution (request : ActionRequest) (computed : PutRequest) : PutRequest × Bool :=
  match request.work with
  | .knowledgePut assertion => (assertion, false)
  | .knowledgeRevise assertion => (assertion, false)
  | _ => ({ computed with
      project := request.project
      id := none
      expectedRevision := 0
      kind := request.work.kind
      body := computed.body.map (request.marks sha256 ++ ·) }, true)

/-- The recovery recognises a record as the publication of a request. -/
def ActionRequest.publishes (request : ActionRequest) (record : KnowledgeRecord) : Bool :=
  record.kind = request.work.kind &&
    (request.marks sha256).all (fun mark => record.body.field mark.1 = some mark.2) &&
    match request.work with
    | .knowledgeRevise assertion =>
      some record.id = assertion.id && (record.revision : Int) = assertion.expectedRevision + 1
    | _ => true

/-- What a recovered transform derived. -/
def derivedReceipt (store : HarnessStore) (request : ActionRequest) (record : KnowledgeRecord) :
    Except String (Option DerivedReceipt) :=
  match request.work with
  | .transformRun .. =>
    match record.body.field "output_artifact", record.body.field "output_size" with
    | some (.text sha), some (.number size) =>
      match store.targetOf request.project sha with
      | none => .error "published derived target is missing"
      | some target =>
        .ok (some ⟨target.id, sha, request.artifactSha256, size.toNat, record.id, false⟩)
    | _, _ => .error "key 'output_artifact' not found"
  | _ => .ok none

/-- `recover_harness_publication`. Stored revisions do not change, so its reads
are one access here. -/
def recoverPublication (env : HarnessInput) (action : ActionRecord) : HarnessTx ActionResult := do
  let store ← get
  let origin : PublicationOrigin :=
    ⟨action.investigation, action.id, sha256 (dumpRequest action.request)⟩
  match action.publication with
  | none => throw "key 'publication' not found"
  | some publication =>
    if publication.origin ≠ origin ∨ action.request.work.workbench = false then
      throw "publication origin does not match action"
    else
      match store.knowledge.record action.project publication.knowledgeId
          publication.revision with
      | none => throw "committed publication is missing"
      | some found =>
        if publication.sha256 ≠ found.sha ∨ sha256 (dump found.record) ≠ found.sha ∨
            found.record.harnessOrigin ≠ some origin then
          throw "committed publication integrity mismatch"
        else
          match showKnowledge sha256 dump store.knowledge action.project
              publication.knowledgeId publication.revision with
          | .error e => throw e
          | .ok shown =>
            if action.request.publishes sha256 shown.record = false then
              throw "publication differs from request"
            else
              match derivedReceipt store action.request shown.record with
              | .error e => throw e
              | .ok derived => pure ⟨.ended .completed, false, "", [],
                  some (shown.record.id, shown.record.revision), derived, env.sessions⟩

/-- What the claim of an action leads to. -/
inductive Claimed where
  | answered (action : ActionRecord)
  | runs (action : ActionRecord) (inv : Investigation)

/-- The first transaction of `run_action`. -/
def claimAction (env : HarnessInput) (caller : Caller) (project id action : Text)
    (expected : Option Nat) (runner : Nat) : HarnessTx Claimed := do
  let found ← loadInvestigation project id
  checkController caller found.record
  checkOwnership sha256 env.now caller.token found
  let current ← actionRecord project id action
  if current.record.settled then pure (.answered current.record)
  else if found.record.status.terminal then throw "investigation is terminal"
  else do
    checkIdle env project id caller
    checkRevision expected found.record
    updateAction project action (fun r =>
      { r with runner := some runner, deadline := env.now + 60000 })
    saveAction { current.record with status := .running }
    let inv ← saveInvestigation project id { found.record with status := .running }
    pure (.runs { current.record with status := .running } inv)

/-- The heartbeat of a run: its lease and that of its owner. -/
def beatAction (env : HarnessInput) (opts : ActionOptions) (token : Text) : HarnessTx Unit := do
  let store ← get
  match store.action opts.project opts.action with
  | none => throw "lost"
  | some found =>
    if found.runner ≠ some opts.runner then throw "lost"
    else do
      updateAction opts.project opts.action (fun r => { r with deadline := env.now + 60000 })
      updateInvestigation opts.project opts.id (fun r =>
        if r.tokenHash = sha256 token then { r with deadline := env.now + 60000 } else r)

/-- `normalize_harness_workbench` of a stored request. -/
def normalizeAgain (env : HarnessInput) (inv : Investigation) (request : ActionRequest) :
    HarnessTx ActionRequest := do
  let store ← get
  if request.work.workbench = false then
    throw "capability_blocked: workbench mutation not granted"
  else
    match inv.selectComponent (some request.project) (some request.targetId)
        (some request.artifactSha256) with
    | .error e => throw e
    | .ok c =>
      match normalizeWorkbench env store inv request.draft c with
      | .error e => throw e
      | .ok normal => pure normal

/-- What became of the mark that a dispatch leaves. -/
inductive Dispatch where
  | cancelled
  | lost
  | marked

/-- The mark is written into the copy, and stored while the run holds the row. -/
def markDispatch (env : HarnessInput) (opts : ActionOptions) (action : ActionRecord) :
    HarnessTx Dispatch := do
  let found ← loadInvestigation opts.project opts.id
  if found.record.status = .cancelled then pure .cancelled
  else do
    let store ← get
    match store.action opts.project opts.action with
    | none => pure .lost
    | some current =>
      if current.runner ≠ some opts.runner ∨ env.commitBusy = true then pure .lost
      else do
        updateAction opts.project opts.action (fun r =>
          { r with record := { action with dispatchStarted := true } })
        pure .marked

def readAction {ρ : Type} (opts : ActionOptions) : HarnessProgram ρ ActionRecord :=
  query .access (fun _ => do
    let found ← actionRecord opts.project opts.id opts.action
    pure found.record)

/-- The publication of an action, or an unknown outcome. -/
def recoverOr {ρ : Type} (action : ActionRecord) (diagnostic : String) :
    HarnessProgram ρ ActionResult :=
  match action.publication with
  | some _ => query .access (fun env => recoverPublication sha256 dump dumpRequest env action)
  | none => pure (.unknown diagnostic)

def startDispatch : HarnessProgram RunLocal Unit :=
  modify (fun data => { data with action := { data.action with dispatchStarted := true } })

variable (opts : ActionOptions)

/-- The run of a mutation: it is dispatched once, and read back afterwards. -/
def runWorkbench : HarnessProgram RunLocal ActionResult := do
  let data ← get
  if data.action.dispatchStarted then
    recoverOr sha256 dump dumpRequest data.action
      "Mutation outcome is unknown after interruption; no automatic replay."
  else do
    let _ ← query .access (fun env => normalizeAgain env data.inv data.action.request)
    match ← query .access (fun env => markDispatch env opts data.action) with
    | .cancelled => pure (.ofStatus (.ended .cancelled))
    | .lost => do
      startDispatch
      throw "mutation runner ownership lost before dispatch"
    | .marked => do
      startDispatch
      let saved ← readAction opts
      recoverOr sha256 dump dumpRequest saved
        "Worker stopped without a committed publication; no automatic replay"

/-- The process of the worker, `harness_workbench_worker`. -/
def workbenchWorker : HarnessProgram Unit Unit := do
  let action ← query .access (fun env => do
    let found ← actionRecord opts.project opts.id opts.action
    if found.runner = some opts.runner ∧ env.now < found.deadline then pure found.record
    else throw "workbench worker runner lease unavailable")
  let inv ← query .access (fun _ => loadInvestigation opts.project opts.id)
  if inv.record.status = .cancelled then pure ()
  else if action.dispatchStarted = false ∨ action.publication.isSome = true then
    throw "workbench worker dispatch is absent or already published"
  else do
    let normal ← query .access (fun env => normalizeAgain env inv.record action.request)
    let _ ← query (.publish opts.project opts.action opts.runner) (fun env =>
      let put := normal.execution sha256 env.computed
      publishRecord sha256 dump dumpRequest env
        ⟨opts.project, opts.id, opts.action, opts.runner, sha256 (dumpRequest normal)⟩ put.1 put.2)
    pure ()

/-- The job request of a static action. -/
def ActionRequest.job (request : ActionRequest) (key : Text) : Option JobRequest :=
  match request.work with
  | .static backend operation address view arguments =>
    some ⟨request.project, request.targetId, request.artifactSha256, backend, operation, address,
      view, arguments, request.budget.wallMs, request.budget.outputBytes,
      request.budget.memoryBytes, request.budget.maxItems, key⟩
  | _ => none

/-- The scope and the envelope, checked again for a stored action. -/
def ActionRequest.inEnvelope (request : ActionRequest) (inv : Investigation) : Bool :=
  (match inv.selectComponent (some request.project) (some request.targetId)
    (some request.artifactSha256) with
  | .ok _ => true
  | .error _ => false) &&
    match request.work with
    | .static backend operation _ _ _ =>
      backend ∈ staticBackends && operation ∉ staticForbidden
    | _ => false

variable (request : JobRequest)

/-- The target that a job request names. -/
def jobTarget : HarnessTx TargetRecord := do
  let store ← get
  match store.target request.project request.targetId with
  | none => throw "project has no matching target"
  | some target => pure target

/-- `StaticService::prepare`. -/
def prepareJob : HarnessProgram RunLocal Job :=
  query .access (fun env => do
    let target ← jobTarget request
    if env.refused then throw "artifact integrity check failed"
    else if target.sha256 ≠ request.artifactSha256 then throw "stale artifact identity"
    else overJobs (startJob env.now target request))

/-- `StaticService::execute`. -/
def executeJob (job : Job) : HarnessProgram RunLocal ResultEnvelope := do
  let prior ← query .access (fun _ => overJobs (jobInfo job.project job.id))
  match prior.result with
  | some result => pure result
  | none => do
    let ticket ← query .access
      (fun env => overJobs (claimJob env.now prior.request.project prior.id))
    query .access (fun env => do
      let target ← jobTarget ticket.request
      if env.leaseLost then throw "job ownership lost; result not published"
      else
        overJobs (publishResult env.now target ticket ticket.request.backend env.outcome))

/-- The run of a static action: the job it prepared is stored in the action, and
executed unless a worker already has it. -/
def runStatic : HarnessProgram RunLocal ActionResult := do
  let data ← get
  if data.action.request.inEnvelope data.inv = false then
    throw "capability_blocked: stored action outside static envelope"
  else
    match data.action.request.job (opts.id ++ ":" ++ opts.action) with
    | none => throw "key 'backend' not found"
    | some request => do
      let job ← prepareJob request
      modify (fun data => { data with action := { data.action with jobId := some job.id } })
      query (.storeJob opts.project opts.action)
        (fun _ => saveAction { data.action with jobId := some job.id })
      match job.status with
      | .running => pure (.ofStatus .waitingForJob)
      | .queued => do
        let result ← executeJob job
        pure (.ofJob result)
      | .ended status =>
        match job.result with
        | some result => pure (.ofJob result)
        | none => pure (.ofStatus (.ended status))

def performAction : HarnessProgram RunLocal ActionResult := do
  let data ← get
  if data.action.request.work.workbench then runWorkbench sha256 dump dumpRequest opts
  else runStatic opts

/-- The result of a run that threw. A mutation that was dispatched may have
committed before the failure. -/
def afterFailure (e : String) : HarnessProgram RunLocal ActionResult := do
  let data ← get
  if data.action.request.work.workbench = true ∧ data.action.dispatchStarted = true then
    tryCatch (do
      let saved ← readAction opts
      recoverOr sha256 dump dumpRequest saved e)
      (fun _ => pure (.unknown e))
  else pure (.failed e)

variable (inv : Investigation)

/-- The runtime sessions of an experiment join those of the investigation. -/
def Investigation.observe (request : ActionRequest) (sessions : List Text) : Investigation :=
  match request.work with
  | .product .experimentRun _ => { inv with
      runtimeSessions := sessions.foldl (fun known session =>
        if session ∉ known ∧ known.length < 128 then known ++ [session] else known)
        inv.runtimeSessions }
  | _ => inv

/-- The admission of a derived artifact into the scope. A cancelled investigation
admits nothing. -/
def admitDerived (env : HarnessInput) (store : HarnessStore) (aid : Text) (inv : Investigation)
    (request : ActionRequest) (receipt : DerivedReceipt) : Except String (Investigation × Bool) :=
  if request.work.reservation = none ∨ receipt.parentSha256 ≠ request.artifactSha256 ∨
      inv.containsArtifact receipt.parentSha256 = false then
    .error "derived receipt does not match its scoped transform"
  else
    match store.target inv.project receipt.targetId with
    | none => .error "project has no matching target"
    | some target =>
      if target.sha256 ≠ receipt.artifactSha256 ∨ env.bytes ≠ receipt.bytes ∨
          request.derivedBytes.getD 0 < env.bytes then
        .error "derived output exceeds reservation or fails identity verification"
      else if inv.status = .cancelled then .ok (inv, false)
      else if inv.containsArtifact target.sha256 then .ok (inv, true)
      else if inv.envelope.derivedArtifacts.maxArtifacts ≤ inv.derivedComponents.length ∨
          32 ≤ inv.allComponents.length then
        .error "derived component admission budget exhausted"
      else .ok ({ inv with derivedComponents := inv.derivedComponents ++
        [⟨⟨target.id, target.sha256⟩, receipt.parentSha256, aid, receipt.knowledgeId,
          env.bytes⟩] }, true)

/-- The investigation and the result once a derived artifact was admitted or not. -/
def admitResult (env : HarnessInput) (store : HarnessStore) (aid : Text) (inv : Investigation)
    (request : ActionRequest) (result : ActionResult) : Investigation × ActionResult :=
  match result.derived with
  | none => (inv, result)
  | some receipt =>
    if result.status ≠ .ended .completed then (inv, result)
    else
      match admitDerived env store aid inv request receipt with
      | .ok (inv', admitted) =>
        (inv', { result with derived := some { receipt with admitted := admitted } })
      | .error _ => (inv, { result with
          status := .ended .partialResult
          derived := some { receipt with admitted := false } })

/-- The record of an action with the result of its run. -/
def ActionRecord.settle (action : ActionRecord) (result : ActionResult) : ActionRecord :=
  { action with
    status := result.status
    result := if result.status = .waitingForJob then action.result
      else some (result.summary action.request) }

/-- The status of an investigation behind a run. -/
def Investigation.resume (status : ActionStatus) : Investigation :=
  if inv.status = .cancelled then inv
  else { inv with status := if status = .waitingForJob then .waitingForJob else .ready }

/-- The last transaction of `run_action`, on what it finds stored. -/
def settleAction (env : HarnessInput) (opts : ActionOptions) (result : ActionResult) :
    HarnessTx Unit := do
  let found ← loadInvestigation opts.project opts.id
  let current ← actionRecord opts.project opts.id opts.action
  let store ← get
  let settled := admitResult env store opts.action
    (found.record.observe current.record.request result.runtimeSessions) current.record.request result
  if current.runner ≠ some opts.runner then throw "action runner ownership lost"
  else do
    updateAction opts.project opts.action (fun r => { r with
      runner := none, deadline := 0, record := current.record.settle settled.2 })
    let _ ← saveInvestigation opts.project opts.id (settled.1.resume settled.2.status)
    pure ()

/-- `run_action` behind its claim. -/
def runAction : HarnessProgram RunLocal Unit := do
  let result ← tryCatch (performAction sha256 dump dumpRequest opts)
    (afterFailure sha256 dump dumpRequest opts)
  query .access (fun env => settleAction env opts result)

/-- What owners, workers and other commands can ask for. -/
inductive HarnessCall where
  | create (request : CreateRequest)
  | claim (project id : Text) (controller expected : Option Nat)
  | renew (project id : Text) (caller : Caller)
  | cancel (project id : Text) (caller : Caller)
  | release (project id : Text) (caller : Caller) (expected : Option Nat) (next : Option Owner)
  | note (project id : Text) (caller : Caller) (expected : Option Nat) (note : InvestigationNote)
  | propose (caller : Caller) (request : ProposeRequest)
  | finish (caller : Caller) (request : FinishRequest)
  | run (caller : Caller) (project id action : Text) (expected : Option Nat)
  | beat (opts : ActionOptions) (token : Text)
  | worker (opts : ActionOptions)
  | controllers (rows : List ControllerRow)
  | put (request : PutRequest) (internal : Bool)
  | library (change : LibraryChange)
  | target (target : TargetRecord)
  | job (call : JobCall)

/-- The change of a store by other commands. -/
def changeLibrary (change : LibraryChange) : HarnessTx Unit := do
  let store ← get
  match store.knowledge.library.change change with
  | .error e => throw e
  | .ok library => set { store with knowledge := { store.knowledge with library := library } }

/-- `import_target`: the target is known to the job tables and to knowledge. -/
def addTarget (target : TargetRecord) : HarnessTx Unit := do
  changeLibrary (.target target.project target.sha256)
  modify (fun store => { store with
    jobs := { store.jobs with targets := store.jobs.targets ++ [target] } })

/-- The transaction of a call. Only the run of an action goes on behind it. -/
def HarnessCall.transaction (env : HarnessInput) : HarnessCall → HarnessTx Unit
  | .create request => do let _ ← createInvestigation sha256 env request
  | .claim project id controller expected => do
    let _ ← claimInvestigation sha256 env project id controller expected
  | .renew project id caller => renewInvestigation sha256 env project id caller
  | .cancel project id caller => do let _ ← cancelInvestigation sha256 env project id caller
  | .release project id caller expected next => do
    let _ ← releaseInvestigation sha256 env project id caller expected next
  | .note project id caller expected written => do
    let _ ← noteInvestigation sha256 env project id caller expected written
  | .propose caller request => do let _ ← proposeAction sha256 dumpRequest env caller request
  | .finish caller request => do let _ ← finishInvestigation sha256 env caller request
  | .run .. => pure ()
  | .beat opts token => beatAction sha256 env opts token
  | .worker _ => pure ()
  | .controllers rows => modify (fun store => { store with controllers := rows })
  | .put request internal => do
    let _ ← overKnowledge
      (putRecord sha256 dump env.freshId env.createdAt request internal none)
  | .library change => changeLibrary change
  | .target imported => addTarget imported
  | .job call => do
    let _ ← overJobs (jobService.exec (env.now, call))

/-- The store once a transaction answered, with no process to run. -/
def HarnessStore.answered (store : HarnessStore) : Except String (Unit × HarnessStore) →
    HarnessStore × Proc HarnessInput HarnessLabel HarnessStore Unit
  | .ok answer => (answer.2, .done ())
  | .error _ => (store, .done ())

/-- Start a call: a run claims its action under the number of its process. -/
def harnessMachine : Machine HarnessInput HarnessLabel HarnessStore HarnessCall where
  start
    | .run caller project id action expected, n, env, store =>
      match claimAction sha256 env caller project id action expected n store with
      | .ok (.runs record inv, store') =>
        (store', (runAction sha256 dump dumpRequest ⟨project, id, action, n⟩).process ⟨record, inv⟩)
      | .ok (.answered _, store') => (store', .done ())
      | .error _ => (store, .done ())
    | .worker opts, _, _, store => (store, (workbenchWorker sha256 dump dumpRequest opts).process ())
    | call, _, env, store =>
      match call.transaction sha256 dump dumpRequest env store with
      | .ok answer => (answer.2, .done ())
      | .error _ => (store, .done ())

end Digests

/-- A store without investigations. -/
def HarnessStore.fresh (jobs : JobStore) (library : Library) : HarnessStore :=
  ⟨jobs, .fresh library, [], [], []⟩

end Indago
