import IndagoRev.Interleaving
import IndagoRev.Workbench.Jobs

/-!
# Batches

A batch is a stored record of ordered analysis steps with a budget. A run claims
the batch row under an owner token, walks the steps and writes the record after
each change; every write names the token, so a run that lost the row cannot
write. The record of a run is a local copy: what it changed since its last
write is lost when the process dies, and is written as `interrupted` when a
statement throws. The run takes one action for each database access of the
source. Event rows, which no operation reads back, are left out.
-/

namespace Indago

open StdText Tables Transactions Interleaving

inductive StepStatus where
  | pending
  | queued
  | running
  | dependencyBlocked
  | ended (status : ResultStatus)
  deriving DecidableEq

def StepStatus.ofJob : JobStatus → StepStatus
  | .queued => .queued
  | .running => .running
  | .ended status => .ended status

/-- `success(status, partial)`. -/
def StepStatus.success (status : StepStatus) (partialToo : Bool) : Bool :=
  status = .ended .completed || (partialToo && status = .ended .partialResult)

structure BatchStep where
  name : Text
  dependsOn : List Text
  allowPartialDependencies : Bool
  request : JobRequest
  status : StepStatus
  attempt : Nat
  jobId : Option Nat
  reserved : Bool
  reservedKey : Option Text
  resultRevision : Option Nat
  evidenceIds : List Nat
  deriving DecidableEq

inductive BatchStatus where
  | queued
  | running
  | cancelled
  | waitingForJob
  | budgetExhausted
  | completed
  | partialResult
  | interrupted
  deriving DecidableEq

structure BatchBudget where
  wallMs : Nat
  outputBytes : Nat
  memoryBytes : Nat
  maxJobs : Nat

structure BatchRecord where
  id : Text
  project : Text
  title : Text
  status : BatchStatus
  steps : List BatchStep
  budget : BatchBudget
  reservedWallMs : Nat
  reservedOutputBytes : Nat
  jobsStarted : Nat

/-- A row of `wb_batches`. `everReserved` is history: every reservation key that
a stored record of the batch ever held. -/
structure BatchRow where
  project : Text
  id : Text
  record : BatchRecord
  owner : Option Nat
  deadline : Nat
  cancel : Bool
  everReserved : List Text

def BatchRow.name (row : BatchRow) : Text × Text := (row.project, row.id)

/-- The tables that batches read and write. -/
structure BatchStore where
  jobs : JobStore
  batches : List BatchRow

def BatchStore.batch (store : BatchStore) (project id : Text) : Option BatchRow :=
  row BatchRow.name (project, id) store.batches

abbrev BatchTx := Transaction BatchStore String

/-- A transaction on the job tables alone. -/
def onJobs {α : Type} (t : JobTx α) : BatchTx α := fun store =>
  match t store.jobs with
  | .ok answer => .ok (answer.1, { store with jobs := answer.2 })
  | .error e => .error e

def updateBatch (project id : Text) (change : BatchRow → BatchRow) : BatchTx Unit :=
  modify (fun store =>
    { store with batches := rewrite BatchRow.name (project, id) change store.batches })

/-- One step of a creation request, with its action already normalised. -/
structure StepDraft where
  name : Text
  dependsOn : List Text
  allowPartialDependencies : Bool
  request : JobRequest

/-- The backends a batch may call. -/
def batchBackends : List Text :=
  ["airece", "xair", "sym", "ghidra", "ilspy", "capa", "floss", "lief", "wireshark"]

/-- Edits and session controls are not batch operations. -/
def batchForbidden : List Text :=
  ["annotate", "analyze", "flush", "close"]

/-- `wb::identifier`. -/
def isIdentifier (s : Text) : Bool :=
  !s.isEmpty && s.length ≤ 128 && s.all (fun c => c.isAlphanum || c = '_' || c = '-')

def prepareStep (project : Text) (budget : BatchBudget) (names : List Text) (draft : StepDraft) :
    Except String BatchStep :=
  if !isIdentifier draft.name then .error "invalid identifier"
  else if draft.name ∈ names then .error "duplicate batch step name"
  else if draft.dependsOn.length > 64 then .error "invalid batch dependencies"
  else if ¬ draft.dependsOn.all (· ∈ names) then
    .error "dependencies must name preceding steps; cycles forbidden"
  else if draft.request.project ≠ project then .error "cross-project batch request forbidden"
  else if draft.request.backend ∉ batchBackends ∨ draft.request.operation ∈ batchForbidden then
    .error "batch supports read analysis operations only; edits/session controls require explicit actions"
  else if draft.request.idempotencyKey ≠ [] then .error "batch owns action idempotency keys"
  else if draft.request.wallMs > budget.wallMs ∨ draft.request.outputBytes > budget.outputBytes ∨
      draft.request.memoryBytes > budget.memoryBytes then
    .error "step budget exceeds batch ceiling"
  else .ok ⟨draft.name, draft.dependsOn, draft.allowPartialDependencies, draft.request,
    .pending, 0, none, false, none, none, []⟩

def prepareSteps (project : Text) (budget : BatchBudget) :
    List Text → List StepDraft → Except String (List BatchStep)
  | _, [] => .ok []
  | names, draft :: rest => do
    let step ← prepareStep project budget names draft
    let steps ← prepareSteps project budget (names ++ [draft.name]) rest
    pure (step :: steps)

/-- The ceilings of the batch budget. -/
def BatchBudget.bounded (budget : BatchBudget) : Bool :=
  budget.wallMs ≤ 86400000 && budget.outputBytes ≤ 256 * 1024 * 1024 &&
    budget.memoryBytes ≤ 16 * 1024 * 1024 * 1024 && budget.maxJobs ≤ 128

def newBatch (project id title : Text) (budget : BatchBudget) (steps : List BatchStep) : BatchRow where
  project := project
  id := id
  record := ⟨id, project, title, .queued, steps, budget, 0, 0, 0⟩
  owner := none
  deadline := 0
  cancel := false
  everReserved := []

def createBatch (project id title : Text) (budget : BatchBudget) (drafts : List StepDraft) :
    BatchTx Unit := do
  let store ← get
  if project ∉ store.jobs.projects then throw "unknown project"
  else if drafts = [] ∨ drafts.length > 64 then throw "batch requires 1..64 ordered steps"
  else if !budget.bounded then throw "invalid bound"
  else if (store.batch project id).isSome then throw "UNIQUE constraint failed"
  else
    match prepareSteps project budget [] drafts with
    | .error e => throw e
    | .ok steps =>
      set { store with batches := store.batches ++ [newBatch project id title budget steps] }

def cancelBatch (project id : Text) : BatchTx Unit :=
  updateBatch project id (fun row => { row with cancel := true })

/-- The heartbeat of a run. -/
def beatBatch (now : Nat) (project id : Text) (token : Nat) : BatchTx Unit :=
  updateBatch project id (fun row =>
    if row.owner = some token then { row with deadline := now + 30000 } else row)

/-- What the surroundings contribute to one action of a run: the clock, whether
the heartbeat was lost, whether the database or the artifact refuses, whether
the job lease was lost, and what the backend produced. -/
structure Surroundings where
  now : Nat
  lost : Bool
  busy : Bool
  refused : Bool
  leaseLost : Bool
  outcome : CommandResult

/-- What an action of a run is about: `toward` marks the accesses between the
choice of a job and the claim of it. -/
inductive BatchLabel where
  | access
  | review (step : BatchStep)
  | submit (project key : Text)
  | toward (job : Nat)
  | claim (job : Nat)
  deriving DecidableEq

/-- The local data of a run: its copy of the record, and the statuses of the
steps it passed. -/
structure BatchLocal where
  record : BatchRecord
  states : Text → Option StepStatus

structure RunOptions where
  project : Text
  id : Text
  token : Nat
  retryFailed : Bool

abbrev BatchProgram := Program Surroundings BatchLabel BatchStore BatchLocal String

/-- An access to the database, which may be refused. -/
def access {α : Type} (label : BatchLabel) (t : Surroundings → BatchTx α) : BatchProgram α :=
  Program.atomically label (fun env => if env.busy then throw "database is locked" else t env)

/-- The row once a record is written into it. -/
def BatchRow.saved (row : BatchRow) (now : Nat) (record : BatchRecord) : BatchRow :=
  { row with
    record := record
    deadline := now + 30000
    everReserved := record.steps.filterMap BatchStep.reservedKey ∪ row.everReserved }

def saveBatch (now : Nat) (opts : RunOptions) (record : BatchRecord) : BatchTx Unit := do
  let store ← get
  match store.batch opts.project opts.id with
  | none => throw "batch ownership lost"
  | some row =>
    if row.owner = some opts.token then
      updateBatch opts.project opts.id (fun row => row.saved now record)
    else throw "batch ownership lost"

def save (label : BatchLabel) (opts : RunOptions) : BatchProgram Unit := do
  let data ← get
  access label (fun env => saveBatch env.now opts data.record)

def releaseBatch (opts : RunOptions) : BatchTx Unit :=
  updateBatch opts.project opts.id (fun row =>
    if row.owner = some opts.token then { row with owner := none, deadline := 0 } else row)

def setStatus (status : BatchStatus) : BatchProgram Unit :=
  modify (fun data => { data with record := { data.record with status := status } })

def setStep (i : Nat) (step : BatchStep) : BatchProgram Unit :=
  modify (fun data => { data with
    record := { data.record with steps := data.record.steps.set i step } })

def noteState (name : Text) (status : StepStatus) : BatchProgram Unit :=
  modify (fun data => { data with states := Function.update data.states name (some status) })

/-- Whether the loop over the steps goes on. -/
inductive Flow where
  | next
  | stop

/-- The statuses that the run noted for the dependencies allow the step. -/
def BatchLocal.ready (data : BatchLocal) (step : BatchStep) : Bool :=
  step.dependsOn.all (fun d =>
    match data.states d with
    | some status => status.success step.allowPartialDependencies
    | none => false)

/-- The end of the review of a previous job: settle the step, take its job away
for another attempt, or go on with the job (`none`). -/
def settleOrRetry (opts : RunOptions) (i : Nat) (step : BatchStep) (previous : Job) :
    BatchProgram (Option Flow) :=
  if step.status ≠ .running ∧ step.status ≠ .pending ∧ previous.status ≠ .queued then
    if opts.retryFailed = false ∨ 2 ≤ step.attempt then do
      noteState step.name step.status
      pure (some .next)
    else do
      setStep i { step with jobId := none }
      pure none
  else pure none

variable (step : BatchStep)

/-- The step with the status of its job's result. -/
def BatchStep.settled (job : Job) (result : ResultEnvelope) : BatchStep :=
  { step with status := .ended result.status, resultRevision := some job.revision }

/-- The review of the job that a step already has. -/
def reviewJob (opts : RunOptions) (i : Nat) (step : BatchStep) (job : Nat) :
    BatchProgram (Option Flow) := do
  let previous ← access (.review step) (fun _ => onJobs (jobInfo opts.project job))
  match previous.result with
  | some result => do
    setStep i (step.settled previous result)
    if (step.settled previous result).status.success true then do
      noteState step.name (step.settled previous result).status
      pure (some .next)
    else settleOrRetry opts i (step.settled previous result) previous
  | none =>
    if previous.status = .running then do
      let _ ← access .access (fun env => onJobs (recoverJobs env.now opts.project))
      let current ← access .access (fun _ => onJobs (jobInfo opts.project job))
      if current.status = .running then do
        setStatus .waitingForJob
        pure (some .stop)
      else do
        setStep i { step with status := .ofJob current.status }
        settleOrRetry opts i { step with status := .ofJob current.status } current
    else settleOrRetry opts i step previous

/-- The target that a request names. -/
def requestTarget (request : JobRequest) : BatchTx TargetRecord := do
  let store ← get
  match store.jobs.targets.find? (fun t => t.id = request.targetId ∧ t.project = request.project) with
  | none => throw "project has no matching target"
  | some target => pure target

/-- `StaticService::prepare` of a normalised request: its target is still the
pinned artifact, and the job is started. -/
def prepare (request : JobRequest) : BatchProgram Job :=
  access (.submit request.project request.idempotencyKey) (fun env => do
    let target ← requestTarget request
    if env.refused then throw "artifact integrity check failed"
    else if target.sha256 ≠ request.artifactSha256 then throw "stale artifact identity"
    else onJobs (startJob env.now target request))

/-- `StaticService::execute`. -/
def execute (job : Job) : BatchProgram ResultEnvelope := do
  let prior ← access (.toward job.id) (fun _ => onJobs (jobInfo job.project job.id))
  match prior.result with
  | some result => pure result
  | none => do
    let ticket ← access (.claim prior.id)
      (fun env => onJobs (claimJob env.now prior.request.project prior.id))
    access .access (fun env => do
      let target ← requestTarget ticket.request
      if env.leaseLost then throw "job ownership lost; result not published"
      else onJobs (publishResult env.now target ticket ticket.request.backend env.outcome))

section Keys

-- SHA-256 of a step name, in hexadecimal.
variable (digest : Text → Text)

/-- The idempotency key of one attempt at a step. -/
def attemptKey (id name : Text) (attempt : Nat) : Text :=
  id ++ ":" ++ digest name ++ ":" ++ decimal attempt

variable (record : BatchRecord)

/-- The budget has no room for another job. -/
def BatchRecord.exhausted (request : JobRequest) : Bool :=
  record.budget.maxJobs ≤ record.jobsStarted ||
    record.budget.wallMs < record.reservedWallMs + request.wallMs ||
    record.budget.outputBytes < record.reservedOutputBytes + request.outputBytes

/-- The reservation of one attempt in the record. -/
def BatchRecord.reserve (request : JobRequest) : BatchRecord :=
  { record with
    reservedWallMs := record.reservedWallMs + request.wallMs
    reservedOutputBytes := record.reservedOutputBytes + request.outputBytes
    jobsStarted := record.jobsStarted + 1 }

/-- The step with an attempt reserved. -/
def BatchStep.reserve (id : Text) (step : BatchStep) : BatchStep :=
  { step with
    reserved := true, reservedKey := some (attemptKey digest id step.name (step.attempt + 1)) }

/-- The step once its reserved attempt was submitted as `job`. -/
def BatchStep.submit (job : Nat) : BatchStep :=
  { step with jobId := some job, attempt := step.attempt + 1, reserved := false }

/-- Submit the attempt that the step has reserved. -/
def submitReserved (i : Nat) : BatchProgram Unit := do
  let data ← get
  match data.record.steps[i]? with
  | none => throw "step out of range"
  | some reserved =>
    match reserved.reservedKey with
    | none => throw "type must be string, but is null"
    | some key => do
      let job ← prepare { reserved.request with idempotencyKey := key }
      setStep i (reserved.submit job.id)

/-- Reserve an attempt unless one is reserved, and submit it under its key. -/
def submitAttempt (opts : RunOptions) (i : Nat) (step : BatchStep) : BatchProgram Unit := do
  if step.reserved = false then do
    modify (fun data => { data with record := data.record.reserve step.request })
    setStep i (step.reserve digest opts.id)
    save .access opts
  submitReserved i

def BatchStep.started : BatchStep := { step with status := .running }

/-- The step with the result of its job. -/
def BatchStep.finished (result : ResultEnvelope) : BatchStep :=
  { step with
    status := .ended result.status
    resultRevision := some result.resultRevision
    evidenceIds := [result.evidenceId] }

/-- Run the job of the step and settle the step with its result. -/
def runJob (opts : RunOptions) (i : Nat) : BatchProgram Flow := do
  let data ← get
  match data.record.steps[i]? with
  | none => throw "step out of range"
  | some step =>
    match step.jobId with
    | none => throw "key 'job_id' not found"
    | some id => do
      setStep i step.started
      save (.toward id) opts
      let job ← access (.toward id) (fun _ => onJobs (jobInfo opts.project id))
      let result ← execute job
      setStep i (step.finished result)
      noteState step.name (.ended result.status)
      save .access opts
      pure .next

/-- Submit a step that has no job, and run it. -/
def launch (opts : RunOptions) (i : Nat) : BatchProgram Flow := do
  let data ← get
  match data.record.steps[i]? with
  | none => throw "step out of range"
  | some step =>
    if step.jobId.isNone ∧ step.reserved = false ∧ data.record.exhausted step.request then do
      setStatus .budgetExhausted
      pure .stop
    else do
      if step.jobId.isNone then submitAttempt digest opts i step
      runJob opts i

/-- One step of the loop. -/
def runStep (opts : RunOptions) (i : Nat) : BatchProgram Flow := do
  let cancelled ← access .access (fun env => do
    if env.lost then throw "batch heartbeat lost"
    else
      let store ← get
      pure (match store.batch opts.project opts.id with
        | some row => row.cancel
        | none => false))
  if cancelled then do
    setStatus .cancelled
    pure .stop
  else do
    let data ← get
    match data.record.steps[i]? with
    | none => throw "step out of range"
    | some step =>
      if step.status.success true then do
        noteState step.name step.status
        pure .next
      else if data.ready step = false then do
        setStep i { step with status := .dependencyBlocked }
        noteState step.name .dependencyBlocked
        pure .next
      else
        match step.jobId with
        | none => launch digest opts i
        | some job => do
          match ← reviewJob opts i step job with
          | some flow => pure flow
          | none => launch digest opts i

def runSteps (opts : RunOptions) : List Nat → BatchProgram Unit
  | [] => pure ()
  | i :: rest => do
    match ← runStep digest opts i with
    | .next => runSteps opts rest
    | .stop => pure ()

/-- The status of a batch whose loop ran through. -/
def BatchRecord.outcome : BatchStatus :=
  if record.steps.all (fun step => step.status.success false) then .completed else .partialResult

def release (opts : RunOptions) : BatchProgram Unit :=
  access .access (fun _ => releaseBatch opts)

/-- The end of a run that threw: the record is written as interrupted if that is
still possible, and the row is released. -/
def interrupted (opts : RunOptions) (e : String) : BatchProgram Unit := do
  tryCatch (do
    setStatus .interrupted
    save .access opts) (fun _ => pure ())
  release opts
  throw e

/-- The end of a run whose loop ended. -/
def finish (opts : RunOptions) : BatchProgram Unit := do
  let data ← get
  if data.record.status = .running then setStatus data.record.outcome
  save .access opts
  release opts

/-- The body of `run` behind the claim of the row. -/
def runBatch (opts : RunOptions) : BatchProgram Unit :=
  tryCatch
    (do
      setStatus .running
      save .access opts
      let data ← get
      runSteps digest opts (List.range data.record.steps.length)
      finish opts)
    (interrupted opts)

end Keys

/-- What users and workers can ask for. -/
inductive BatchCall where
  | create (project id title : Text) (budget : BatchBudget) (drafts : List StepDraft)
  | run (project id : Text) (retryFailed resetCancel : Bool)
  | cancel (project id : Text)
  | beat (project id : Text) (token : Nat)
  | job (call : JobCall)

/-- The store after a transaction: one that throws is rolled back. -/
def committed {α : Type} (t : BatchTx α) (store : BatchStore) : BatchStore :=
  match t store with
  | .ok answer => answer.2
  | .error _ => store

/-- The claim of a batch row by the run with the given token. -/
def BatchRow.claimable (row : BatchRow) (now : Nat) : Bool :=
  row.owner = none || row.deadline < now

def BatchRow.claimed (row : BatchRow) (now token : Nat) (resetCancel : Bool) : BatchRow :=
  { row with
    owner := some token
    deadline := now + 30000
    cancel := if resetCancel then false else row.cancel }

/-- Start a call: a run claims its row and goes on as a process under the token
of its number, the other calls are single transactions. -/
def batchMachine (digest : Text → Text) : Machine Surroundings BatchLabel BatchStore BatchCall where
  start
    | .create project id title budget drafts, _, _, store =>
      (committed (createBatch project id title budget drafts) store, .done ())
    | .cancel project id, _, _, store => (committed (cancelBatch project id) store, .done ())
    | .beat project id token, _, env, store =>
      (committed (beatBatch env.now project id token) store, .done ())
    | .job call, _, env, store =>
      ({ store with jobs := jobService.after store.jobs (env.now, call) }, .done ())
    | .run project id retryFailed resetCancel, token, env, store =>
      match store.batch project id with
      | none => (store, .done ())
      | some row =>
        if row.claimable env.now then
          ({ store with
            batches := rewrite BatchRow.name (project, id)
              (fun row => row.claimed env.now token resetCancel) store.batches },
            (runBatch digest ⟨project, id, token, retryFailed⟩).process
              ⟨row.record, fun _ => none⟩)
        else (store, .done ())

end Indago
