import IndagoRev.Tables
import IndagoRev.Text
import IndagoRev.Transactions

/-!
# Jobs

The job tables of the project store and the five transactions on them: a job
is queued once for an idempotency key, claimed under a lease, kept alive by
heartbeats, interrupted when its lease ran out, and published. Every operation
is one `BEGIN IMMEDIATE` transaction and takes the clock it reads. The ids of
the source are random; here ids, revisions and lease tokens are numbers drawn
from a counter of the store.
-/

namespace Indago

open StdText Tables Transactions

/-- The statuses the result contract admits. -/
inductive ResultStatus where
  | completed | partialResult | failed | cancelled | timeout
  | unavailable | invalidRequest | notFound | interrupted
  deriving DecidableEq

def ResultStatus.text : ResultStatus → Text
  | .completed => "completed"
  | .partialResult => "partial"
  | .failed => "failed"
  | .cancelled => "cancelled"
  | .timeout => "timeout"
  | .unavailable => "unavailable"
  | .invalidRequest => "invalid_request"
  | .notFound => "not_found"
  | .interrupted => "interrupted"

/-- The `enum` of the result contract. -/
def ResultStatus.all : List ResultStatus :=
  [.completed, .partialResult, .failed, .cancelled, .timeout,
    .unavailable, .invalidRequest, .notFound, .interrupted]

def ResultStatus.read (t : Text) : Option ResultStatus :=
  ResultStatus.all.find? (fun s => s.text = t)

/-- The status column of a job. -/
inductive JobStatus where
  | queued
  | running
  | ended (status : ResultStatus)
  deriving DecidableEq

/-- Neither queued nor running. -/
def JobStatus.terminal : JobStatus → Bool
  | .ended _ => true
  | _ => false

/-- A normalised action request. Two requests have one dump exactly when they
are equal. -/
structure JobRequest where
  project : Text
  targetId : Text
  artifactSha256 : Text
  backend : Text
  operation : Text
  address : Text
  view : Text
  arguments : Text
  wallMs : Nat
  outputBytes : Nat
  memoryBytes : Nat
  maxItems : Nat
  idempotencyKey : Text
  deriving DecidableEq

structure TargetRecord where
  id : Text
  project : Text
  sha256 : Text
  deriving DecidableEq

/-- The published result of a job. -/
structure ResultEnvelope where
  requestId : Nat
  resultRevision : Nat
  status : ResultStatus
  completeness : Text
  backend : Text
  artifactSha256 : Text
  evidenceId : Nat
  data : Text
  deriving DecidableEq

structure Job where
  id : Nat
  project : Text
  target : Text
  revision : Nat
  status : JobStatus
  request : JobRequest
  created : Nat
  finished : Option Nat
  result : Option ResultEnvelope
  deriving DecidableEq

structure JobLease where
  job : Nat
  token : Nat
  deadline : Nat
  heartbeat : Nat
  deriving DecidableEq

/-- The kind column of a job event. -/
inductive EventKind where
  | queued
  | started
  | ended (status : ResultStatus)
  deriving DecidableEq

structure JobEvent where
  job : Nat
  kind : EventKind
  time : Nat
  deriving DecidableEq

structure Idempotency where
  project : Text
  key : Text
  request : JobRequest
  job : Nat
  deriving DecidableEq

def Idempotency.name (row : Idempotency) : Text × Text := (row.project, row.key)

structure Evidence where
  id : Nat
  project : Text
  job : Nat
  revision : Nat
  producer : Text
  status : ResultStatus
  raw : Text
  created : Nat
  deriving DecidableEq

/-- The tables of the project store that jobs read and write. -/
structure JobStore where
  projects : List Text
  targets : List TargetRecord
  jobs : List Job
  leases : List JobLease
  events : List JobEvent
  idempotency : List Idempotency
  evidence : List Evidence
  made : Nat
  deriving DecidableEq

/-- What a backend hands to the publication. `accepted` says that the payload
parses and that its evidence, envelope and index rows can be stored. -/
structure CommandResult where
  status : Text
  json : Text
  accepted : Bool

/-- A job as a worker holds it. -/
structure JobTicket where
  id : Nat
  revision : Nat
  request : JobRequest
  leaseToken : Option Nat

namespace JobStore

variable (store : JobStore)

def job (id : Nat) : Option Job := row Job.id id store.jobs

def lease (id : Nat) : Option JobLease := row JobLease.job id store.leases

/-- The idempotency row of a request. A request without a key has none. -/
def prior (project key : Text) : Option Idempotency :=
  if key = [] then none else row Idempotency.name (project, key) store.idempotency

end JobStore

abbrev JobTx := Transaction JobStore String

def makeId : JobTx Nat := do
  let store ← get
  set { store with made := store.made + 1 }
  pure store.made

def requireProject (project : Text) : JobTx Unit := do
  let store ← get
  if project ∈ store.projects then pure () else throw "unknown project"

def jobInfo (project : Text) (id : Nat) : JobTx Job := do
  requireProject project
  let store ← get
  match store.job id with
  | some job => if job.project = project then pure job else throw "unknown job"
  | none => throw "unknown job"

/-- The foreign keys of a job row name a project and a target. -/
def addJob (job : Job) : JobTx Unit := do
  let store ← get
  if job.project ∈ store.projects ∧ job.target ∈ store.targets.map TargetRecord.id then
    set { store with jobs := store.jobs ++ [job] }
  else throw "FOREIGN KEY constraint failed"

def updateJob (id : Nat) (change : Job → Job) : JobTx Unit :=
  modify (fun store => { store with jobs := rewrite Job.id id change store.jobs })

def addLease (lease : JobLease) : JobTx Unit :=
  modify (fun store => { store with leases := store.leases ++ [lease] })

def deleteLease (id : Nat) : JobTx Unit :=
  modify (fun store => { store with leases := erase JobLease.job id store.leases })

def addEvidence (evidence : Evidence) : JobTx Unit :=
  modify (fun store => { store with evidence := store.evidence ++ [evidence] })

def addEvent (job : Nat) (kind : EventKind) (now : Nat) : JobTx Unit :=
  modify (fun store => { store with events := store.events ++ [⟨job, kind, now⟩] })

def addIdempotency (request : JobRequest) (project : Text) (job : Nat) : JobTx Unit :=
  modify (fun store =>
    if request.idempotencyKey = [] then store
    else { store with
      idempotency := store.idempotency ++ [⟨project, request.idempotencyKey, request, job⟩] })

variable (now : Nat) (target : TargetRecord)

def startJob (request : JobRequest) : JobTx Job := do
  let store ← get
  match store.prior target.project request.idempotencyKey with
  | some old =>
    if old.request = request then jobInfo target.project old.job
    else throw "idempotency key reused with different request"
  | none => do
    let id ← makeId
    let revision ← makeId
    let job : Job := ⟨id, target.project, target.id, revision, .queued, request, now, none, none⟩
    addJob job
    addIdempotency request target.project id
    addEvent id .queued now
    pure job

/-- `INSERT OR IGNORE` of a lease row: a job that has one keeps it. -/
def insertLease (id : Nat) (token : Nat) (now : Nat) : JobTx Unit := do
  let store ← get
  match store.lease id with
  | some _ => throw "job already has an owner; recover expired leases explicitly"
  | none => addLease ⟨id, token, now + 30000, now⟩

def claimJob (project : Text) (id : Nat) : JobTx JobTicket := do
  let store ← get
  match store.job id with
  | none => throw "unknown job"
  | some job =>
    if job.project ≠ project then throw "unknown job"
    else if job.status.terminal then throw "job is terminal; submit a new request to retry"
    else do
      let token ← makeId
      insertLease id token now
      updateJob id (fun job => { job with status := .running })
      addEvent id .started now
      pure ⟨id, job.revision, job.request, some token⟩

def heartbeat (now : Nat) (id : Nat) (token : Nat) : JobTx Unit := do
  let store ← get
  match store.lease id with
  | none => throw "job lease lost"
  | some lease =>
    if lease.token ≠ token then throw "job lease lost"
    else set { store with
      leases := rewrite JobLease.job id
        (fun lease => { lease with deadline := now + 30000, heartbeat := now }) store.leases }

/-- A running job of the project whose lease is missing or ran out. -/
def JobStore.abandoned (store : JobStore) (now : Nat) (project : Text) (job : Job) : Bool :=
  job.project = project && job.status = .running &&
    match store.lease job.id with
    | none => true
    | some lease => lease.deadline < now

/-- The rows of the interrupted jobs: a status, an event and no lease. -/
def JobStore.interrupt (store : JobStore) (now : Nat) (ids : List Nat) : JobStore :=
  { store with
    jobs := store.jobs.map (fun job =>
      if job.id ∈ ids then { job with status := .ended .interrupted, finished := some now } else job)
    events := store.events ++ ids.map (fun id => ⟨id, .ended .interrupted, now⟩)
    leases := store.leases.filter (fun lease => lease.job ∉ ids) }

def recoverJobs (project : Text) : JobTx (List Nat) := do
  requireProject project
  let store ← get
  let ids := (store.jobs.filter (store.abandoned now project)).map Job.id
  set (store.interrupt now ids)
  pure ids

/-- The job row that a ticket names, when all of its identity agrees. -/
def JobStore.identified (store : JobStore) (target : TargetRecord) (ticket : JobTicket)
    (backend : Text) : Option Job :=
  match store.job ticket.id with
  | none => none
  | some job =>
    if job.project = target.project ∧ job.target = target.id ∧ job.revision = ticket.revision ∧
        job.request = ticket.request ∧ ticket.request.backend = backend ∧
        ticket.request.artifactSha256 = target.sha256 then
      some job
    else none

/-- Without a lease row the publication goes through. -/
def JobStore.mayPublish (store : JobStore) (now : Nat) (ticket : JobTicket) : Bool :=
  match store.lease ticket.id with
  | none => true
  | some lease => ticket.leaseToken = some lease.token && now ≤ lease.deadline

def completeness : ResultStatus → Text
  | .completed => "complete"
  | .partialResult => "partial"
  | _ => "unknown"

def publishResult (ticket : JobTicket) (backend : Text)
    (result : CommandResult) : JobTx ResultEnvelope := do
  let store ← get
  match store.identified target ticket backend with
  | none => throw "job publication identity mismatch"
  | some job =>
    match job.result with
    | some stored => pure stored
    | none =>
      if job.status.terminal then throw "cannot publish into terminal job"
      else if store.mayPublish now ticket = false then
        throw "publication requires live owned lease"
      else
        match ResultStatus.read result.status, result.accepted with
        | some status, true => do
          let evidenceId ← makeId
          let envelope : ResultEnvelope := ⟨ticket.id, ticket.revision, status,
            completeness status, backend, target.sha256, evidenceId, result.json⟩
          addEvidence ⟨evidenceId, target.project, ticket.id, ticket.revision, backend,
            status, result.json, now⟩
          updateJob ticket.id (fun job => { job with
            status := .ended status, finished := some now, result := some envelope })
          addEvent ticket.id (.ended status) now
          deleteLease ticket.id
          pure envelope
        | _, _ => throw "contract result: unsupported value"

/-- One event applied to the status it finds; an event out of order leads nowhere. -/
def replayEvent : Option JobStatus → EventKind → Option JobStatus
  | none, .queued => some .queued
  | some .queued, .started => some .running
  | some .queued, .ended status => some (.ended status)
  | some .running, .ended status => some (.ended status)
  | _, _ => none

/-- The kinds of a job's events, in the order they were stored. -/
def JobStore.kinds (store : JobStore) (id : Nat) : List EventKind :=
  (store.events.filter (fun e => e.job = id)).map JobEvent.kind

/-- The status that the events of a job replay to. -/
def JobStore.replay (store : JobStore) (id : Nat) : Option JobStatus :=
  (store.kinds id).foldl replayEvent none

/-- One call on the job tables. -/
inductive JobCall where
  | start (target : TargetRecord) (request : JobRequest)
  | claim (project : Text) (id : Nat)
  | beat (id : Nat) (token : Nat)
  | recover (project : Text)
  | publish (target : TargetRecord) (ticket : JobTicket) (backend : Text) (result : CommandResult)

/-- What a committed call returns to its caller. -/
inductive JobAnswer where
  | job (job : Job)
  | ticket (ticket : JobTicket)
  | alive
  | interrupted (ids : List Nat)
  | result (envelope : ResultEnvelope)

/-- A call with the clock it reads. -/
abbrev TimedCall := Nat × JobCall

def jobService : Service JobStore TimedCall JobAnswer String where
  exec
    | (now, .start target request) => JobAnswer.job <$> startJob now target request
    | (now, .claim project id) => JobAnswer.ticket <$> claimJob now project id
    | (now, .beat id token) => (fun _ => JobAnswer.alive) <$> heartbeat now id token
    | (now, .recover project) => JobAnswer.interrupted <$> recoverJobs now project
    | (now, .publish target ticket backend result) =>
      JobAnswer.result <$> publishResult now target ticket backend result

/-- A store without jobs. -/
def JobStore.fresh (projects : List Text) (targets : List TargetRecord) : JobStore :=
  ⟨projects, targets, [], [], [], [], [], 0⟩

end Indago
