import IndagoRev.Workbench.ReferenceScan

/-!
# Retention

A retention run moves old objects that nothing refers to into a quarantine. It holds
the storage lease alone, while everything that publishes holds a share of it: from
before the object is written until after the row that names it is committed. The
lease is never waited for: who cannot have it refuses.

Every access to the file system or to a database is one action. A process that is
killed fails at its next action; what it did stays, and the system drops its lease.
-/

namespace Indago.Storage

open StdText Transactions Interleaving JsonValues

inductive CoreTable where
  | projects | targets | jobs | evidence | functions | functionViews | idempotency | jobLeases
  | jobEvents | indexedRevisions | artifactLayouts | analysisHeads | staticEntities
  | staticRelations | staticClaims | artifactDerivations | wbRecords | wbHeads
  | wbDependencies | wbBatches | wbEvents | wbInvestigations | wbInvestigationActions
  | wbModelRuns
  deriving DecidableEq

/-- `core_tables`. -/
def coreTables : List CoreTable :=
  [.projects, .targets, .jobs, .evidence, .functions, .functionViews, .idempotency, .jobLeases,
    .jobEvents, .indexedRevisions, .artifactLayouts, .analysisHeads, .staticEntities,
    .staticRelations, .staticClaims, .artifactDerivations, .wbRecords, .wbHeads,
    .wbDependencies, .wbBatches, .wbEvents, .wbInvestigations, .wbInvestigationActions,
    .wbModelRuns]

inductive RuntimeTable where
  | sessions | requests | observations | codeEpochs | lifetimes
  deriving DecidableEq

/-- `runtime_tables`. -/
def runtimeTables : List RuntimeTable :=
  [.sessions, .requests, .observations, .codeEpochs, .lifetimes]

/-- The rows of each table, in the order of the table. -/
abbrev Database (τ : Type) : Type := τ → List Row

/-- A directory below `quarantine`. `presented` is the digest that the request which
made it carried. -/
structure QuarantineDirectory where
  id : Nat
  presented : Text
  files : List Text
  manifest : Option (List Candidate)

structure RetentionReport where
  candidates : List Candidate
  more : Bool
  planDigest : Text
  quarantine : Option Nat

/-- What a retention call was asked and what its caller got. -/
structure RetentionAnswer where
  id : Nat
  request : Json
  outcome : Except StorageFault RetentionReport

/-- The files of a workspace, and who holds the storage lease. -/
structure Workspace where
  objects : List StoredObject
  core : Database CoreTable
  runtime : Option (Database RuntimeTable)
  shared : List Nat
  exclusive : Option Nat
  quarantine : List QuarantineDirectory
  answers : List RetentionAnswer

/-- What the surroundings choose at an action: whether it fails, what a file to import
holds, what a clock says and what an operation writes. -/
structure StorageInput where
  fails : Bool
  regularFile : Bool
  bytes : Text
  written : Int
  renamed : Bool
  clock : Text → Int
  rowId : Text
  created : Text
  core : Database CoreTable
  runtime : Option (Database RuntimeTable)

inductive StorageLabel where
  | acquire
  | read
  | stage
  | place
  | commit
  | prepare
  | move (id : Nat) (sha : Text)
  | manifest
  | release

/-- The parts that the operations use as they are: the JSON parser, the writer of
JSON, and SHA-256 in hexadecimal. -/
structure StorageEnv where
  parse : Text → Option Json
  dump : Json → Text
  sha256 : Text → Text

abbrev StorageTx (α : Type) : Type := Transaction Workspace StorageFault α

abbrev StorageProgram (α : Type) : Type :=
  Program StorageInput StorageLabel Workspace Unit StorageFault α

namespace Workspace

variable (s : Workspace) (sha : Text)

/-- A file of the object store has this name. -/
def has : Bool := s.objects.any (fun o => o.sha = sha)

/-- The store with a file in its place. -/
def place (o : StoredObject) : Workspace :=
  { s with objects := s.objects.filter (fun other => other.sha ≠ o.sha) ++ [o] }

/-- The store without a file. -/
def remove : Workspace :=
  { s with objects := s.objects.filter (fun o => o.sha ≠ sha) }

/-- The hash that a row of `targets` names. -/
def targetSha (row : Row) : Text := row.getD 2 []

/-- The hash that a row of `evidence` names. -/
def evidenceSha (row : Row) : Text := row.getD 5 []

/-- A hash is that of a target or of an evidence item. -/
def Published : Prop :=
  (∃ row ∈ s.core .targets, targetSha row = sha) ∨ ∃ row ∈ s.core .evidence, evidenceSha row = sha

/-- A hash occurs inside a row of the core or of the runtime tables. -/
def Mentioned (parse : Text → Option Json) (s : Workspace) (sha : Text) : Prop :=
  (∃ table, ∃ row ∈ s.core table, MentionedIn parse sha row) ∨
    ∃ db, s.runtime = some db ∧ ∃ table, ∃ row ∈ db table, MentionedIn parse sha row

end Workspace

/-- An action of a process that may be killed, or whose system call may fail. -/
def action {α : Type} (label : StorageLabel) (t : StorageInput → StorageTx α) : StorageProgram α :=
  Program.atomically label (fun i => if i.fails then throw .failed else t i)

/-- A check that ends the operation. -/
def check {α : Type} : Except StorageFault α → StorageProgram α
  | .ok a => pure a
  | .error e => throw e

/-- `StorageLease`. -/
def acquire (n : Nat) (exclusive : Bool) : StorageProgram Unit :=
  action .acquire fun _ => do
    let s ← get
    if s.exclusive.isSome || (exclusive && !s.shared.isEmpty) then
      throw (.refused "storage busy: publication/retention lease conflict")
    else if exclusive then set { s with exclusive := some n }
    else set { s with shared := n :: s.shared }

/-- `~StorageLease`, and the answer of a retention run. -/
def release (n : Nat) (answer : Option RetentionAnswer) : StorageProgram Unit :=
  Program.atomically .release fun _ => modify fun s => { s with
    shared := s.shared.filter (fun m => m ≠ n)
    exclusive := if s.exclusive = some n then none else s.exclusive
    answers := s.answers ++ answer.toList }

/-- The end of an operation, however it comes. -/
def attempt {α : Type} (m : StorageProgram α) : StorageProgram (Except StorageFault α) :=
  tryCatch (do
    let a ← m
    pure (.ok a)) (fun e => pure (.error e))

/-- An operation that opens its database under a share of the lease. -/
def sharing (n : Nat) (m : StorageProgram Unit) : StorageProgram Unit := do
  let _ ← attempt (do
    acquire n false
    m)
  release n none

def readCore : StorageProgram (Database CoreTable) :=
  action .read fun _ => do
    let s ← get
    pure s.core

def readRuntime : StorageProgram (Option (Database RuntimeTable)) :=
  action .read fun _ => do
    let s ← get
    pure s.runtime

/-- Whether an object is there. -/
def exists? (sha : Text) : StorageProgram Bool :=
  action .read fun _ => do
    let s ← get
    pure (s.has sha)

/-- `rename` of a staged file to its place. Where it fails, another process may have put
the same bytes there first. -/
def placeObject (sha : Text) (size : Nat) : StorageProgram Unit :=
  action .place fun i => do
    let s ← get
    if i.renamed then set (s.place ⟨sha, size, i.written⟩)
    else if s.has sha = false then throw (.refused "cannot publish content")
    else pure ()

/-- A staged file becomes an object, where nothing stands in its place yet. -/
def publishObject (sha : Text) (size : Nat) : StorageProgram Unit := do
  let present ← exists? sha
  if present = false then placeObject sha size
  let intact ← exists? sha
  if intact = false then throw (.refused "content store integrity failure")

/-- `INSERT OR IGNORE INTO targets`. -/
def insertTarget (row : Row) (rows : List Row) : List Row :=
  if rows.any (fun r => r[0]? = row[0]? || (r[1]? = row[1]? && r[2]? = row[2]?)) then rows
  else rows ++ [row]

def commitTarget (project name sha : Text) (size : Nat) : StorageProgram Unit :=
  action .commit fun i => modify fun s => { s with
    core := fun table => match table with
      | .targets => insertTarget [i.rowId, project, sha, name, decimal size, i.created]
          (s.core .targets)
      | table => s.core table }

variable (env : StorageEnv)

/-- `import_target`. -/
def importTarget (n : Nat) (project name : Text) : StorageProgram Unit :=
  sharing n do
    let core ← readCore
    if (core .projects).any (fun row => row[0]? = some project) = false then
      throw (.refused ("unknown project: " ++ String.ofList project))
    let staged ← action .stage fun i =>
      if i.regularFile = false then throw (.refused "target is not a regular file")
      else if 512 * 1024 * 1024 < i.bytes.length then
        throw (.refused "target exceeds 512 MiB import limit")
      else pure i.bytes
    let sha := env.sha256 staged
    publishObject sha staged.length
    commitTarget project name sha staged.length

/-- How the checks of a publication end, before anything is written. -/
inductive PublicationCheck where
  | refused (message : String)
  | published
  | accepted

/-- What `publish_result` was given. -/
structure Publication where
  check : PublicationCheck
  project : Text
  job : Text
  revision : Text
  backend : Text
  status : Text
  result : Text
  evidence : Text
  record : Text

/-- The rows of a publication: the evidence row, and what the index, the job and the
function views become. -/
def commitEvidence (p : Publication) (sha : Text) : StorageProgram Unit :=
  action .commit fun i => modify fun s => { s with
    core := fun table => match table with
      | .targets => s.core .targets
      | .evidence => s.core .evidence ++ [[p.evidence, p.project, p.job, p.revision, p.backend, sha,
          p.status, p.record, i.created]]
      | table => i.core table }

/-- `publish_result`. Its checks are those of the job, whatever they say. -/
def publishEvidence (n : Nat) (p : Publication) : StorageProgram Unit :=
  sharing n do
    let _ ← readCore
    match p.check with
    | .refused message => throw (.refused message)
    | .published => pure ()
    | .accepted => do
      let sha := env.sha256 p.result
      publishObject sha p.result.length
      commitEvidence p sha

/-- A manifest of an earlier version names an object: the row is added where the object
is there. -/
def adoptTargets (n : Nat) (items : List (Text × Text × Text × Nat)) : StorageProgram Unit :=
  sharing n (adopt items)
where
  adopt : List (Text × Text × Text × Nat) → StorageProgram Unit
    | [] => pure ()
    | (project, name, sha, size) :: rest => do
      let present ← exists? sha
      if present then commitTarget project name sha size
      adopt rest

/-- One commit of any other operation: it adds no target and no evidence. -/
def commitRows : StorageProgram Unit :=
  action .commit fun i => modify fun s => { s with
    core := fun table => match table with
      | .targets => (i.core .targets).filter (fun row => row ∈ s.core .targets)
      | .evidence => (i.core .evidence).filter (fun row => row ∈ s.core .evidence)
      | table => i.core table
    runtime := i.runtime }

/-- Any other operation: derivations, knowledge, jobs, batches, investigations, model
runs, runtime observations. -/
def writeRows (n : Nat) : Nat → StorageProgram Unit :=
  fun commits => sharing n (write commits)
where
  write : Nat → StorageProgram Unit
    | 0 => pure ()
    | commits + 1 => do
      commitRows
      write commits

/-- `keys`. -/
def checkKeys (r : Json) (allowed : List Text) : Except StorageFault Unit :=
  match r with
  | .obj fields =>
    match fields.find? (fun f => !allowed.contains f.1) with
    | some f => .error (.refused ("unknown field: " ++ String.ofList f.1))
    | none => .ok ()
  | _ => .error (.refused "expected an object")

/-- `bound` of a field. -/
def boundField (r : Json) (key : String) (fallback max : Nat) : Except StorageFault Nat :=
  match r.get? key.toList with
  | none => .ok fallback
  | some (.int n) =>
    if n < 0 ∨ (max : Int) < n then .error (.refused ("invalid bound: " ++ key)) else .ok n.toNat
  | some _ => .error (.refused ("invalid bound: " ++ key))

/-- The checked access of the JSON library. -/
def accessed {α : Type} : Access α → Except StorageFault α
  | .ok a => .ok a
  | .error message => .error (.refused message)

/-- `SELECT 1 FROM jobs WHERE status IN ('queued','running')`. -/
def activeJob (core : Database CoreTable) : Bool :=
  (core .jobs).any fun row =>
    row.getD 4 [] = "queued" || row.getD 4 [] = "running"

/-- A runtime session is not at its end. A record that is no JSON is an error of the
query. -/
def activeSession (parse : Text → Option Json) : List Row → Except StorageFault Bool
  | [] => .ok false
  | row :: rest =>
    match parse (row.getD 2 []) with
    | none => .error (.refused "malformed JSON")
    | some record =>
      match record.get? "state" with
      | some (.str state) =>
        if ["starting".toList, "running".toList, "stopped".toList].contains state then
          .ok true
        else activeSession parse rest
      | _ => activeSession parse rest

/-- No job and no runtime session may be active. -/
def requireTerminal (parse : Text → Option Json) (core : Database CoreTable)
    (runtime : Option (Database RuntimeTable)) : Except StorageFault Unit := do
  if activeJob core then throw (.refused "retention requires no active/queued jobs")
  match runtime with
  | none => pure ()
  | some db =>
    let active ← activeSession parse (db .sessions)
    if active then throw (.refused "retention requires terminal runtime sessions")

/-- The rows of the runtime database, where there is one. -/
def scanRuntime (parse : Text → Option Json) (runtime : Option (Database RuntimeTable))
    (found : List Text × Nat) : Except StorageFault (List Text × Nat) :=
  match runtime with
  | none => .ok found
  | some db =>
    scanRows parse "retention scan budget exceeded" (runtimeTables.flatMap db) found

/-- What a retention run knows before it looks at the files: the references, or why it
ends here. -/
def references (parse : Text → Option Json) (core : Database CoreTable)
    (runtime : Option (Database RuntimeTable)) : Except StorageFault (List Text) := do
  let found ← scanRows parse "retention scan budget exceeded; no files moved"
    (coreTables.flatMap core) ([], 0)
  let found ← scanRuntime parse runtime found
  requireTerminal parse core runtime
  pure found.1

/-- The walk over the files, at the times at which it comes to each. -/
def listCandidates (refs : List Text) (limit : Nat) : StorageProgram (List Candidate × Bool) :=
  action .read fun i => do
    let s ← get
    match selectCandidates refs limit i.clock s.objects [] with
    | .ok found => pure found
    | .error e => throw e

variable (candidates : List Candidate)

/-- The JSON of a plan. -/
def planJson : Json :=
  .arr (candidates.map fun c => .obj [("sha256", .str c.sha), ("size", .int c.size)])

/-- The digest of a plan. -/
def planDigest : Text :=
  env.sha256 (env.dump (planJson candidates))

/-- `create_directories`, under a new identifier. -/
def createQuarantine (n : Nat) (presented : Text) : StorageProgram Unit :=
  action .prepare fun _ => modify fun s => { s with
    quarantine := s.quarantine ++ [⟨n, presented, [], none⟩] }

/-- The directory of a run takes a file. -/
def QuarantineDirectory.take (n : Nat) (sha : Text) (q : QuarantineDirectory) :
    QuarantineDirectory :=
  if q.id = n then { q with files := q.files ++ [sha] } else q

/-- `rename` of an object into the quarantine. -/
def moveObject (n : Nat) (sha : Text) : StorageProgram Unit :=
  action (.move n sha) fun _ => do
    let s ← get
    if s.has sha = false then throw .failed
    else set { s.remove sha with
      quarantine := s.quarantine.map (QuarantineDirectory.take n sha) }

def moveObjects (n : Nat) : List Candidate → StorageProgram Unit
  | [] => pure ()
  | c :: rest => do
    moveObject n c.sha
    moveObjects n rest

/-- The directory of a run gets its manifest. -/
def QuarantineDirectory.seal (n : Nat) (plan : List Candidate) (q : QuarantineDirectory) :
    QuarantineDirectory :=
  if q.id = n then { q with manifest := some plan } else q

/-- `atomic_write` of the manifest. -/
def writeManifest (n : Nat) (plan : List Candidate) : StorageProgram Unit :=
  action .manifest fun _ => modify fun s => { s with
    quarantine := s.quarantine.map (QuarantineDirectory.seal n plan) }

/-- The part of a retention run that moves files. -/
def applyPlan (n : Nat) (presented : Text) (plan : List Candidate) : StorageProgram Unit := do
  if presented ≠ planDigest env plan then
    throw (.refused "retention plan changed; inspect and resubmit digest")
  createQuarantine n presented
  moveObjects n plan
  writeManifest n plan

/-- The retention run under its lease. -/
def retain (n : Nat) (r : Json) : StorageProgram RetentionReport := do
  let core ← readCore
  let runtime ← readRuntime
  let refs ← check (references env.parse core runtime)
  let limit ← check (boundField r "limit" 100 10000)
  let (candidates, more) ← listCandidates refs limit
  let plan := sortCandidates candidates
  let applies ← check (accessed (r.valueBool "apply" false))
  if applies then
    if more then throw (.refused "increase retention limit before apply")
    let presented ← check (accessed (r.valueText "plan_digest" []))
    applyPlan env n presented plan
    pure ⟨plan, more, planDigest env plan, some n⟩
  else pure ⟨plan, more, planDigest env plan, none⟩

/-- `retention`. -/
def retention (n : Nat) (r : Json) : StorageProgram Unit := do
  let outcome ← attempt (do
    check (checkKeys r ["limit", "apply", "plan_digest"])
    acquire n true
    retain env n r)
  release n (some ⟨n, r, outcome⟩)

inductive StorageCall where
  | importTarget (project name : Text)
  | publishResult (publication : Publication)
  | adoptTargets (items : List (Text × Text × Text × Nat))
  | writeRows (commits : Nat)
  | retention (request : Json)

def StorageCall.program (n : Nat) : StorageCall → StorageProgram Unit
  | .importTarget project name => Storage.importTarget env n project name
  | .publishResult publication => publishEvidence env n publication
  | .adoptTargets items => Storage.adoptTargets n items
  | .writeRows commits => Storage.writeRows n commits
  | .retention request => Storage.retention env n request

/-- Every call starts with nothing done. -/
def storageMachine : Machine StorageInput StorageLabel Workspace StorageCall where
  start call n _ s := (s, (call.program env n).process ())

/-- A workspace that no process has opened. -/
def closedWorkspace (objects : List StoredObject) (core : Database CoreTable)
    (runtime : Option (Database RuntimeTable)) :
    Machine.State StorageInput StorageLabel Workspace :=
  ⟨⟨objects, core, runtime, [], none, [], []⟩, []⟩

end Indago.Storage
