import IndagoRev.Interleaving
import IndagoRev.Tables
import IndagoRev.Text

/-!
# The runtime worker

A client opens a session and queues requests for it; a worker process claims the
session by comparing its whole record, drives the debugger, and answers the
requests. Every statement is a transaction of its own. What the workers do outside
of the database is kept as a list of effects.
-/

namespace Indago

open StdText Tables Transactions Interleaving

inductive SessionState where
  | starting | running | stopped | exited | detached | terminated | cancelled | completed | failed
  deriving DecidableEq

/-- The operation that a session was opened with. -/
inductive SessionOperation where
  | launch | attach | instrument | record | replay
  deriving DecidableEq

/-- The record of a session. The fields that no statement looks at are one text. -/
structure SessionRecord where
  id : Text
  operation : SessionOperation
  state : SessionState
  workerPid : Option Nat
  heartbeat : Nat
  lifetime : Nat
  terminateOnExpiry : Bool
  fields : Text
  deriving DecidableEq

structure SessionRow where
  id : Text
  record : SessionRecord
  cancel : Nat

/-- The operations of a debugger request, by what they do to the session. -/
inductive RequestOperation where
  | inspect
  | pause
  | resume (wait : Bool)
  | trace
  | finish (terminate : Bool)

inductive RequestState where
  | queued | running | finished
  deriving DecidableEq

structure RequestRow where
  id : Text
  session : Text
  state : RequestState
  request : RequestOperation
  response : Option Text

/-- What a worker did: it claimed a session, executed a request, stored its answer. -/
inductive WorkerEffect where
  | claimed (worker : Nat) (session : Text)
  | executed (worker : Nat) (session request : Text)
  | responded (worker : Nat) (session request : Text)

structure RuntimeStore where
  sessions : List SessionRow
  requests : List RequestRow
  effects : List WorkerEffect

def RuntimeStore.empty : RuntimeStore := ⟨[], [], []⟩

/-- What the surroundings choose for one step: the clock, new ids, and what the
backend reports. -/
structure RuntimeInput where
  now : Nat
  busy : Bool
  freshId : Text
  live : Bool
  event : Bool
  alive : Bool
  stopped : Bool
  fields : Text
  error : Option String
  response : Text

inductive RuntimeLabel where
  | access
  | read (session : Text)

abbrev RuntimeTx := Transaction RuntimeStore String

/-- A program with local data of type `ρ`. -/
abbrev RuntimeProgram (ρ : Type) := Program RuntimeInput RuntimeLabel RuntimeStore ρ String

/-- One statement, which may be refused. -/
def statement {ρ α : Type} (label : RuntimeLabel) (t : RuntimeInput → RuntimeTx α) :
    RuntimeProgram ρ α :=
  Program.atomically label (fun env => if env.busy then throw "database is locked" else t env)

/-- A look at the backend. It may report an error. -/
def backend {ρ : Type} : RuntimeProgram ρ RuntimeInput :=
  Program.atomically .access (fun env => match env.error with
    | some e => throw e
    | none => pure env)

/-- `Db::save`. -/
def saveSession (record : SessionRecord) : RuntimeTx Unit :=
  modify (fun store => { store with
    sessions := rewrite SessionRow.id record.id (fun r => { r with record := record })
      store.sessions })

variable (id : Text)

/-- `SELECT record FROM runtime_sessions WHERE id=?`. -/
def readSession : RuntimeTx (Option SessionRecord) := do
  let store ← get
  return (row SessionRow.id id store.sessions).map SessionRow.record

variable (worker : Nat)

/-- `UPDATE runtime_sessions SET record=? WHERE id=? AND record=?`. -/
def claimSession (id : Text) (original claimed : SessionRecord) : RuntimeTx Bool := do
  let store ← get
  match row SessionRow.id id store.sessions with
  | some found =>
    if found.record = original then
      set { store with
        sessions := rewrite SessionRow.id id (fun r => { r with record := claimed })
          store.sessions
        effects := store.effects ++ [WorkerEffect.claimed worker id] }
      return true
    else
      return false
  | none => return false

/-- The first request that is queued. -/
def nextRequest (session : Text) : RuntimeTx (Option RequestRow) := do
  let store ← get
  return store.requests.find? (fun r => r.session = session ∧ r.state = .queued)

/-- `UPDATE runtime_requests SET state='running' WHERE id=?`. -/
def markRunning : RuntimeTx Unit :=
  modify (fun store => { store with
    requests := rewrite RequestRow.id id (fun r => { r with state := .running }) store.requests })

/-- The debugger is told to do what a request asks for. -/
def executeRequest (session id : Text) : RuntimeTx Unit :=
  modify (fun store => { store with
    effects := store.effects ++ [.executed worker session id] })

/-- `UPDATE runtime_requests SET state='finished',response=? WHERE id=?`. -/
def finishRequest (session id response : Text) : RuntimeTx Unit :=
  modify (fun store => { store with
    requests := rewrite RequestRow.id id
      (fun r => { r with state := .finished, response := some response }) store.requests
    effects := store.effects ++ [.responded worker session id] })

structure WorkerLocal where
  session : SessionRecord
  started : Nat
  lastSave : Nat
  initializing : Bool
  terminal : Bool

abbrev WorkerProgram := RuntimeProgram WorkerLocal

def setState (state : SessionState) : WorkerProgram Unit :=
  modify (fun l => { l with session := { l.session with state := state } })

def setFields (fields : Text) : WorkerProgram Unit :=
  modify (fun l => { l with session := { l.session with fields := fields } })

/-- `save`: the whole record, with a new heartbeat. -/
def saveWorker : WorkerProgram Unit := do
  let l ← get
  let now ← statement .access (fun env => do
    saveSession { l.session with heartbeat := env.now }
    return env.now)
  modify (fun l => { l with session := { l.session with heartbeat := now }, lastSave := now })

/-- An event of the backend is noted in the session. -/
def noteEvent (env : RuntimeInput) : WorkerProgram Unit :=
  if env.event then do
    let l ← get
    setFields env.fields
    setState (if env.alive then
        if env.stopped then .stopped else if l.initializing then .starting else .running
      else .exited)
    saveWorker
  else return ()

/-- `poll`. -/
def poll : WorkerProgram RuntimeInput := do
  let env ← backend
  noteEvent env
  return env

/-- Polls until the target has stopped or ended, or the time is over. -/
def pollUntilStopped : Nat → WorkerProgram RuntimeInput
  | 0 => poll
  | rounds + 1 => do
    let env ← poll
    if env.alive && !env.stopped then pollUntilStopped rounds else return env

variable (rounds : Nat)

/-- `pause`. -/
def pauseTarget : WorkerProgram Unit := do
  let env ← backend
  if env.alive && !env.stopped then do
    let env ← pollUntilStopped rounds
    if env.alive && !env.stopped then throw "pause deadline exceeded" else return ()
  else return ()

/-- What the operation of a request does. -/
def applyOperation : RequestOperation → WorkerProgram Unit
  | .inspect => return ()
  | .pause => pauseTarget rounds
  | .resume false => setState .running
  | .resume true => do
    setState .running
    let _ ← pollUntilStopped rounds
    pauseTarget rounds
  | .trace => do
    setState .running
    let _ ← pollUntilStopped rounds
    pauseTarget rounds
  | .finish terminate => do
    pauseTarget rounds
    modify (fun l => { l with terminal := true })
    setState (if terminate then .terminated else .detached)

variable (operation : RequestOperation)

/-- The operation of a request, and the response to it. -/
def performOperation : WorkerProgram Text := do
  applyOperation rounds operation
  let env ← backend
  setFields env.fields
  return env.response

variable (worker rounds : Nat)

/-- One request that was taken from the queue. -/
def handleRequest (request : RequestRow) : WorkerProgram Unit := do
  statement .access (fun _ => markRunning request.id)
  let response ← tryCatch (do
      Program.atomically .access (fun _ => executeRequest worker request.session request.id)
      performOperation rounds request.request)
    (fun e => return e.toList)
  saveWorker
  statement .access (fun _ => finishRequest worker request.session request.id response)

/-- The heartbeat of a worker that has not saved for a second. -/
def beat (now : Nat) : WorkerProgram Unit := do
  let l ← get
  if now - l.lastSave > 1000 then saveWorker else return ()

/-- The end of a session that lasted too long. -/
def expire : WorkerProgram Unit := do
  pauseTarget rounds
  let l ← get
  setState (if l.session.terminateOnExpiry then .terminated else .detached)
  saveWorker

/-- The loop over the queue. A run is cut after some number of rounds, like any
process may be. -/
def serveRequests (worker rounds : Nat) (id : Text) : Nat → WorkerProgram Unit
  | 0 => return ()
  | more + 1 => do
    let env ← backend
    let l ← get
    if env.alive && !l.terminal then do
      let env ← poll
      beat env.now
      if env.now - l.started > l.session.lifetime then expire rounds
      else do
        let queue ← statement .access (fun _ => nextRequest id)
        match queue with
        | none => serveRequests worker rounds id more
        | some request => do
          handleRequest worker rounds request
          serveRequests worker rounds id more

/-- The start of a debugger session, up to the first stop. -/
def firstStop : WorkerProgram Unit := do
  let env ← backend
  setFields env.fields
  let env ← pollUntilStopped rounds
  if env.alive && !env.stopped then throw "initial debug stop timed out"
  else do
    modify (fun l => { l with initializing := false })
    setState (if env.alive then .stopped else .exited)
    saveWorker

/-- The end of the collection. -/
def closeSession : WorkerProgram Unit := do
  let l ← get
  setState (if !l.terminal && l.session.state ≠ .detached then .exited else l.session.state)
  saveWorker

/-- A debugger session from its start to its end. -/
def debugWorker (id : Text) : WorkerProgram Unit :=
  tryCatch (do
      firstStop rounds
      serveRequests worker rounds id rounds
      closeSession)
    (fun _ => do
      setState .failed
      tryCatch (pauseTarget rounds) (fun _ => return ())
      saveWorker)

/-- The saves of an instrument or replay run while it collects. -/
def collect : Nat → WorkerProgram Unit
  | 0 => return ()
  | more + 1 => do
    let env ← backend
    setFields env.fields
    noteEvent env
    if env.alive then collect more else return ()

/-- `instrument_worker` and `replay_worker`: they save the session and look at no
request. -/
def collectWorker : WorkerProgram Unit :=
  tryCatch (do
      setState .running
      saveWorker
      collect rounds
      let env ← backend
      setState (if env.stopped then .cancelled else if env.alive then .exited else .failed)
      saveWorker)
    (fun _ => do
      setState .failed
      saveWorker)

/-- The data of a worker that has read nothing yet. -/
def WorkerLocal.initial : WorkerLocal :=
  ⟨⟨id, .launch, .starting, none, 0, 0, false, []⟩, 0, 0, true, false⟩

/-- The record that a worker claims a session with. -/
def SessionRecord.claimedBy (record : SessionRecord) (pid : Nat) : SessionRecord :=
  { record with workerPid := some pid }

/-- `runtime_worker`. -/
def runtimeWorker (worker pid rounds : Nat) (id : Text) : WorkerProgram Unit := do
  let found ← statement (.read id) (fun env => do
    let record ← readSession id
    return (record, env.now))
  match found with
  | (none, _) => return ()
  | (some original, now) =>
    if original.state = .starting then do
      let won ← statement .access (fun _ =>
        claimSession worker id original (original.claimedBy pid))
      if won then do
        set (WorkerLocal.mk (original.claimedBy pid) now now true false)
        match original.operation with
        | .launch | .attach => debugWorker worker rounds id
        | .instrument | .record | .replay => collectWorker rounds

/-- What a client asks a new session for. -/
structure OpenRequest where
  operation : SessionOperation
  lifetime : Nat
  terminateOnExpiry : Bool
  fields : Text

variable (request : OpenRequest)

def OpenRequest.record (id : Text) (now : Nat) (state : SessionState) : SessionRecord :=
  ⟨id, request.operation, state, none, now, request.lifetime, request.terminateOnExpiry,
    request.fields⟩

/-- `INSERT INTO runtime_sessions`. -/
def insertSession (record : SessionRecord) : RuntimeTx Unit := do
  let store ← get
  match row SessionRow.id record.id store.sessions with
  | some _ => throw "UNIQUE constraint failed: runtime_sessions.id"
  | none => set { store with sessions := store.sessions ++ [SessionRow.mk record.id record 0] }

/-- A client opens a session and starts its worker. Where that fails it saves the
record that it wrote before, as failed. -/
def openSession : RuntimeProgram Unit Unit := do
  let record ← statement .access (fun env => do
    let record := request.record env.freshId env.now .starting
    insertSession record
    return record)
  tryCatch (do
      let _ ← backend
      return ())
    (fun _ => statement .access (fun _ => saveSession { record with state := .failed }))

/-- `io-run`: the client runs the target itself, in a session without a worker. -/
def runStdio : RuntimeProgram Unit Unit := do
  let record ← statement .access (fun env => do
    let record := request.record env.freshId env.now .running
    insertSession record
    return record)
  tryCatch (do
      let env ← backend
      statement .access (fun _ =>
        saveSession { record with state := .completed, heartbeat := env.now, fields := env.fields }))
    (fun _ => statement .access (fun _ => saveSession { record with state := .failed }))

def SessionState.terminal : SessionState → Bool
  | .detached | .exited | .terminated | .failed => true
  | _ => false

/-- `INSERT INTO runtime_requests`. -/
def insertRequest (request : RequestRow) : RuntimeTx Unit := do
  let store ← get
  match row RequestRow.id request.id store.requests with
  | some _ => throw "UNIQUE constraint failed: runtime_requests.id"
  | none => set { store with requests := store.requests ++ [request] }

/-- `runtime_command` for a debugger operation. The polls for the answer only
read. -/
def queueRequest : RuntimeProgram Unit Unit := do
  let found ← statement .access (fun env => do
    let record ← readSession id
    return (record, env.live))
  match found with
  | (none, _) => throw "runtime session not found in project"
  | (some record, live) =>
    if !live then
      throw "runtime worker unavailable; stored observations remain readable"
    else if record.state.terminal then
      throw "session is terminal"
    else
      statement .access (fun env =>
        insertRequest ⟨env.freshId, id, .queued, operation, none⟩)

def cancelSession : RuntimeTx Unit :=
  modify (fun store => { store with
    sessions := rewrite SessionRow.id id (fun r => { r with cancel := r.cancel + 1 })
      store.sessions })

inductive RuntimeCall where
  | openSession (request : OpenRequest)
  | runStdio (request : OpenRequest)
  | queueRequest (session : Text) (operation : RequestOperation)
  | cancel (session : Text)
  | worker (session : Text) (pid rounds : Nat)

def runtimeMachine : Machine RuntimeInput RuntimeLabel RuntimeStore RuntimeCall where
  start
    | .openSession request, _, _, store => (store, (openSession request).process ())
    | .runStdio request, _, _, store => (store, (runStdio request).process ())
    | .queueRequest session operation, _, _, store =>
      (store, (queueRequest session operation).process ())
    | .cancel session, _, _, store =>
      (store, (statement .access (fun _ => cancelSession session) :
        RuntimeProgram Unit Unit).process ())
    | .worker session pid rounds, n, _, store =>
      (store, (runtimeWorker n pid rounds session).process (.initial session))

/-- A workspace without sessions. -/
def idleRuntime : Machine.State RuntimeInput RuntimeLabel RuntimeStore := ⟨.empty, []⟩

end Indago
