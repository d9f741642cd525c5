import IndagoRev.Workbench.HarnessRun

/-!
# The model controller

`harness_explore` runs an investigation with a language model. Its state is one row
of `wb_model_runs`, which names the runner that may write it for as long as its
lease lasts. A generation is reserved in the row before the request is sent; the
decision that comes back is saved before it is turned into actions of the harness.

What the controller did is kept as a list of effects beside the tables.
-/

namespace Indago

open StdText Tables Transactions Interleaving

/-- A value of a stored evidence page. -/
structure EvidencePointer where
  evidenceId : Text
  pointer : Text
  deriving DecidableEq

/-- How a decision selects a function. Some models wrap the entry pointer. -/
inductive FunctionPayload where
  | direct (source : EvidencePointer)
  | legacy (operation address : Text)
  deriving DecidableEq

inductive FinishPayload where
  | saved
  | solved
  | report (status : InvestigationStatus) (answer : Text) (claims : List ReportClaim)
      (gaps : List Text)
  deriving DecidableEq

/-- The decisions that only read, or change the state of the controller. -/
inductive NoteKind where
  | retrieve | record | plan | state
  deriving DecidableEq

inductive Decision where
  | analyze (proposal : Proposal) (draft : ActionDraft)
  | function (acceptance : Bool) (payload : FunctionPayload)
  | reason (request : Text)
  | checkpoint (board : Text)
  | note (kind : NoteKind) (payload : Text)
  | finish (payload : FinishPayload)
  deriving DecidableEq

inductive Recipe where
  | general | configuration | inputValidation | staticBehavior | assistedStatic | fileFormat
  | apiEffects | stateMachine | runtimeCode | components
  deriving DecidableEq

inductive ModelPhase where
  | ready | requestInflight | responseSaved | terminal
  deriving DecidableEq

/-- `last_feedback`: its error, and the evidence of a verified program page. -/
structure Feedback where
  text : Text
  error : Option String
  program : Option Text

/-- The fixed requests of a function workflow, and the place they look at. -/
structure FunctionPlan where
  artifact : Text
  address : Text
  requests : List ActionDraft
  deriving DecidableEq

def FunctionPlan.location (plan : FunctionPlan) : Text := plan.artifact ++ ":" ++ plan.address

/-- The cursor of a function workflow. -/
structure FunctionWork where
  key : Text
  plan : FunctionPlan
  next : Nat
  results : List Text

/-- The destination of a call that was not looked at. -/
structure FrontierItem where
  location : Text
  address : Text
  source : EvidencePointer

/-- The record of a run. The prompts, ledgers and histories that no branch looks at
are one text. -/
structure ModelState where
  profileSha256 : Text
  recipe : Recipe
  maxGenerations : Nat
  generations : Nat
  repairs : Nat
  phase : ModelPhase
  reservedOutputTokens : Nat
  reservedGenerationMs : Nat
  elapsedMs : Nat
  feedback : Feedback
  pending : Option Decision
  nextDecision : Option Decision
  bootstrapStarted : Bool
  compaction : Nat
  retryNotBefore : Option Nat
  prepared : Option Nat
  work : Option FunctionWork
  visited : List Text
  frontier : List FrontierItem
  failedRequests : List Text
  status : Option Text
  notes : Text

structure ModelRow where
  record : ModelState
  runner : Option Nat
  deadline : Nat

/-- What a decision asks of the harness: its analysis, or a step of its workflow. -/
inductive DecisionRequest where
  | analysis (generation : Nat)
  | workflow (location : Text) (step : Nat)
  deriving DecidableEq

/-- What a runner did: it counted a generation, gave one back, began the transport
of a request, or turned a request of a decision into an action. -/
inductive ModelEffect where
  | reserved (runner generation : Nat)
  | returned (runner generation : Nat)
  | sent (runner generation : Nat)
  | turned (generation : Nat) (decision : Decision) (request : DecisionRequest) (action : Text)
  deriving DecidableEq

structure ExploreStore where
  harness : HarnessStore
  row : Option ModelRow
  effects : List ModelEffect

/-- A profile within the bounds that `normalize_model_profile` checks. -/
structure ControllerProfile where
  sha256 : Text
  contextTokens : Nat
  outputTokens : Nat
  generationMs : Nat
  output_le : outputTokens ≤ 16384
  generation_le : generationMs ≤ 600000

/-- What an investigation is run with: its name, its model profile, the digests, and
the verified evidence pages, as the artifact and the text at a pointer. -/
structure ExploreContext where
  project : Text
  id : Text
  profile : ControllerProfile
  sha256 : Text → Text
  dump : KnowledgeRecord → Text
  dumpRequest : ActionRequest → Text
  dumpDraft : ActionDraft → Text
  page : EvidencePointer → Except String (Text × Text)

/-- What `harness_explore` is asked. -/
structure ExploreRequest where
  token : Text
  allowInference : Bool
  expectedRevision : Option Nat
  maxGenerations : Option Int
  recipe : Option Recipe

/-- What the transport of a request ends with. -/
inductive TransportAnswer where
  | failed (error : String)
  | rateLimited (retryAfterMs : Nat)
  | malformed (error : String)
  | decoded (decision : Decision) (elapsedMs : Nat)

/-- What the surroundings choose for one step: what the harness needs, the flag that
the heartbeat sets, the provider, and what the parts that are not modelled compute
or refuse. -/
structure ExploreInput where
  harness : HarnessInput
  cancelled : Bool
  refused : Option String
  bodyBytes : Nat
  transport : TransportAnswer
  draft : ActionDraft
  feedback : Feedback
  inventory : Option Text
  calls : List FrontierItem
  recovered : Bool
  reasoning : Text
  status : InvestigationStatus
  answer : Text
  claims : List ReportClaim
  gaps : List Text
  notes : Text

inductive ModelError where
  | context (message : String)
  | rateLimit (retryAfterMs : Nat)
  | transport (message : String)
  | other (message : String)

def ModelError.what : ModelError → String
  | .context message | .transport message | .other message => message
  | .rateLimit _ => "provider rate limit"

/-- The first bytes of a message. -/
def clip (max : Nat) (message : String) : String := String.ofList (message.toList.take max)

/-- Who takes a step: the runner of a controller, or somebody else. -/
inductive ExploreLabel where
  | runner (n : Nat)
  | outside

/-- The data of a runner: the state it works on and the status of its result. -/
structure ExploreLocal where
  state : ModelState
  result : Option Text

abbrev ExploreTx := Transaction ExploreStore ModelError

abbrev ExploreProgram := Program ExploreInput ExploreLabel ExploreStore ExploreLocal ModelError

/-- A status as a result tells it. -/
def InvestigationStatus.text : InvestigationStatus → Text
  | .ready => "ready"
  | .running => "running"
  | .waitingForJob => "waiting_for_job"
  | .answered => "answered"
  | .partialAnswer => "partial"
  | .budgetExhausted => "budget_exhausted"
  | .unsupported => "unsupported"
  | .environmentUnavailable => "environment_unavailable"
  | .contradictory => "contradictory"
  | .capabilityBlocked => "capability_blocked"
  | .failed => "failed"
  | .cancelled => "cancelled"

section Controller

variable (ctx : ExploreContext)

/-- The tables of the harness, with the row of the controller among them. -/
def ExploreStore.visible (store : ExploreStore) : HarnessStore :=
  { store.harness with
    controllers := match store.row with
      | some row => row.runner.toList.map (fun n => ⟨ctx.project, ctx.id, n, row.deadline⟩)
      | none => [] }

/-- A transaction of the harness. -/
def overHarness {α : Type} (t : HarnessTx α) : ExploreTx α := fun store =>
  match t (store.visible ctx) with
  | .ok answer => .ok (answer.1, { store with harness := answer.2 })
  | .error e => .error (.other e)

/-- An access to the database, which may be refused. -/
def exploreQuery {α : Type} (n : Nat) (t : ExploreInput → ExploreTx α) : ExploreProgram α :=
  Program.atomically (.runner n) (fun env =>
    if env.harness.busy then throw (.other "database is locked") else t env)

/-- A look at the surroundings, which may raise an error. -/
def surroundings (n : Nat) : ExploreProgram ExploreInput :=
  Program.atomically (.runner n) (fun env => match env.refused with
    | some e => throw (.other e)
    | none => pure env)

/-- The flag that the heartbeat sets. -/
def cancelledFlag (n : Nat) : ExploreProgram Bool :=
  Program.atomically (.runner n) (fun env => pure env.cancelled)

/-- `now_ms`. -/
def clock (n : Nat) : ExploreProgram Nat :=
  Program.atomically (.runner n) (fun env => pure env.harness.now)

/-- `show`. -/
def showInvestigation (n : Nat) : ExploreProgram Investigation :=
  exploreQuery n (fun _ => overHarness ctx (do
    let found ← loadInvestigation ctx.project ctx.id
    return found.record))

/-- `ended`. -/
def ExploreStore.ended (store : ExploreStore) : Bool :=
  ((store.harness.investigation ctx.project ctx.id).map
    (fun found => found.record.status.terminal)).getD false

/-- The counter of the row went from one value to another. -/
def ledgerChange (n old new : Nat) : List ModelEffect :=
  if old < new then [.reserved n new] else if new < old then [.returned n old] else []

/-- `persist`. -/
def persist (n now : Nat) (state : ModelState) : ExploreTx Unit := do
  let store ← get
  match store.row with
  | none => throw (.other "model controller ownership lost")
  | some row =>
    if row.runner = some n then
      set { store with
        row := some { row with record := state, deadline := now + 60000 }
        effects := store.effects ++ ledgerChange n row.record.generations state.generations }
    else throw (.other "model controller ownership lost")

/-- `save`. -/
def saveState (n : Nat) : ExploreProgram Unit := do
  let l ← get
  exploreQuery n (fun env => persist n env.harness.now l.state)

def setPhase (phase : ModelPhase) : ExploreProgram Unit :=
  modify (fun l => { l with state := { l.state with phase := phase } })

def setPending (pending : Option Decision) : ExploreProgram Unit :=
  modify (fun l => { l with state := { l.state with pending := pending } })

def setFeedback (feedback : Feedback) : ExploreProgram Unit :=
  modify (fun l => { l with state := { l.state with feedback := feedback } })

def setNotes (notes : Text) : ExploreProgram Unit :=
  modify (fun l => { l with state := { l.state with notes := notes } })

def setResult (status : Text) : ExploreProgram Unit :=
  modify (fun l => { l with result := some status })

/-- The runner as a caller of the harness. -/
def ExploreRequest.caller (request : ExploreRequest) (n : Nat) : Caller := ⟨request.token, some n⟩

variable (request : ExploreRequest)

/-- `owned`: an operation of the harness at the revision that was shown before. -/
def owned {α : Type} (n : Nat) (operation : ExploreInput → Nat → HarnessTx α) :
    ExploreProgram α := do
  let inv ← showInvestigation ctx n
  exploreQuery n (fun env => overHarness ctx (operation env inv.revision))

/-- `finish`: the report that the ledger of saved facts gives. -/
def finishWith (n : Nat) (status : InvestigationStatus) (why : String) : ExploreProgram Unit := do
  let _ ← owned ctx n (fun env revision => finishInvestigation ctx.sha256 env.harness
    (request.caller n) ⟨ctx.project, ctx.id, some revision, status, why.toList, env.claims,
      env.gaps⟩)
  setResult status.text

/-- The state of a run that was never started. -/
def ModelState.initial (profile : ControllerProfile) (recipe : Recipe) (maxGenerations : Nat) :
    ModelState :=
  ⟨profile.sha256, recipe, maxGenerations, 0, 0, .ready, 0, 0, 0, ⟨[], none, none⟩, none, none, false,
    0, none, none, none, [], [], [], none, []⟩

/-- The investigation is owned with this token. -/
def checkLease (now : Nat) (token : Text) : ExploreTx Unit := do
  let store ← get
  match store.harness.investigation ctx.project ctx.id with
  | some found =>
    if found.tokenHash ≠ ctx.sha256 token ∨ found.deadline ≤ now then
      throw (.other "ownership conflict: invalid or expired owner lease")
    else return ()
  | none => throw (.other "ownership conflict: invalid or expired owner lease")

/-- No other runner holds the row, and no action runs. -/
def checkVacant (now : Nat) : ExploreTx Unit := do
  let store ← get
  match store.row with
  | some row =>
    if now < row.deadline ∧ row.runner.isSome then
      throw (.other "ownership conflict: model controller already running")
    else return ()
  | none => return ()

def checkActions (now : Nat) : ExploreTx Unit := do
  let store ← get
  if (store.harness.actionsOf ctx.project ctx.id).any (fun r =>
      r.runner.isSome && now < r.deadline) then
    throw (.other "ownership conflict: action runner active")
  else return ()

/-- The first transaction of a run: the row is taken over, with the record that is
stored in it. -/
def takeRun (n now : Nat) (recipe : Recipe) (maxGenerations : Nat) : ExploreTx ModelState := do
  checkLease ctx now request.token
  checkVacant now
  checkActions ctx now
  let store ← get
  let state := match store.row with
    | some row => row.record
    | none => .initial ctx.profile recipe maxGenerations
  if state.profileSha256 ≠ ctx.profile.sha256 ∨ state.recipe ≠ recipe ∨
      state.maxGenerations ≠ maxGenerations then
    throw (.other "controller configuration is pinned; create/transfer explicitly")
  else do
    set { store with row := some ⟨state, some n, now + 60000⟩ }
    return state

/-- How a turn of the loop goes on. -/
inductive Turn where
  | stop
  | again
  | go
  deriving DecidableEq

/-- The bytes that a request may have. -/
def ControllerProfile.ceiling (profile : ControllerProfile) : Nat :=
  profile.contextTokens - profile.outputTokens - 512

/-- The transport begins. -/
def sendRequest (n : Nat) (generation : Nat) : ExploreProgram TransportAnswer :=
  Program.atomically (.runner n) (fun env => do
    modify (fun store => { store with effects := store.effects ++ [.sent n generation] })
    return env.transport)

/-- The answer of the provider. The last generation has to finish. -/
def receive (finishOnly : Bool) : TransportAnswer → ExploreProgram (Decision × Nat)
  | .failed e => throw (.transport ("provider transport failure; no automatic retry: " ++ e))
  | .rateLimited ms => throw (.rateLimit ms)
  | .malformed e => throw (.other e)
  | .decoded (.finish payload) elapsed => return (.finish payload, elapsed)
  | .decoded decision elapsed =>
    if finishOnly then throw (.other "final reserved generation requires a finish decision")
    else return (decision, elapsed)

def checkCancelled (n : Nat) : ExploreProgram Unit := do
  let cancelled ← cancelledFlag n
  if cancelled then throw (.other "model generation cancelled") else return ()

/-- The size of the request is checked before the transport. -/
def checkContext (n : Nat) : ExploreProgram Unit := do
  let env ← surroundings n
  if ctx.profile.ceiling < env.bodyBytes then
    throw (.context "model context byte budget exceeded; narrow evidence")
  else return ()

/-- `model_complete`. -/
def modelComplete (n : Nat) : ExploreProgram (Decision × Nat) := do
  checkCancelled n
  checkContext ctx n
  let l ← get
  let answer ← sendRequest n l.state.generations
  match answer with
  | .failed _ | .rateLimited _ => receive false answer
  | _ => do
    checkCancelled n
    receive (l.state.generations = l.state.maxGenerations) answer

variable (state : ModelState)

/-- The counters with one more generation. -/
def ModelState.reserve (profile : ControllerProfile) : ModelState :=
  { state with
    generations := state.generations + 1
    reservedOutputTokens := (state.reservedOutputTokens + profile.outputTokens) % 2 ^ 32
    reservedGenerationMs := add64 state.reservedGenerationMs profile.generationMs
    phase := .requestInflight }

/-- The counters with one generation less. -/
def ModelState.giveBack (profile : ControllerProfile) : ModelState :=
  { state with
    generations := state.generations - 1
    reservedOutputTokens := state.reservedOutputTokens - profile.outputTokens
    reservedGenerationMs := state.reservedGenerationMs - profile.generationMs
    phase := .ready }

/-- The request is sent, and its decision saved. -/
def requestDecision (n : Nat) : ExploreProgram Turn := do
  let response ← modelComplete ctx n
  modify (fun l => { l with state := { l.state with
    pending := some response.1, elapsedMs := add64 l.state.elapsedMs response.2 } })
  let _ ← surroundings n
  setPhase .responseSaved
  saveState n
  return .go

variable (n compaction : Nat)

/-- A request that did not fit was not sent: its generation is given back. -/
def contextFailed : ExploreProgram Turn := do
  modify (fun l => { l with state :=
    { l.state.giveBack ctx.profile with compaction := compaction + 1 } })
  saveState n
  if 2 ≤ compaction then do
    finishWith ctx request n .partialAnswer
      "Context cannot fit after two bounded compactions; narrow the objective/evidence or explicitly configure a larger loaded context. No provider call was made for rejected requests."
    return .stop
  else return .again

def rateLimited (n retryAfterMs : Nat) : ExploreProgram Turn := do
  setPhase .ready
  let now ← clock n
  modify (fun l => { l with state := { l.state with
    retryNotBefore := some (min (now + retryAfterMs) (2 ^ 64 - 1)) } })
  saveState n
  setResult "rate_limited"
  return .stop

def transportFailed (n : Nat) (e : String) : ExploreProgram Turn := do
  let cancelled ← cancelledFlag n
  if cancelled then return .stop
  else do
    setPhase .ready
    saveState n
    finishWith ctx request n .environmentUnavailable (clip 1024 e)
    return .stop

def responseFailed (n : Nat) (e : String) : ExploreProgram Turn := do
  let cancelled ← cancelledFlag n
  if cancelled then return .stop
  else do
    modify (fun l => { l with state := { l.state with
      phase := .ready, repairs := l.state.repairs + 1, feedback := ⟨[], some (clip 1024 e), none⟩ } })
    saveState n
    let l ← get
    if 2 < l.state.repairs then do
      finishWith ctx request n .partialAnswer
        ("Provider/response contract failed after two repair attempts: " ++ clip 512 e)
      return .stop
    else return .again

/-- The handlers around a request, by the class of what it raised. -/
def requestFailed : ModelError → ExploreProgram Turn
  | .context _ => contextFailed ctx request n compaction
  | .rateLimit ms => rateLimited n ms
  | .transport e => transportFailed ctx request n e
  | .other e => responseFailed ctx request n e

/-- One generation: the messages are put together, the generation is counted and
saved, and only then the request is sent. -/
def generateDecision (n maxGenerations : Nat) : ExploreProgram Turn := do
  let l ← get
  if l.state.phase = .responseSaved then return .go
  else if maxGenerations ≤ l.state.generations then do
    finishWith ctx request n .budgetExhausted
      "Model generation reservation budget exhausted."
    return .stop
  else do
    let _ ← surroundings n
    modify (fun l => { l with state := l.state.reserve ctx.profile })
    saveState n
    tryCatch (requestDecision ctx n) (requestFailed ctx request n l.state.compaction)

end Controller

end Indago
