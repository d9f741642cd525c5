import IndagoRev.Models.ModelController

/-!
# Decisions of the model

A saved decision is turned into actions of the harness: an analysis into one action
under the key of its generation, a function workflow into one action for each of its
fixed requests. The cursor of a workflow is saved after each of them, so that a run
that is resumed goes on where the last one ended. Around this the loop of
`harness_explore`, its end, and the machine of all runners.
-/

namespace Indago

open StdText Tables Transactions Interleaving

section Controller

variable (ctx : ExploreContext) (request : ExploreRequest)

/-- The key of an action, by what it was asked for. -/
def DecisionRequest.key (sha256 : Text → Text) : DecisionRequest → Text
  | .analysis generation => "generation_" ++ decimal generation
  | .workflow location step =>
    "function_" ++ (sha256 location).take 24 ++ "_" ++ decimal step

/-- `propose`, in the name of a decision. -/
def proposeRequest (n : Nat) (decision : Decision) (part : DecisionRequest) (proposal : Proposal)
    (draft : ActionDraft) (env : ExploreInput) (generation revision : Nat) :
    ExploreTx ActionRecord := do
  let action ← overHarness ctx (proposeAction ctx.sha256 ctx.dumpRequest env.harness
    (request.caller n) ⟨ctx.project, ctx.id, part.key ctx.sha256, proposal, draft, some revision⟩)
  modify (fun store => { store with
    effects := store.effects ++ [.turned generation decision part action.id] })
  return action

/-- `owned("propose")`. -/
def proposeOwned (n generation : Nat) (decision : Decision) (part : DecisionRequest)
    (proposal : Proposal) (draft : ActionDraft) : ExploreProgram ActionRecord := do
  let inv ← showInvestigation ctx n
  exploreQuery n (fun env => proposeRequest ctx request n decision part proposal draft env
    generation inv.revision)

/-- The tables of the harness as a part of the store. -/
def harnessPart (label : ExploreLabel) :
    Part HarnessInput ExploreInput HarnessLabel ExploreLabel HarnessStore ExploreStore :=
  ⟨ExploreInput.harness, fun _ => label, ExploreStore.harness,
    fun harness store => { store with harness := harness }, fun _ _ => rfl⟩

/-- `owned("run")`: the run of the action itself, and its record afterwards. -/
def runOwned (n : Nat) (action : Text) : ExploreProgram (ActionRecord × ExploreInput) := do
  let inv ← showInvestigation ctx n
  let claimed ← exploreQuery n (fun env => do
    let claimed ← overHarness ctx (claimAction ctx.sha256 env.harness (request.caller n)
      ctx.project ctx.id action (some inv.revision) n)
    return (claimed, env))
  match claimed with
  | (.answered record, env) => return (record, env)
  | (.runs record inv, _) => do
    Program.embed (harnessPart (.runner n)) ModelError.other
      (runAction ctx.sha256 ctx.dump ctx.dumpRequest ⟨ctx.project, ctx.id, action, n⟩)
      (RunLocal.mk record inv)
    exploreQuery n (fun env => do
      let row ← overHarness ctx (actionRecord ctx.project ctx.id action)
      return (row.record, env))

/-- The statuses of a native result that count as failed. -/
def ActionStatus.nativeFailure : ActionStatus → Bool
  | .ended status => status.text ∈ ["failed".toList, "unsupported".toList, "not_found".toList,
      "timeout", "timed_out", "environment_unavailable"]
  | _ => false

/-- The analysis that starts an assisted run. -/
def bootstrapDecision : Decision :=
  .analyze ⟨"initial native metadata", "native format and entry",
      "bounded inventory", "retain explicit failure"⟩
    ⟨none, none, none, none, .static "xair" "inventory" [] [] [], [], none, none, none⟩

/-- A request that failed before is not repeated. -/
def checkRepeated (digest : Text) : ExploreProgram Unit := do
  let l ← get
  if digest ∈ l.state.failedRequests then
    throw (.other "Identical failed request suppressed; narrow bounds, choose another supported backend or report a gap")
  else return ()

/-- The request of a general analysis is saved as it will be proposed, once. -/
def pinRequest (n : Nat) (proposal : Proposal) (draft : ActionDraft) :
    ExploreProgram ActionDraft := do
  let l ← get
  if l.state.recipe = .general ∧ l.state.prepared.getD 0 ≠ l.state.generations then do
    let env ← surroundings n
    modify (fun l => { l with state := { l.state with
      pending := some (.analyze proposal env.draft), prepared := some l.state.generations } })
    saveState n
    return env.draft
  else return draft

/-- The last eight requests that failed. -/
def noteFailure (digest : Text) (action : ActionRecord) : ExploreProgram Unit :=
  if action.result.any (fun result => result.status.nativeFailure) then
    modify (fun l => { l with state := { l.state with
      failedRequests := (l.state.failedRequests ++ [digest]).drop
        (l.state.failedRequests.length + 1 - 8) } })
  else return ()

/-- The inventory of an assisted run selects the entry point. -/
def noteInventory (env : ExploreInput) : ExploreProgram Unit := do
  let l ← get
  match env.inventory with
  | some evidence =>
    if l.state.recipe = .assistedStatic ∧ l.state.generations = 0 then
      modify (fun l => { l with state := { l.state with
        nextDecision := some (.function true (.direct ⟨evidence, "/program/entry"⟩))
        notes := env.notes } })
    else return ()
  | none => return ()

/-- `analyze`. -/
def analyzeDecision (n : Nat) (proposal : Proposal) (draft : ActionDraft) :
    ExploreProgram Turn := do
  let draft ← pinRequest n proposal draft
  let digest := ctx.sha256 (ctx.dumpDraft draft)
  checkRepeated digest
  let l ← get
  let action ← proposeOwned ctx request n l.state.generations (.analyze proposal draft)
    (.analysis l.state.generations) proposal draft
  let outcome ← runOwned ctx request n action.id
  setFeedback outcome.2.feedback
  if outcome.1.status = .waitingForJob then do
    saveState n
    setResult "waiting_for_job"
    return .stop
  else do
    noteFailure digest outcome.1
    noteInventory outcome.2
    return .go

/-- `model_function_budget`: how many workflows the investigation can still pay. -/
def functionBudget (inv : Investigation) (count : Nat) : Nat :=
  min ((inv.limits.maxActions - inv.reserved.actions) / count)
    (min ((inv.limits.wallMs - inv.reserved.wallMs) / (20000 * count))
      ((inv.limits.outputBytes - inv.reserved.outputBytes) / (131072 * count)))

/-- `harness_unsigned` of a hexadecimal address. -/
def hexAddress (t : Text) : Except String Nat :=
  if startsWith "0x" t = false then
    .error "function requires a nonzero hexadecimal address"
  else if t.drop 2 = [] ∨ (t.drop 2).any (fun c => ¬ (c.isDigit ∨ c.toLower ∈ "abcdef".toList)) ∨
      2 ^ 64 ≤ ofHex ((t.drop 2).map Char.toLower) then
    .error "Invalid or overflowing unsigned integer"
  else .ok (ofHex ((t.drop 2).map Char.toLower))

/-- The requests of a workflow, as pairs of a backend and an operation. -/
def workflowOperations (acceptance : Bool) : List (Text × Text) :=
  [("ghidra".toList, "decompile".toList), ("xair".toList, "cfg".toList),
    ("ghidra".toList, "calls".toList), ("ghidra".toList, "xrefs".toList)] ++
  if acceptance then
    [("sym".toList, "solve_branch".toList), ("sym".toList, "taint".toList)]
  else []

/-- `model_function_plan`. -/
def functionPlan (acceptance : Bool) (source : EvidencePointer) : Except String FunctionPlan := do
  let (artifact, address) ← ctx.page source
  let value ← hexAddress address
  if value = 0 then throw "function requires a nonzero hexadecimal address"
  else return ⟨artifact, address, (workflowOperations acceptance).map fun part =>
    ⟨none, none, some artifact, none, .static part.1 part.2 address [] [], [],
      some ⟨some 20000, some 131072, some 2147483648, some 256⟩, none, none⟩⟩

/-- The proposal of each request of a workflow. -/
def workflowProposal (operation : Text) : Proposal :=
  ⟨"native function views", operation, "separate bounded backend evidence",
    "retain partial result or explicit failure"⟩

def ActionDraft.operation (draft : ActionDraft) : Text :=
  match draft.work with
  | .static _ operation _ _ _ => operation
  | _ => []

/-- The pointer that a decision selects its function by. -/
def FunctionPayload.resolve (feedback : Feedback) : FunctionPayload → Except String EvidencePointer
  | .direct source => .ok source
  | .legacy operation address =>
    match feedback.program with
    | some evidence =>
      if operation ∈ ["entry".toList, "acceptance".toList, "entry_acceptance".toList] ∧
          address = "/program/entry" then
        .ok ⟨evidence, address⟩
      else .error "Legacy function request does not reference the verified current entry pointer"
    | none => .error "Legacy function request does not reference the verified current entry pointer"

def except {α : Type} : Except String α → ExploreProgram α
  | .ok a => return a
  | .error e => throw (.other e)

def setWork (work : FunctionWork) : ExploreProgram Unit :=
  modify (fun l => { l with state := { l.state with work := some work } })

/-- A change of the cursor, where there is one. -/
def changeWork (change : FunctionWork → FunctionWork) : ExploreProgram Unit :=
  modify (fun l => { l with state := { l.state with work := l.state.work.map change } })

/-- How one request of a workflow went. -/
inductive StepOutcome where
  | waiting
  | done
  | failed

/-- One request of a workflow. Failures end the workflow, they are not tried again. -/
def workflowStep (n generation : Nat) (decision : Decision) (plan : FunctionPlan) (step : Nat)
    (draft : ActionDraft) : ExploreProgram StepOutcome :=
  tryCatch (do
      let action ← proposeOwned ctx request n generation decision (.workflow plan.location step)
        (workflowProposal draft.operation) draft
      let outcome ← runOwned ctx request n action.id
      if outcome.1.status = .waitingForJob then do
        setFeedback outcome.2.feedback
        setResult "waiting_for_job"
        saveState n
        return .waiting
      else do
        changeWork (fun work => { work with results := work.results ++ [outcome.2.feedback.text] })
        return .done)
    (fun e => do
      changeWork (fun work => { work with
        results := work.results ++ [(clip 256 e.what).toList], next := plan.requests.length })
      saveState n
      return .failed)

/-- The requests of a workflow from the saved cursor on. It answers whether the run
waits for a job. -/
def workflowSteps (n : Nat) (decision : Decision) (plan : FunctionPlan) : Nat → ExploreProgram Bool
  | 0 => return false
  | more + 1 => do
    let l ← get
    let cancelled ← cancelledFlag n
    let step := (l.state.work.map FunctionWork.next).getD plan.requests.length
    match plan.requests[step]? with
    | none => return false
    | some draft =>
      if cancelled then return false
      else do
        let outcome ← workflowStep ctx request n l.state.generations decision plan step draft
        match outcome with
        | .waiting => return true
        | .failed => return false
        | .done => do
          changeWork (fun work => { work with next := step + 1 })
          saveState n
          workflowSteps n decision plan more

def workKey (plan : FunctionPlan) : Text :=
  "function_" ++ (ctx.sha256 plan.location).take 24

/-- A workflow is started once, on a plan that it keeps. -/
def beginWork (n : Nat) (plan : FunctionPlan) : ExploreProgram Unit := do
  let l ← get
  if plan.location ∈ l.state.visited then
    throw (.other "Function already investigated; retrieve its evidence or select an unvisited call destination")
  else do
    let work := match l.state.work with
      | some work => if work.key = workKey ctx plan then work else ⟨workKey ctx plan, plan, 0, []⟩
      | none => ⟨workKey ctx plan, plan, 0, []⟩
    setWork work
    if work.plan ≠ plan then throw (.other "Function workflow source changed; no replay")
    else saveState n

/-- The destinations that calls show, without those that are known. -/
def mergeFrontier (visited : List Text) (location : Text) (frontier calls : List FrontierItem) :
    List FrontierItem :=
  calls.foldl (fun known item =>
      if item.location ∈ visited ∨ known.any (·.location = item.location) ∨ 8 ≤ known.length then
        known
      else known ++ [item])
    (frontier.filter (·.location ≠ location))

/-- The score of a destination: a lower address first, then the distance. -/
def frontierScore (current address : Nat) : Nat :=
  add64 (if address < current then 2 ^ 63 else 0)
    (if current < address then address - current else current - address)

/-- The destination that is looked at next. -/
def selectFrontier (current : Nat) : List FrontierItem → Except String (Option FrontierItem)
  | [] => .ok none
  | first :: rest => do
    let best ← (first :: rest).foldlM (fun (best : FrontierItem × Nat) item => do
      let address ← hexAddress item.address
      return if best.2 < frontierScore current address then
        (item, frontierScore current address) else best) (first, 0)
    return some best.1

/-- The recovery of an initialised blob, where both views of an acceptance workflow
were collected. -/
def recoverAutomatically (n : Nat) (acceptance : Bool) : ExploreProgram Bool :=
  tryCatch (do
      let env ← surroundings n
      if acceptance && env.recovered then do
        let _ ← owned ctx n (fun env revision => noteInvestigation ctx.sha256 env.harness
          ctx.project ctx.id (request.caller n) (some revision) (.reason env.reasoning))
        let _ ← owned ctx n (fun env revision => noteInvestigation ctx.sha256 env.harness
          ctx.project ctx.id (request.caller n) (some revision) (.reason env.reasoning))
        return true
      else return false)
    (fun _ => return false)

/-- An acceptance workflow that recovered nothing goes on at a callee. -/
def selectNext (n : Nat) (acceptance recovered : Bool) (plan : FunctionPlan) :
    ExploreProgram Unit := do
  let l ← get
  if acceptance ∧ recovered = false ∧ l.state.frontier ≠ [] then do
    let inv ← showInvestigation ctx n
    if functionBudget inv 6 = 0 then return ()
    else do
      let current ← except (hexAddress plan.address)
      let selected ← except (selectFrontier current l.state.frontier)
      match selected with
      | some item => modify (fun l => { l with state := { l.state with
          nextDecision := some (.function true (.direct item.source)) } })
      | none => return ()
  else return ()

/-- An assisted run without a budget for another workflow ends. -/
def closeAssisted (n : Nat) (recovered : Bool) : ExploreProgram Unit := do
  let l ← get
  if l.state.recipe = .assistedStatic then do
    let env ← surroundings n
    setNotes env.notes
    let inv ← showInvestigation ctx n
    if functionBudget inv 4 = 0 ∧ recovered = false then
      finishWith ctx request n .partialAnswer
        "Function workflow budget exhausted; controller retained checked observations and native action evidence. Behavioral conclusions and challenge solution remain unresolved."
    else return ()
  else return ()

/-- The views of a finished workflow become feedback. -/
def closeWork (n : Nat) (acceptance : Bool) (plan : FunctionPlan) : ExploreProgram Unit := do
  let l ← get
  if 16 < l.state.visited.length + 1 then
    throw (.other "Function investigation count exceeded")
  else do
    let env ← surroundings n
    modify (fun l => { l with state := { l.state with
      visited := l.state.visited ++ [plan.location]
      frontier := mergeFrontier (l.state.visited ++ [plan.location]) plan.location l.state.frontier
        env.calls } })
    let recovered ← recoverAutomatically ctx request n acceptance
    setFeedback env.feedback
    selectNext ctx n acceptance recovered plan
    closeAssisted ctx request n recovered

/-- A workflow that was not begun needs the budget for all of its requests. -/
def checkWorkBudget (n : Nat) (acceptance : Bool) (plan : FunctionPlan) : ExploreProgram Turn := do
  let l ← get
  if l.state.work.map FunctionWork.key = some (workKey ctx plan) then return .go
  else do
    let inv ← showInvestigation ctx n
    if functionBudget inv (if acceptance then 6 else 4) = 0 then
      if l.state.recipe = .assistedStatic then do
        finishWith ctx request n .partialAnswer
          "Insufficient remaining budget for a full function workflow; native observations retained. No extra inference or partial workflow dispatch was needed."
        return .stop
      else throw (.other "Insufficient budget for all four function actions; use a narrower explicit native request")
    else return .go

/-- The workflow of a plan, from its budget to its views. -/
def performWork (n : Nat) (decision : Decision) (acceptance : Bool) (plan : FunctionPlan) :
    ExploreProgram Turn := do
  let turn ← checkWorkBudget ctx request n acceptance plan
  if turn = .stop then return .stop
  else do
    beginWork ctx n plan
    let waiting ← workflowSteps ctx request n decision plan plan.requests.length
    if waiting then return .stop
    else do
      closeWork ctx request n acceptance plan
      return .go

/-- `function` and `acceptance`. -/
def functionDecision (n : Nat) (decision : Decision) (acceptance : Bool)
    (payload : FunctionPayload) : ExploreProgram Turn := do
  let l ← get
  let source ← except (payload.resolve l.state.feedback)
  if l.state.recipe = .general then
    throw (.other "general policy requires selective analyze actions, not fixed bundles")
  else do
    let plan ← except (functionPlan ctx acceptance source)
    performWork ctx request n decision acceptance plan

/-- `finish`. -/
def finishDecision (n : Nat) (payload : FinishPayload) : ExploreProgram Unit := do
  let l ← get
  if l.state.recipe = .assistedStatic ∧ l.state.work = none ∧
      l.state.generations < l.state.maxGenerations then
    throw (.other "Assisted static workflow has not attempted function analysis. Use function with a native entry pointer before finishing, or use the final reserved turn for explicit gaps.")
  else do
    let inv ← showInvestigation ctx n
    if l.state.recipe = .assistedStatic ∧ l.state.generations < l.state.maxGenerations ∧
        l.state.frontier ≠ [] ∧ 0 < functionBudget inv 4 then
      throw (.other "Unvisited call destinations and a full function-workflow budget remain. Investigate a relevant frontier destination before finishing; the final reserved generation may always publish explicit gaps.")
    else
      match payload with
      | .saved =>
        finishWith ctx request n .partialAnswer
          "Controller-assembled native observations; behavioral conclusions and challenge solution remain unverified."
      | .solved => do
        let finished ← owned ctx n (fun env revision => finishInvestigation ctx.sha256 env.harness
          (request.caller n) ⟨ctx.project, ctx.id, some revision, env.status, env.answer,
            env.claims, env.gaps⟩)
        setResult finished.status.text
      | .report status answer claims gaps =>
        if l.state.recipe = .assistedStatic then
          throw (.other "Assisted static reports are controller-assembled: finish payload must be {saved:true} or {solved:true} after deterministic solution validation")
        else do
          let _ ← owned ctx n (fun env revision => finishInvestigation ctx.sha256 env.harness
            (request.caller n) ⟨ctx.project, ctx.id, some revision, status, answer, claims, gaps⟩)
          setResult status.text

/-- The guards of a general run. They bind the request of an analysis first. -/
def prepareGeneral (n : Nat) (decision : Decision) : ExploreProgram Decision := do
  let l ← get
  if l.state.recipe = .general then do
    let env ← surroundings n
    let prepared := match decision with
      | .analyze proposal _ => .analyze proposal env.draft
      | .note .retrieve _ => .note .retrieve env.notes
      | other => other
    setPending (some prepared)
    let _ ← surroundings n
    return prepared
  else return decision

/-- A decision by its kind. -/
def dispatchDecision (n : Nat) (decision : Decision) : ExploreProgram Turn :=
  match decision with
  | .analyze proposal draft => analyzeDecision ctx request n proposal draft
  | .function acceptance payload => functionDecision ctx request n decision acceptance payload
  | .reason _ => do
    let _ ← owned ctx n (fun env revision => noteInvestigation ctx.sha256 env.harness
      ctx.project ctx.id (request.caller n) (some revision) (.reason env.reasoning))
    let env ← surroundings n
    setFeedback env.feedback
    return .go
  | .checkpoint board => do
    let _ ← owned ctx n (fun env revision => noteInvestigation ctx.sha256 env.harness
      ctx.project ctx.id (request.caller n) (some revision) (.checkpoint board))
    let env ← surroundings n
    setFeedback env.feedback
    return .go
  | .note _ _ => do
    let env ← surroundings n
    setFeedback env.feedback
    setNotes env.notes
    return .go
  | .finish payload => do
    finishDecision ctx request n payload
    setFeedback ⟨[], none, none⟩
    return .go

/-- The saved decision. -/
def pendingDecision (n : Nat) : ExploreProgram Turn := do
  let l ← get
  match l.state.pending with
  | none => throw (.other "key 'pending' not found")
  | some decision => do
    let prepared ← prepareGeneral n decision
    let turn ← dispatchDecision ctx request n prepared
    if turn = .stop then return .stop
    else do
      modify (fun l => { l with state := { l.state with repairs := 0 } })
      return .go

/-- A decision that failed is told to the model, three times at most. -/
def decisionFailed (n : Nat) (e : ModelError) : ExploreProgram Turn := do
  setFeedback ⟨[], some (clip 1024 e.what), none⟩
  let _ ← surroundings n
  modify (fun l => { l with state := { l.state with repairs := l.state.repairs + 1 } })
  let l ← get
  if 2 < l.state.repairs then do
    finishWith ctx request n .capabilityBlocked
      ("Repeated tool contract or capability failure: " ++ clip 512 e.what)
    return .stop
  else return .go

def performDecision (n : Nat) : ExploreProgram Turn :=
  tryCatch (pendingDecision ctx request n) (decisionFailed ctx request n)

/-- What follows a decision: it is dropped, and the next one may be known already. -/
def afterDecision (n : Nat) : ExploreProgram Unit := do
  let env ← surroundings n
  modify (fun l => { l with state := { l.state with
    notes := env.notes
    prepared := none
    pending := l.state.nextDecision
    nextDecision := none
    phase := if l.state.nextDecision.isSome then .responseSaved else .ready } })
  saveState n

/-- A rate limit that was stored holds until its time. -/
def checkRetry (n : Nat) : ExploreProgram Turn := do
  let l ← get
  match l.state.retryNotBefore with
  | none => return .go
  | some due => do
    let now ← clock n
    if now < due then do
      setResult "rate_limited"
      return .stop
    else do
      modify (fun l => { l with state := { l.state with retryNotBefore := none } })
      return .go

/-- An assisted run begins with an inventory that no provider decided. -/
def bootstrap (n : Nat) : ExploreProgram Unit := do
  let l ← get
  if l.state.recipe = .assistedStatic ∧ l.state.bootstrapStarted = false then do
    modify (fun l => { l with state := { l.state with
      bootstrapStarted := true, pending := some bootstrapDecision, phase := .responseSaved } })
    saveState n
  else return ()

/-- One turn of an open investigation. -/
def exploreTurn (n maxGenerations : Nat) : ExploreProgram Turn := do
  let retry ← checkRetry n
  if retry = .stop then return .stop
  else do
    bootstrap n
    let generated ← generateDecision ctx request n maxGenerations
    if generated ≠ .go then return generated
    else do
      let performed ← performDecision ctx request n
      if performed = .stop then return .stop
      else do
        afterDecision n
        return .again

/-- The loop of `harness_explore`. A run is cut after some number of turns, like any
process may be. -/
def exploreLoop (n maxGenerations : Nat) : Nat → ExploreProgram Unit
  | 0 => return ()
  | more + 1 => do
    let inv ← showInvestigation ctx n
    if inv.status.terminal then return ()
    else do
      let cancelled ← cancelledFlag n
      if cancelled then return ()
      else do
        let turn ← exploreTurn ctx request n maxGenerations
        if turn = .stop then return () else exploreLoop n maxGenerations more

variable (n maxGenerations rounds : Nat)

/-- A request that was interrupted has an unknown outcome; it is not sent again. -/
def exploreBody : ExploreProgram Unit := do
  let l ← get
  if l.state.phase = .requestInflight then
    finishWith ctx request n .partialAnswer
      "Previous model request was interrupted with an unknown outcome; no automatic resubmission."
  else exploreLoop ctx request n maxGenerations rounds

/-- `cancel`, where the heartbeat saw a cancellation. -/
def cancelOwned (n : Nat) : ExploreProgram Unit := do
  let cancelled ← cancelledFlag n
  let inv ← showInvestigation ctx n
  if cancelled ∧ inv.status.terminal = false then do
    let _ ← exploreQuery n (fun env => overHarness ctx
      (cancelInvestigation ctx.sha256 env.harness ctx.project ctx.id (request.caller n)))
    return ()
  else return ()

/-- A run that reported nothing shows the investigation. -/
def showResult (n : Nat) : ExploreProgram Unit := do
  let l ← get
  match l.result with
  | some _ => return ()
  | none => do
    let inv ← showInvestigation ctx n
    setResult inv.status.text

/-- The row is given up. -/
def releaseRow (n : Nat) : ExploreTx Unit :=
  modify (fun store => { store with row := store.row.map (fun row =>
    if row.runner = some n then { row with runner := none, deadline := 0 } else row) })

/-- The last save, with the end of the lease. -/
def closeRun (n : Nat) : ExploreProgram Unit := do
  let inv ← showInvestigation ctx n
  modify (fun l => { l with state := { l.state with
    status := some (l.result.getD "partial")
    phase := if inv.status.terminal then .terminal else l.state.phase } })
  let l ← get
  exploreQuery n (fun env => do
    persist n env.harness.now l.state
    releaseRow n)

/-- What is checked before a run takes its row. -/
def checkStart (n : Nat) : ExploreProgram Unit := do
  let inv ← showInvestigation ctx n
  if inv.owner.builtin = false then
    throw (.other "ownership conflict: external investigation cannot start internal inference")
  else do
    let _ ← surroundings n
    if some inv.revision ≠ request.expectedRevision then throw (.other "revision_conflict")
    else return ()

/-- A run from the taking of its row to its end. -/
def exploreRun : ExploreProgram Unit := do
  let state ← exploreQuery n (fun env =>
    takeRun ctx request n env.harness.now (request.recipe.getD .inputValidation) maxGenerations)
  set (ExploreLocal.mk state none)
  tryCatch (do
      exploreBody ctx request n maxGenerations rounds
      cancelOwned ctx request n
      showResult ctx n)
    (fun _ => setResult "partial")
  closeRun ctx n

/-- `harness_explore`. -/
def harnessExplore (n rounds : Nat) : ExploreProgram Unit :=
  if request.allowInference = false then
    throw (.other "explicit allow_inference required; no provider was contacted")
  else
    match bound "max_generations" 8 128 request.maxGenerations with
    | .error e => throw (.other e)
    | .ok 0 => throw (.other "max_generations must be positive")
    | .ok (generations + 1) => do
      checkStart ctx request n
      exploreRun ctx request n (generations + 1) rounds

/-- One beat of a runner: its lease, and that of the owner. -/
def beatController (runner now : Nat) (token : Text) : ExploreTx Unit := do
  let store ← get
  match store.row with
  | some row =>
    if row.runner = some runner then do
      set { store with row := some { row with deadline := now + 60000 } }
      overHarness ctx (do
        let found ← loadInvestigation ctx.project ctx.id
        if found.tokenHash ≠ ctx.sha256 token then throw "owner lease lost"
        else updateInvestigation ctx.project ctx.id (fun r => { r with deadline := now + 60000 }))
    else throw (.other "model controller ownership lost")
  | none => throw (.other "model controller ownership lost")

/-- What can be asked: a run, a beat of the heartbeat of a runner, and what is done
with the tables of the harness beside the runs. -/
inductive ExploreCall where
  | explore (request : ExploreRequest) (rounds : Nat)
  | heartbeat (runner : Nat) (token : Text)
  | harness (call : HarnessCall)

/-- The investigation that is explored is not handed over to another owner, which would end
its run. -/
def HarnessCall.besides : HarnessCall → Bool
  | .release project id _ _ next => next.isNone || (project, id) != (ctx.project, ctx.id)
  | .controllers _ => false
  | _ => true

/-- The data of a runner that has read nothing yet. -/
def ExploreLocal.initial : ExploreLocal := ⟨.initial ctx.profile .inputValidation 8, none⟩

def exploreMachine : Machine ExploreInput ExploreLabel ExploreStore ExploreCall where
  start
    | .explore request rounds, n, _, store =>
      (store, (harnessExplore ctx request n rounds).process (.initial ctx))
    | .heartbeat runner token, _, _, store =>
      (store, (Program.atomically (.runner runner) (fun env =>
        if env.harness.busy then throw (.other "database is locked")
        else beatController ctx runner env.harness.now token) : ExploreProgram Unit).process
          (.initial ctx))
    | .harness call, n, env, store =>
      if call.besides ctx then
        let started := (harnessMachine ctx.sha256 ctx.dump ctx.dumpRequest).start call n
          env.harness (store.visible ctx)
        ({ store with harness := started.1 }, started.2.embed (harnessPart .outside))
      else (store, .done ())

/-- A workspace without investigations. -/
def idleExplore (jobs : JobStore) (library : Library) :
    Machine.State ExploreInput ExploreLabel ExploreStore :=
  ⟨⟨HarnessStore.fresh jobs library, none, []⟩, []⟩

end Controller

end Indago
