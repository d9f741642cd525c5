import IndagoRev.Airece.FlowSymbolic

/-!
# Directed flow

`directed_flow`: the points are resolved, taint is spread until nothing changes or the
loop is stopped, paths are searched, and the verdict is formed, in the symbolic modes
by a check of each path that was kept.  A run keeps what led to its result.

The two loops whose rounds are not bounded by the data take fuel.
-/

namespace Airece

open StdText

/-- Whether a source is longer than the bytes that are tracked. -/
def isTooLong (o : FlowOptions) (selector : FlowPointSelector) : Bool :=
  (selector.kind == .buffer || selector.kind == .memory) && o.maxTaintBytes != 0 &&
    decide (o.maxTaintBytes < selector.length)

/-- The result once all points are resolved. -/
def resolvePoints (s : FlowSession) (o : FlowOptions) (sources targets : List FlowPointSelector) :
    DirectedFlowResult :=
  { mode := o.mode
    functionDepth := o.functionDepth
    completion := if sources.any (isTooLong o) then .limited else .complete
    sources := sources.map (resolvePoint s)
    targets := targets.map (resolvePoint s) }

/-- The first point that could not be resolved. -/
def badPoint (r : DirectedFlowResult) : Option ResolvedFlowPoint :=
  (r.sources.find? ResolvedFlowPoint.isBadSource).or
    (r.targets.find? ResolvedFlowPoint.isBadTarget)

/-- The state of the taint loop. -/
structure TaintRun where
  call : CallState
  result : DirectedFlowResult

/-- The result with what the propagation counts. -/
def TaintRun.counted (t : TaintRun) : DirectedFlowResult :=
  { t.result with states := t.call.taint.states, deepestCall := t.call.deepest }

/-- `stopped`, inside the taint loop. -/
def TaintRun.poll (w : Watch) (o : FlowOptions) (t : TaintRun) : Bool × TaintRun :=
  let (stop, r) := stopped w o t.counted
  (stop, { t with result := r })

/-- The loop over the operations, until it is stopped. -/
def runOperations (w : Watch) (c : TaintContext) : List OperationRecord → TaintRun → TaintRun
  | [], t => t
  | record :: rest, t =>
    match TaintRun.poll w c.options { t with call := propagateOperation c record t.call } with
    | (true, t) => t
    | (false, t) => runOperations w c rest t

/-- A state in which nothing has changed yet. -/
def TaintRun.fresh (t : TaintRun) : TaintRun :=
  { t with call := { t.call with taint := { t.call.taint with changed := false } } }

/-- The block arguments, at the end of a round. -/
def TaintRun.passArguments (c : TaintContext) (t : TaintRun) : TaintRun :=
  { t with call := { t.call with taint := propagateBlockArguments c t.call.taint } }

/-- One round of the loop. -/
def taintRound (w : Watch) (c : TaintContext) (operations : List OperationRecord)
    (t : TaintRun) : TaintRun :=
  match (runOperations w c operations t.fresh).poll w c.options with
  | (true, t) => t
  | (false, t) => t.passArguments c

/-- The loop, while something changes and it is not stopped. -/
def taintLoop (w : Watch) (c : TaintContext) (operations : List OperationRecord) :
    Nat → TaintRun → Option TaintRun
  | 0, _ => none
  | n + 1, t =>
    if t.call.taint.changed = false then some t
    else
      match t.poll w c.options with
      | (true, t) => some t
      | (false, t) => taintLoop w c operations n (taintRound w c operations t)

/-- What the taint rules read in a query. -/
def taintContext (s : FlowSession) (m : XairModule) (o : FlowOptions)
    (sources : List ResolvedFlowPoint) : TaintContext :=
  { session := s, module := m, options := o, sources := sources
    offsets := recoverStorageOffsets s.cfg m (collectOperations s.cfg m) }

/-- The state in which the taint loop begins. -/
def seededTaint (s : FlowSession) (m : XairModule) (o : FlowOptions) (r : DirectedFlowResult) :
    TaintRun :=
  let seeded : TaintState :=
    seedAbsoluteMemory m o.maxStates (collectOperations s.cfg m) r.sources
      (seedSources o.maxStates r.sources ⟨fun _ => none, r.states, true⟩)
  { call := { taint := { seeded with changed := true }, deepest := r.deepestCall }, result := r }

/-- The taint of a query. -/
def spreadTaint (fuel : Nat) (s : FlowSession) (m : XairModule) (w : Watch) (o : FlowOptions)
    (r : DirectedFlowResult) : Option TaintRun :=
  taintLoop w (taintContext s m o r.sources) (collectOperations s.cfg m) fuel
    (seededTaint s m o r)

/-- The influence that a tag of a target value shows. -/
def tagInfluence (target : Nat) (t : Tag) : FlowInfluence :=
  { source := t.source, target := target, byteRange := t.bytes && !t.pointer
    offsetBegin := t.start, offsetEnd := t.stop, callDepth := t.callDepth
    transforms := t.transforms }

/-- The influences on the values of the targets. -/
def valueInfluences (tags : Tags) (targets : List ResolvedFlowPoint) : List FlowInfluence :=
  targets.zipIdx.flatMap (fun (point, target) =>
    if point.selector.kind = .reach then []
    else point.values.flatMap (fun v => (tags.of v).map (tagInfluence target)))

/-- One step of `materialize_path`. -/
def pathStep (s : FlowSession) (path : PathRecord) (node : NodeId) (index : Nat) : FlowPathStep :=
  let step : FlowPathStep :=
    { node := node, address := ((s.cfg.node node).map CfgNode.start).getD 0 }
  match if index = 0 then none else (path.edges[index - 1]?).bind s.cfg.edge with
  | none => step
  | some edge =>
    { step with
      edge := s.cfg.edgeKindName edge.kind
      condition :=
        if edge.condition = invalidId then [] else s.expressionText edge.condition }

/-- `materialize_path`. -/
def materializePath (s : FlowSession) (path : PathRecord) (r : DirectedFlowResult) :
    DirectedFlowResult :=
  { r with path := path.nodes.zipIdx.map (fun (node, index) => pathStep s path node index) }

/-- What the solver answered about a path, when it was asked. -/
abbrev PathAnswer := Option (SymStatus × SymSat)

/-- The state of the loop over the candidates, with the answers so far. -/
structure Checking (σ : Type) where
  result : DirectedFlowResult
  engine : σ
  answers : List (CandidatePath × PathAnswer) := []
  sawUnknown : Bool := false
  feasible : Bool := false

/-- The result before a path is checked. -/
def beforeCheck (s : FlowSession) (path : PathRecord) (r : DirectedFlowResult) :
    DirectedFlowResult :=
  materializePath s path
    { r with constraints := [], witnesses := [], sourceConstrained := false, diagnostic := [] }

variable {σ : Type} (e : SymbolicEngine σ)

/-- The loop over the candidates. -/
def checkCandidates (s : FlowSession) (m : XairModule) (w : Watch) (o : FlowOptions)
    (tags : Tags) : List CandidatePath → Checking σ → Checking σ
  | [], c => c
  | candidate :: rest, c =>
    match stopped w o c.result with
    | (true, r) => { c with result := r }
    | (false, r) =>
      if o.maxQueries ≠ 0 ∧ o.maxQueries ≤ r.queries then { c with result := r }
      else
        let checked :=
          runSymbolic e s m o tags candidate.path (beforeCheck s candidate.path r) c.engine
        let next :=
          { c with
            result := checked.result, engine := checked.engine
            answers := c.answers ++ [(candidate, checked.answer)] }
        if checked.result.verdict = .feasibleFlow then { next with feasible := true }
        else
          checkCandidates s m w o tags rest
            { next with sawUnknown := c.sawUnknown || checked.result.verdict == .unknown }

/-- The end of `directed_flow` when there are candidates. -/
def checkedResult (c : Checking σ) : DirectedFlowResult :=
  { c.result with
    paths := c.answers.length
    verdict :=
      if c.feasible then c.result.verdict else if c.sawUnknown then .unknown else .infeasible }

/-- The diagnostic when taint reaches a target on no path. -/
def noBoundedPath : Text :=
  ("taint reached the target, but no bounded context-sensitive " ++
    "CFG path was available for symbolic verification").toList

/-- The verdict of a taint analysis without an influence. -/
def absenceVerdict (completion : FlowCompletion) : FlowVerdict :=
  if completion = .complete then .noFlow else .unknown

/-- A run of `directed_flow`: its result, the searches it made, what was answered about
the candidates that it came to, and whether the bound of the call depth dropped a tag. -/
structure FlowRun (σ : Type) where
  result : DirectedFlowResult
  searches : Searches
  answers : List (CandidatePath × PathAnswer) := []
  droppedTag : Bool := false
  engine : σ

/-- The end of `directed_flow`, from the searches on. -/
def formVerdict (s : FlowSession) (m : XairModule) (w : Watch) (o : FlowOptions) (tags : Tags)
    (searches : Searches) (x : σ) : FlowRun σ :=
  let r := searches.result
  let finish := fun (r : DirectedFlowResult) =>
    { result := { r with solverInitialized := e.solverInitialized x }
      searches := searches, engine := x : FlowRun σ }
  match o.mode with
  | .taint =>
    finish
      { r with
        paths := searches.candidates.length
        verdict := if r.influences = [] then absenceVerdict r.completion else .mayFlow }
  | mode =>
    if mode = .taintSymbolic ∧ r.influences = [] then
      finish { r with verdict := absenceVerdict r.completion }
    else if searches.candidates = [] then
      if mode = .taintSymbolic then
        finish
          { r with
            verdict := .unknown, completion := .unknown, diagnostic := noBoundedPath }
      else
        finish
          { r with
            verdict := if r.completion = .complete then .infeasible else .unknown }
    else
      let c := checkCandidates e s m w o tags searches.candidates { result := r, engine := x }
      { result :=
          { checkedResult c with solverInitialized := e.solverInitialized c.engine }
        searches := searches, answers := c.answers, engine := c.engine }

/-- The completion of a query on an incomplete session. -/
def withSession (s : FlowSession) (searches : Searches) : Searches :=
  if searches.result.completion = .complete ∧ s.isComplete = false then
    { searches with result := { searches.result with completion := .unknown } }
  else searches

/-- The searches of a query, after the taint. -/
def runSearches (fuel : Nat) (s : FlowSession) (w : Watch) (o : FlowOptions) (tags : Tags)
    (r : DirectedFlowResult) : Option Searches :=
  (searchPairs s.cfg w o tags fuel (flowPairs r)
    { result := { r with influences := valueInfluences tags r.targets } }).map (withSession s)

/-- A run that fails before anything is analysed. -/
def failedRun (r : DirectedFlowResult) (status : FlowStatus) (diagnostic : Text) (x : σ) :
    FlowRun σ :=
  let failed :=
    { r with status := status, completion := .failed, diagnostic := diagnostic }
  { result := failed, searches := { result := failed }, engine := x }

/-- `directed_flow`, with what led to its result. -/
def directedFlow (fuel : Nat) (s : FlowSession) (w : Watch)
    (sources targets : List FlowPointSelector) (o : FlowOptions) (x : σ) : Option (FlowRun σ) :=
  match if sources = [] ∨ targets = [] then none else s.module with
  | none =>
    some (failedRun { mode := o.mode, functionDepth := o.functionDepth } .badArg
      "flow requires at least one source and target over a XAIR module" x)
  | some m =>
    let r := resolvePoints s o sources targets
    match badPoint r with
    | some bad =>
      some (failedRun r .range (bad.selector.raw ++ ": " ++ bad.message) x)
    | none =>
      (spreadTaint fuel s m w o r).bind (fun t =>
        (runSearches fuel s w o t.call.taint.tags t.counted).map (fun searches =>
          { formVerdict e s m w o t.call.taint.tags searches x with
            droppedTag := t.call.dropped }))

end Airece
