import IndagoRev.Airece.Xair

/-!
# What directed flow reads, and what it returns

The control-flow graph of a session with its functions and their presentation
variables, the options and selectors of a query, and the record that
`directed_flow` fills in.  The graph is XAIR's and the variables come from
other views: both are data here, and an accessor fails exactly when its id is out
of range.
-/

namespace Airece

open StdText

/-- `xair_function_id`. -/
abbrev FunctionId := Nat

/-- `xair_cfg_edge_kind`: the kinds that directed flow tells apart, and all others. -/
inductive EdgeKind where
  | call | indirectCall | tailcall | callReturn | ret | external | cbranchFalse
  | other (code : Nat)
  deriving DecidableEq

/-- `xair_cfg_edge`. -/
structure CfgEdge where
  kind : EdgeKind
  dst : NodeId
  condition : ValueId := invalidId

/-- `xair_cfg_node`: its edges are a slice of the edges of the graph. -/
structure CfgNode where
  start : Nat := 0
  irBlock : BlockId := invalidId
  edgeOffset : EdgeId := 0
  edgeCount : Nat := 0

/-- `xair_cfg`. -/
structure Cfg where
  nodes : List CfgNode
  edges : List CfgEdge
  /-- `xair_cfg_function_nodes`, for every function. -/
  functionNodes : List (List NodeId)
  /-- `xair_cfg_node_function_owners`. -/
  owners : NodeId → List FunctionId
  /-- `xair_cfg_find_node_containing`. -/
  nodeContaining : Nat → NodeId
  /-- `xair_cfg_edge_kind_name`. -/
  edgeKindName : EdgeKind → Text

namespace Cfg

variable (cfg : Cfg) (id : NodeId)

/-- `xair_cfg_get_node`. -/
def node : Option CfgNode := cfg.nodes[id]?

/-- `xair_cfg_get_edge`. -/
def edge (id : EdgeId) : Option CfgEdge := cfg.edges[id]?

/-- `xair_cfg_node_edges`. -/
def nodeEdges (n : CfgNode) : List CfgEdge := (cfg.edges.drop n.edgeOffset).take n.edgeCount

/-- The block of a node that has one. -/
def block : Option BlockId :=
  (cfg.node id).bind (fun n => if n.irBlock = invalidId then none else some n.irBlock)

/-- The ids of all nodes. -/
def nodeIds : List NodeId := List.range cfg.nodes.length

/-- `node_owner`. -/
def nodeOwner : FunctionId := (cfg.owners id).headD cfgInvalidId

end Cfg

/-- `FunctionInfo`.  Its id is its place among the functions. -/
structure FunctionInfo where
  entry : Nat

/-- `PresentationVariable`. -/
structure PresentationVariable where
  name : Text := []
  isArgument : Bool := false
  isReturn : Bool := false
  primaryValue : ValueId := invalidId

/-- What directed flow reads of an `AnalysisSession`. -/
structure FlowSession where
  module : Option XairModule
  cfg : Cfg
  functions : List FunctionInfo
  /-- `variable_view`. -/
  variableView : FunctionId → List PresentationVariable
  /-- The texts of `expression_view`. -/
  expressionText : ValueId → Text
  /-- `xair_op_sources`: the instructions that an operation comes from. -/
  instructions : OpId → List Nat
  /-- `completeness().complete`. -/
  isComplete : Bool

/-- `function_by_address`. -/
def FlowSession.functionByAddress (s : FlowSession) (address : Nat) : Option FunctionId :=
  match s.functions.findIdx? (fun f => f.entry == address) with
  | some id => some id
  | none =>
    match s.cfg.owners (s.cfg.nodeContaining address) with
    | owner :: _ =>
      if s.cfg.nodeContaining address ≠ cfgInvalidId ∧ owner < s.functions.length then
        some owner
      else none
    | [] => none

/-- `FlowMode`. -/
inductive FlowMode where
  | taint | taintSymbolic | symbolic
  deriving DecidableEq

/-- `FlowPointKind`. -/
inductive FlowPointKind where
  | registerValue | buffer | memory | xairValue | functionArgument | callArgument
  | callResult | reach | memoryWrite
  deriving DecidableEq

/-- `FlowWhen`. -/
inductive FlowWhen where
  | before | after
  deriving DecidableEq

/-- `FlowPointSelector`. -/
structure FlowPointSelector where
  raw : Text := []
  name : Text := []
  kind : FlowPointKind := .xairValue
  moment : FlowWhen := .before
  registerName : Text := []
  address : Nat := 0
  memoryAddress : Nat := 0
  length : Nat := 0
  index : Nat := 0
  value : ValueId := invalidId

/-- `FlowOptions`, without the cancellation token, which is part of what is watched. -/
structure FlowOptions where
  mode : FlowMode := .taint
  functionDepth : Nat := 3
  maxStates : Nat := 4096
  maxQueries : Nat := 128
  maxPaths : Nat := 16
  maxTaintBytes : Nat := 4096
  maxSymbolicBytes : Nat := 32
  maxTimeMs : Nat := 5000

/-- `FlowCompletion`. -/
inductive FlowCompletion where
  | complete | limited | timeout | canceled | unknown | failed
  deriving DecidableEq

/-- `FlowVerdict`. -/
inductive FlowVerdict where
  | mayFlow | feasibleFlow | infeasible | noFlow | unknown
  deriving DecidableEq

/-- `xair_confidence`. -/
inductive Confidence where
  | exact | high | medium | low | unknown

/-- `xair_status`: the statuses that directed flow sets. -/
inductive FlowStatus where
  | ok | badArg | range

/-- `ResolvedFlowPoint`. -/
structure ResolvedFlowPoint where
  selector : FlowPointSelector
  function : FunctionId := cfgInvalidId
  node : NodeId := cfgInvalidId
  operation : OpId := invalidId
  values : List ValueId := []
  confidence : Confidence := .unknown
  message : Text := []

/-- `FlowInfluence`. -/
structure FlowInfluence where
  source : Nat
  target : Nat
  byteRange : Bool := false
  offsetBegin : Nat := 0
  offsetEnd : Nat := 0
  callDepth : Nat := 0
  transforms : List Text := []

/-- `FlowPathStep`. -/
structure FlowPathStep where
  node : NodeId
  address : Nat := 0
  edge : Text := []
  condition : Text := []

/-- `FlowWitness`. -/
structure FlowWitness where
  source : Nat
  byteValues : Bool := false
  scalar : Nat := 0
  offsetBegin : Nat := 0
  bytes : List Nat := []

/-- `DirectedFlowResult`.  The last field counts how often the token and the clock
have been looked at, which the source does not keep. -/
structure DirectedFlowResult where
  status : FlowStatus := .ok
  mode : FlowMode := .taint
  completion : FlowCompletion := .complete
  verdict : FlowVerdict := .unknown
  sources : List ResolvedFlowPoint := []
  targets : List ResolvedFlowPoint := []
  influences : List FlowInfluence := []
  path : List FlowPathStep := []
  constraints : List Text := []
  witnesses : List FlowWitness := []
  states : Nat := 0
  queries : Nat := 0
  paths : Nat := 0
  functionDepth : Nat := 3
  deepestCall : Nat := 0
  solverInitialized : Bool := false
  sourceConstrained : Bool := false
  diagnostic : Text := []
  polls : Nat := 0

/-- What the program finds each time it looks at the cancellation token and at the
clock: whether a cancellation is requested, and the milliseconds that have passed. -/
structure Watch where
  canceled : Nat → Bool
  elapsed : Nat → Nat

/-- `expired`. -/
def expired (o : FlowOptions) (elapsed : Nat) : Bool :=
  o.maxTimeMs != 0 && decide (o.maxTimeMs ≤ elapsed)

/-- `stopped`. -/
def stopped (w : Watch) (o : FlowOptions) (r : DirectedFlowResult) : Bool × DirectedFlowResult :=
  let r' := { r with polls := r.polls + 1 }
  if w.canceled r.polls then (true, { r' with completion := .canceled })
  else if expired o (w.elapsed r.polls) then (true, { r' with completion := .timeout })
  else if o.maxStates ≠ 0 ∧ o.maxStates ≤ r.states then
    (true, { r' with completion := .limited })
  else (false, r')

end Airece
