import IndagoRev.Airece.LoopInduction

/-!
# Control recovery

`ControlRecovery` puts the blocks of a function in order, groups them into regions in
four passes (loops, branches and switches, straight sequences, and what is left) and
classifies every edge.  The graph and its analysis come from XAIR; evidence, which only
describes where a region comes from, is not part of the model.
-/

namespace Airece.ControlRecovery

open StdText

/-- `xair_cfg_node`. -/
structure ControlNode where
  start : Nat := 0
  irBlock : BlockId := invalidId
  edgeOffset : EdgeId := 0
  edgeCount : Nat := 0

/-- `xair_indirect_resolution`, with its candidates.  `isUnsafe` stands for the flags of
truncated, budget-limited and invalid reads. -/
structure IndirectResolution where
  isSwitch : Bool := false
  edge : EdgeId := cfgInvalidId
  candidates : List Nat := []
  hasDefault : Bool := false
  defaultTarget : Nat := 0
  indexExpr : ValueId := invalidId
  lowerBound : Int := 0
  upperBound : Int := 0
  isUnsafe : Bool := false

/-- `xair_cfg_function_analysis`. -/
structure FunctionAnalysis where
  reversePostorder : List NodeId := []
  backEdges : List (NodeId × NodeId) := []
  loops : List LoopRecord := []
  isIrreducible : Bool := false
  immediatePostdominator : NodeId → NodeId := fun _ => cfgInvalidId

/-- `xair_function`, with its nodes. -/
structure ControlFunction where
  entry : Nat
  nodes : List NodeId

/-- `xair_cfg`, with `xair_cfg_analyze_function_ex`. -/
structure ControlCfg where
  nodes : List ControlNode
  edges : List ControlEdge
  functions : List ControlFunction
  indirects : List IndirectResolution := []
  /-- `xair_cfg_find_node_start`. -/
  findNodeStart : Nat → NodeId := fun _ => cfgInvalidId
  /-- `xair_cfg_analyze_function_ex`. -/
  analysis : FunctionId → Option FunctionAnalysis := fun _ => none

/-- `is_call_edge`. -/
def isCallEdge (kind : EdgeKind) : Bool :=
  kind == .call || kind == .indirectCall || kind == .external || kind == .tailcall

/-- `is_conditional_edge`. -/
def isConditionalEdge (kind : EdgeKind) : Bool :=
  kind == .cbranchTrue || kind == .cbranchFalse

namespace ControlCfg

variable (cfg : ControlCfg) (id : NodeId)

/-- The block of a node that has one. -/
def block : Option BlockId :=
  (cfg.nodes[id]?).bind (fun n => if n.irBlock = invalidId then none else some n.irBlock)

/-- The edges in the slots of a node. -/
def nodeEdges : List EdgeRecord :=
  match cfg.nodes[id]? with
  | none => []
  | some n =>
    (List.range n.edgeCount).filterMap (fun i =>
      (cfg.edges[n.edgeOffset + i]?).map (fun e => ⟨n.edgeOffset + i, e⟩))

variable (indirect : IndirectResolution)

/-- The source of the edge of an indirect jump. -/
def indirectSource : Option NodeId :=
  if indirect.edge = cfgInvalidId then none
  else (cfg.edges[indirect.edge]?).map ControlEdge.src

/-- The targets of a resolved switch that are nodes. -/
def switchTargets : List NodeId :=
  ((indirect.candidates ++ if indirect.hasDefault then [indirect.defaultTarget] else []).map
    cfg.findNodeStart).filter (· != cfgInvalidId)

/-- The nodes with the targets of one more indirect jump. -/
def addTargets (nodeSet : List NodeId) (indirect : IndirectResolution) : List NodeId :=
  if indirect.isSwitch then
    match (cfg.edges[indirect.edge]?).map ControlEdge.src with
    | some src => if src ∈ nodeSet then cfg.switchTargets indirect ∪ nodeSet else nodeSet
    | none => nodeSet
  else nodeSet

variable (function : ControlFunction)

/-- `node_set`: the nodes of a function and the targets of its switches. -/
def nodeSet : List NodeId :=
  cfg.indirects.foldl cfg.addTargets function.nodes.dedup

/-- The address of a node. -/
def nodeStart : Nat := ((cfg.nodes[id]?).map ControlNode.start).getD 0

/-- `remaining`: the nodes by address. -/
def remaining (nodeSet : List NodeId) : List NodeId :=
  nodeSet.insertionSort (fun left right =>
    cfg.nodeStart left < cfg.nodeStart right ∨
      (cfg.nodeStart left = cfg.nodeStart right ∧ left ≤ right))

/-- `block_order`. -/
def blockOrder (nodeSet : List NodeId) (analysis : Option FunctionAnalysis) : List NodeId :=
  let ordered := ((analysis.map FunctionAnalysis.reversePostorder).getD []).filter (· ∈ nodeSet)
  (cfg.remaining nodeSet).foldl
    (fun order node => if node ∈ order then order else order ++ [node]) ordered

/-- The last node of a function at its entry. -/
def entryNode (order : List NodeId) : NodeId :=
  match (function.nodes.filter (fun id => decide (id < cfg.nodes.length) &&
      cfg.nodeStart id == function.entry)).getLast? with
  | some id => id
  | none => order.headD cfgInvalidId

/-- `outgoing`. -/
def outgoing (nodeSet : List NodeId) (id : NodeId) : List EdgeRecord :=
  if id ∈ nodeSet then (cfg.nodeEdges id).filter (fun e => !isCallEdge e.edge.kind) else []

/-- `transfer_edges`. -/
def transferEdges (nodeSet : List NodeId) : List EdgeRecord :=
  (cfg.remaining nodeSet).flatMap cfg.nodeEdges

/-- `edges`. -/
def flowEdges (nodeSet : List NodeId) : List EdgeRecord :=
  (cfg.transferEdges nodeSet).filter (fun e => !isCallEdge e.edge.kind)

/-- `incoming`. -/
def incoming (nodeSet : List NodeId) (id : NodeId) : Nat :=
  (cfg.flowEdges nodeSet).countP (fun e => e.edge.dst == id)

/-- `switch_sources`: the first indirect jump that makes a node a switch. -/
def switchSource (nodeSet : List NodeId) (id : NodeId) : Option IndirectResolution :=
  cfg.indirects.find? (fun indirect =>
    cfg.indirectSource indirect == some id && decide (id ∈ nodeSet) &&
      (indirect.isSwitch || decide (3 ≤ indirect.candidates.length)))

/-- `terminal_node`. -/
def terminalNode (m : XairModule) (id : NodeId) : Bool :=
  (match (cfg.block id).bind m.terminator with
    | some t => t.kind == .ret || t.kind == .trap || t.kind == .fault
    | none => false) ||
  (cfg.nodeEdges id).any (fun e => e.edge.kind == .ret)

end ControlCfg

/-- `ControlRegion`. -/
structure ControlRegion where
  stableId : Text := []
  kind : ControlRegionKind := .block
  header : NodeId := cfgInvalidId
  join : NodeId := cfgInvalidId
  conditionNode : NodeId := cfgInvalidId
  condition : ValueId := invalidId
  nodes : List NodeId := []
  switchCases : List ControlSwitchCase := []
  switchDefault : NodeId := cfgInvalidId
  switchDefaultRaw : Nat := 0
  switchMappingComplete : Bool := false
  switchValuesComplete : Bool := false
  induction : ControlInduction := {}

/-- `ControlTransfer`. -/
structure ControlTransfer where
  edge : EdgeId := cfgInvalidId
  kind : ControlTransferKind := .unresolved
  source : NodeId := cfgInvalidId
  target : NodeId := cfgInvalidId
  condition : ValueId := invalidId
  rawTarget : Nat := 0
  conditional : Bool := false
  conditionWhenTrue : Bool := false
  explicitGoto : Bool := false

/-- `ControlOptions`, without the depth that only expressions read. -/
structure ControlOptions where
  maxRegions : Nat := 256
  maxTransfers : Nat := 1024

/-- The statuses of a view. -/
inductive ViewStatus where
  | ok | badArgument | incomplete
  deriving DecidableEq

/-- `ControlView`. -/
structure ControlView where
  status : ViewStatus := .ok
  function : FunctionId := cfgInvalidId
  entry : NodeId := cfgInvalidId
  blockOrder : List NodeId := []
  regions : List ControlRegion := []
  transfers : List ControlTransfer := []
  irreducible : Bool := false
  fallback : Bool := false
  truncated : Bool := false
  omittedRegions : Nat := 0
  omittedTransfers : Nat := 0

/-- A view in the making, and the blocks that `covered` holds. -/
structure Building where
  view : ControlView
  covered : List NodeId := []

variable (options : ControlOptions)

/-- `add_region`. -/
def addRegion (view : ControlView) (region : ControlRegion) : ControlView :=
  if options.maxRegions ≠ 0 ∧ options.maxRegions ≤ view.regions.length then
    { view with
      omittedRegions := view.omittedRegions + 1, truncated := true, fallback := true }
  else
    { view with regions := view.regions ++
        [{ region with stableId := 'R' :: decimal (view.regions.length + 1) }] }

/-- A region, and the blocks that it covers. -/
def Building.add (s : Building) (region : ControlRegion) : Building :=
  { view := addRegion options s.view region, covered := s.covered ++ region.nodes }

section

variable (cfg : ControlCfg) (m : XairModule) (options : ControlOptions) (nodeSet : List NodeId)
  (analysis : Option FunctionAnalysis)

/-- `back_edges`: the pairs of the analysis in the order of a set. -/
def backEdgesOf : List (NodeId × NodeId) :=
  (((analysis.map FunctionAnalysis.backEdges).getD []).dedup).insertionSort
    (fun left right => left.1 < right.1 ∨ (left.1 = right.1 ∧ left.2 ≤ right.2))

/-- `loops`. -/
def loopsOf : List LoopRecord := (analysis.map FunctionAnalysis.loops).getD []

variable (loop : LoopRecord)

/-- What the edges out of the header say about the region of a loop, and whether one
leaves the loop. -/
def headerExit (region : ControlRegion) : ControlRegion × Bool :=
  (cfg.outgoing nodeSet loop.header).foldl
    (fun s e =>
      if isConditionalEdge e.edge.kind && !loop.members.contains e.edge.dst then
        ({ s.1 with condition := e.edge.condition, join := e.edge.dst }, true)
      else s)
    (region, false)

/-- The last edge that leaves the loop from a latch. -/
def latchJoin (edges : List EdgeRecord) (join : NodeId) : NodeId :=
  edges.foldl
    (fun join e =>
      if e.edge.dst ≠ loop.header ∧ ¬ loop.members.contains e.edge.dst then e.edge.dst else join)
    join

/-- What the conditional edges of the latches say about the region of a loop, and whether
there is one. -/
def latchCondition (region : ControlRegion) : ControlRegion × Bool :=
  ((backEdgesOf analysis).filter (fun e => e.2 == loop.header && e.1 != loop.header)).foldl
    (fun s back =>
      (cfg.outgoing nodeSet back.1).foldl
        (fun s e =>
          if isConditionalEdge e.edge.kind then
            ({ s.1 with
                condition := e.edge.condition
                conditionNode := back.1
                join := latchJoin loop (cfg.outgoing nodeSet back.1) s.1.join }, true)
          else s)
        s)
    (region, false)

/-- The kind of the region of a loop. -/
def loopKind (header latch : Bool) : ControlRegionKind :=
  if loop.irreducible then .irreducible
  else if header then .whileLoop
  else if latch then .doWhileLoop
  else .whileLoop

/-- The region of a loop. -/
def loopRegion : ControlRegion :=
  let members := (loop.members.dedup).insertionSort (· ≤ ·)
  let header := headerExit cfg nodeSet loop
    { header := loop.header, conditionNode := loop.header, nodes := members }
  let latch := latchCondition cfg nodeSet analysis loop header.1
  { latch.1 with
    kind := loopKind loop header.2 latch.2
    induction := recoverInduction m cfg.block (backEdgesOf analysis) (cfg.flowEdges nodeSet) loop
      latch.1.condition }

/-- The pass over the loops. -/
def loopPass (s : Building) : Building :=
  (loopsOf analysis).foldl (fun s loop => s.add options (loopRegion cfg m nodeSet analysis loop)) s

/-- The cases of a switch. -/
def switchCasesOf (indirect : IndirectResolution) : List ControlSwitchCase :=
  indirect.candidates.zipIdx.map (fun c =>
    { value := indirect.lowerBound + c.2, target := cfg.findNodeStart c.1, rawTarget := c.1 })

/-- Whether the values of a switch are those between its bounds. -/
def valuesComplete (indirect : IndirectResolution) : Bool :=
  indirect.isSwitch && !indirect.candidates.isEmpty &&
    decide (indirect.lowerBound ≤ indirect.upperBound) &&
    decide (indirect.upperBound - indirect.lowerBound + 1 = indirect.candidates.length)

/-- The region of a switch. -/
def switchRegion (node : NodeId) : ControlRegion :=
  let region : ControlRegion :=
    { kind := .switchRegion, header := node, conditionNode := node, nodes := [node] }
  match cfg.switchSource nodeSet node with
  | none => region
  | some indirect =>
    { region with
      condition := indirect.indexExpr
      join := match analysis with
        | some a => a.immediatePostdominator node
        | none => cfgInvalidId
      switchCases := switchCasesOf cfg indirect
      switchDefault :=
        if indirect.hasDefault then cfg.findNodeStart indirect.defaultTarget else cfgInvalidId
      switchDefaultRaw := if indirect.hasDefault then indirect.defaultTarget else 0
      switchValuesComplete := valuesComplete indirect
      switchMappingComplete := valuesComplete indirect && !indirect.isUnsafe &&
        (switchCasesOf cfg indirect).all (fun c => nodeSet.contains c.target) &&
        (!indirect.hasDefault || nodeSet.contains (cfg.findNodeStart indirect.defaultTarget)) }

/-- The region of a branch. -/
def branchRegion (node : NodeId) (first second : EdgeRecord) : ControlRegion :=
  let region : ControlRegion :=
    { header := node, conditionNode := node, condition := first.edge.condition, nodes := [node] }
  if cfg.terminalNode m first.edge.dst != cfg.terminalNode m second.edge.dst then
    { region with kind := .earlyReturn }
  else
    match analysis with
    | some a =>
      let join := a.immediatePostdominator node
      { region with
        join
        kind := if join ≠ cfgInvalidId ∧ join ≠ node then .ifElse else .terminalIf }
    | none => { region with kind := .terminalIf }

/-- The pass over branches and switches, at one block. -/
def branchAt (s : Building) (node : NodeId) : Building :=
  let out := cfg.outgoing nodeSet node
  if out.isEmpty then s
  else if 3 ≤ out.length ∨ (cfg.switchSource nodeSet node).isSome then
    s.add options (switchRegion cfg nodeSet analysis node)
  else
    match out.filter (fun e => isConditionalEdge e.edge.kind) with
    | [first, second] =>
      if first.edge.dst = second.edge.dst ∨
          (loopsOf analysis).any (fun loop => loop.header == node) then s
      else s.add options (branchRegion cfg m analysis node first second)
    | _ => s

/-- Whether a block goes on to the next one and to nothing else, and nothing else comes
there. -/
def linked (covered : List NodeId) (current next : NodeId) : Bool :=
  match cfg.outgoing nodeSet current with
  | [e] => e.edge.dst == next && cfg.incoming nodeSet next == 1 &&
      !(backEdgesOf analysis).contains (current, next) && !covered.contains current
  | _ => false

/-- The blocks that follow a block in its sequence, and those behind it. -/
def sequenceFrom (covered : List NodeId) : NodeId → List NodeId → List NodeId × List NodeId
  | _, [] => ([], [])
  | current, next :: rest =>
    if linked cfg nodeSet analysis covered current next then
      let found := sequenceFrom covered next rest
      (next :: found.1, found.2)
    else ([], next :: rest)

/-- The pass over straight sequences, with as many rounds as there are blocks. -/
def sequencePass : Nat → Building → List NodeId → Building
  | 0, s, _ => s
  | _, s, [] => s
  | n + 1, s, node :: rest =>
    let found := sequenceFrom cfg nodeSet analysis s.covered node rest
    if found.1.isEmpty then sequencePass n s found.2
    else
      sequencePass n
        (s.add options { kind := .sequence, header := node, nodes := node :: found.1 }) found.2

/-- What is left. -/
def leftoverAt (covered : List NodeId) (view : ControlView) (node : NodeId) : ControlView :=
  if node ∈ covered then view
  else addRegion options view { kind := .sequence, header := node, nodes := [node] }

/-- The kind of an edge. -/
def transferKind (e : EdgeRecord) : ControlTransferKind :=
  if isCallEdge e.edge.kind then .callTarget
  else if e.edge.kind = .ret then .returnFromFunction
  else if (backEdgesOf analysis).contains (e.edge.src, e.edge.dst) then .continueLoop
  else if (loopsOf analysis).any (fun loop =>
      loop.members.contains e.edge.src && !loop.members.contains e.edge.dst) then .breakLoop
  else
    match e.edge.kind with
    | .cbranchTrue => .branchTrue
    | .cbranchFalse => .branchFalse
    | .fallthrough | .callReturn => .fallthrough
    | .indirectJump => .switchCase
    | .unresolved | .exception => .unresolved
    | _ => .gotoLabel

/-- One edge. -/
def transferAt (view : ControlView) (e : EdgeRecord) : ControlView :=
  if options.maxTransfers ≠ 0 ∧ options.maxTransfers ≤ view.transfers.length then
    { view with
      omittedTransfers := view.omittedTransfers + 1, truncated := true, fallback := true }
  else
    { view with transfers := view.transfers ++
        [{ edge := e.id
           kind := transferKind analysis e
           source := e.edge.src
           target := e.edge.dst
           condition := e.edge.condition
           rawTarget := e.edge.rawTarget
           conditional := isConditionalEdge e.edge.kind
           conditionWhenTrue := e.edge.kind == .cbranchTrue
           explicitGoto := view.irreducible || transferKind analysis e == .gotoLabel ||
             transferKind analysis e == .unresolved }] }

/-- The view before its regions. -/
def startView (function : FunctionId) (f : ControlFunction) : ControlView :=
  let order := cfg.blockOrder nodeSet analysis
  let ordered := ((analysis.map FunctionAnalysis.reversePostorder).getD []).filter (· ∈ nodeSet)
  { function
    entry := cfg.entryNode f order
    blockOrder := order
    irreducible := (analysis.map FunctionAnalysis.isIrreducible).getD false
    fallback := analysis.isNone || decide (ordered.length < order.length) }

/-- The view with its regions. -/
def regionView (start : ControlView) : ControlView :=
  let order := start.blockOrder
  let s := loopPass cfg m options nodeSet analysis { view := start }
  let s := order.foldl (branchAt cfg m options nodeSet analysis) s
  let s := sequencePass cfg options nodeSet analysis order.length s order
  let view :=
    if s.view.irreducible then
      { addRegion options s.view
          { kind := .irreducible, header := s.view.entry, nodes := order } with fallback := true }
    else s.view
  order.foldl (leftoverAt options s.covered) view

end

/-- `ControlRecovery::build`. -/
def build (cfg : ControlCfg) (m : XairModule) (options : ControlOptions) (function : FunctionId) :
    ControlView :=
  match cfg.functions[function]? with
  | none => { function, status := .badArgument }
  | some f =>
    if f.nodes.isEmpty then { function, status := .incomplete }
    else
      let nodeSet := cfg.nodeSet f
      let analysis := cfg.analysis function
      let view := regionView cfg m options nodeSet analysis
        (startView cfg nodeSet analysis function f)
      (cfg.transferEdges nodeSet).foldl (transferAt options analysis) view

end Airece.ControlRecovery
