import IndagoRev.Airece.FlowTaint

/-!
# Path search

`find_paths` looks breadth first for the ways through the graph from a source to a
target, with a stack of the calls that are open.  `directed_flow` makes one
search for each source and target, keeps the paths of those that influence one
another, and notes where a source decides a branch on the way.

A search is kept with what was left in its queue when it ended and with whether the
bound of the call depth left an edge out, and the pairs that are never searched are kept
too.  The source forgets all three.
-/

namespace Airece

open StdText

/-- `PathRecord`. -/
structure PathRecord where
  nodes : List NodeId
  edges : List EdgeId := []
  depth : Nat := 0

/-- `Item`: the end of a path in the queue. -/
structure SearchItem where
  node : NodeId
  returnStack : List NodeId := []
  path : PathRecord
  currentDepth : Nat := 0
  history : List Nat

/-- The options of one search. -/
structure SearchOptions where
  cfg : Cfg
  watch : Watch
  options : FlowOptions
  goal : NodeId
  pathLimit : Nat

/-- The state of one search: its queue, the paths found, how many items have been taken
from the queue, and whether an edge was left out because it nests too deep. -/
structure PathSearch where
  queue : List SearchItem
  found : List PathRecord := []
  searchStates : Nat := 0
  skipped : Bool := false
  result : DirectedFlowResult

/-- The edges into a function that nests one call deeper. -/
def EdgeKind.isCall (kind : EdgeKind) : Bool := kind == .call || kind == .indirectCall

variable (o : FlowOptions)

/-- Whether an edge is left out because it would nest too deep. -/
def tooDeep (item : SearchItem) (edge : CfgEdge) : Bool :=
  (edge.kind.isCall || edge.kind == .tailcall) && decide (o.functionDepth ≤ item.currentDepth)

/-- The end of a path after an edge, before its destination is looked at: the depth and
the open calls.  The second part is the destination. -/
def crossEdge (continuation : NodeId) (item : SearchItem) (edge : CfgEdge) : SearchItem × NodeId :=
  if edge.kind.isCall then
    let depth := item.currentDepth + 1
    ({ item with
        currentDepth := depth
        path := { item.path with depth := max item.path.depth depth }
        returnStack := item.returnStack ++ [continuation] }, edge.dst)
  else if edge.kind = .tailcall then
    let depth := item.currentDepth + 1
    ({ item with
        currentDepth := depth
        path := { item.path with depth := max item.path.depth depth } }, edge.dst)
  else if edge.kind = .ret then
    match item.returnStack.getLast? with
    | some destination =>
      ({ item with
          returnStack := item.returnStack.dropLast
          currentDepth := item.currentDepth - 1 }, destination)
    | none => (item, edge.dst)
  else (item, edge.dst)

variable (s : SearchOptions)

/-- The item that an edge adds to the queue. -/
def stepItem (continuation : NodeId) (item : SearchItem) (id : EdgeId)
    (edge : CfgEdge) : Option SearchItem :=
  if tooDeep s.options item edge then none
  else
    let (next, destination) := crossEdge continuation item edge
    if destination = cfgInvalidId ∨ s.cfg.nodes.length ≤ destination then none
    else
      -- 64 bits in the source: a key that wraps could only leave paths out.
      let key := next.currentDepth * s.cfg.nodes.length + destination
      if next.history.contains key then none
      else
        some
          { next with
            history := next.history ++ [key]
            node := destination
            path :=
              { next.path with
                nodes := next.path.nodes ++ [destination]
                edges := next.path.edges ++ [id] } }

/-- Where a call on a node returns to. -/
def continuationOf (edges : List CfgEdge) : NodeId :=
  match edges.find? (fun e => e.kind == .callReturn) with
  | some e => e.dst
  | none => cfgInvalidId

variable (item : SearchItem)

/-- The items that are added to the queue for an item. -/
def expandItem : List SearchItem :=
  match s.cfg.node item.node with
  | none => []
  | some n =>
    let edges := s.cfg.nodeEdges n
    edges.zipIdx.filterMap (fun (edge, index) =>
      stepItem s (continuationOf edges) item (n.edgeOffset + index) edge)

/-- Whether the bound of the call depth leaves out an edge of an item. -/
def skipsEdge : Bool :=
  match s.cfg.node item.node with
  | none => false
  | some n => (s.cfg.nodeEdges n).any (tooDeep s.options item)

/-- The loop of `find_paths`. -/
def searchLoop (s : SearchOptions) : Nat → PathSearch → Option PathSearch
  | 0, _ => none
  | n + 1, p =>
    match p.queue with
    | [] => some p
    | item :: rest =>
      let polled := { p.result with polls := p.result.polls + 1 }
      if s.watch.canceled p.result.polls ||
          expired s.options (s.watch.elapsed p.result.polls) then
        some { p with result := polled }
      else if s.options.maxStates ≠ 0 ∧ s.options.maxStates ≤ p.searchStates then
        some
          { p with
            result :=
              if polled.completion = .complete then { polled with completion := .limited }
              else polled }
      else if item.node = s.goal then
        let next : PathSearch :=
          { p with
            queue := rest, found := p.found ++ [item.path]
            searchStates := p.searchStates + 1, result := polled }
        if s.pathLimit ≤ next.found.length then some next else searchLoop s n next
      else
        searchLoop s n
          { p with
            queue := rest ++ expandItem s item
            searchStates := p.searchStates + 1
            skipped := p.skipped || skipsEdge s item
            result := polled }

/-- `find_paths`. -/
def findPaths (fuel : Nat) (start : NodeId) (r : DirectedFlowResult) : Option PathSearch :=
  if start = cfgInvalidId ∨ s.goal = cfgInvalidId ∨ s.cfg.nodes = [] then
    some { queue := [], result := r }
  else
    (searchLoop s fuel
      { queue := [{ node := start, path := { nodes := [start] }, history := [start] }]
        result := r }).map
      (fun p =>
        { p with
          result :=
            { p.result with
              deepestCall :=
                p.found.foldl (fun deepest path => max deepest path.depth)
                  p.result.deepestCall } })

/-- `tag_for_source`. -/
def tagForSource (tags : Tags) (v : ValueId) (source : Nat) : Bool :=
  (tags.of v).any (fun t => t.source == source)

/-- `CandidatePath`. -/
structure CandidatePath where
  path : PathRecord
  source : Nat
  target : Nat

/-- One search: the paths that it found, what was left in its queue, and whether an edge
was left out. -/
structure PairSearch where
  source : Nat
  target : Nat
  found : List PathRecord
  rest : List SearchItem
  skipped : Bool := false

/-- The state of the loops over sources and targets. -/
structure Searches where
  result : DirectedFlowResult
  candidates : List CandidatePath := []
  made : List PairSearch := []
  left : List (Nat × Nat) := []

/-- The path limit of a query. -/
def FlowOptions.pathLimit : Nat :=
  if o.maxPaths = 0 then max 1 o.maxStates else o.maxPaths

/-- Whether a branch of a path depends on a source. -/
def controlsPath (cfg : Cfg) (tags : Tags) (source : Nat) (path : PathRecord) : Bool :=
  path.edges.any (fun id =>
    (cfg.edge id).any (fun e =>
      e.condition != invalidId && tagForSource tags e.condition source))

/-- Whether an influence is one between a source and a target. -/
def FlowInfluence.between (i : FlowInfluence) (source target : Nat) : Bool :=
  i.source == source && i.target == target

/-- The name of the transform that an influence by a branch carries. -/
def controlDependency : Text := "control-dependency"

/-- The influences with the one that a path to a reached point shows. -/
def addControlInfluence (cfg : Cfg) (o : FlowOptions) (tags : Tags) (source target : Nat)
    (path : PathRecord) (r : DirectedFlowResult) : DirectedFlowResult :=
  let isReach := (r.targets[target]?).any (fun t => t.selector.kind == .reach)
  if isReach = true ∧ o.mode ≠ .symbolic ∧ controlsPath cfg tags source path = true then
    if r.influences.any (fun i =>
        i.between source target && i.transforms.contains controlDependency) then r
    else
      { r with
        influences :=
          r.influences ++
            [{ source := source, target := target, callDepth := path.depth
               transforms := [controlDependency] }] }
  else r

/-- The loop over the paths of one search. -/
def considerPaths (cfg : Cfg) (o : FlowOptions) (tags : Tags) (source target : Nat) :
    List PathRecord → Searches → Searches
  | [], s => s
  | path :: rest, s =>
    let r := addControlInfluence cfg o tags source target path s.result
    if o.mode = .symbolic ∨ r.influences.any (fun i => i.between source target) = true then
      let next := { s with result := r, candidates := s.candidates ++ [⟨path, source, target⟩] }
      if o.pathLimit ≤ next.candidates.length then next
      else considerPaths cfg o tags source target rest next
    else considerPaths cfg o tags source target rest { s with result := r }

/-- The node of a resolved point. -/
def pointNode (points : List ResolvedFlowPoint) (index : Nat) : NodeId :=
  match points[index]? with
  | some point => point.node
  | none => cfgInvalidId

/-- The loops over sources and targets. -/
def searchPairs (cfg : Cfg) (w : Watch) (o : FlowOptions) (tags : Tags) (fuel : Nat) :
    List (Nat × Nat) → Searches → Option Searches
  | [], s => some s
  | (source, target) :: rest, s =>
    if o.pathLimit ≤ s.candidates.length then some { s with left := (source, target) :: rest }
    else
      let options : SearchOptions :=
        { cfg := cfg, watch := w, options := o, goal := pointNode s.result.targets target
          pathLimit := o.pathLimit - s.candidates.length }
      match findPaths options fuel (pointNode s.result.sources source) s.result with
      | none => none
      | some p =>
        searchPairs cfg w o tags fuel rest
          (considerPaths cfg o tags source target p.found
            { s with
              result := p.result, made := s.made ++ [⟨source, target, p.found, p.queue, p.skipped⟩] })

/-- The pairs of sources and targets, in the order of the loops. -/
def flowPairs (r : DirectedFlowResult) : List (Nat × Nat) :=
  (List.range r.sources.length).flatMap
    (fun source => (List.range r.targets.length).map (fun target => (source, target)))

end Airece
