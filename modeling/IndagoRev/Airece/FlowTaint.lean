import IndagoRev.Airece.FlowPoints

/-!
# Taint propagation

The tags that `directed_flow` spreads over the values of a module: constants and stack
offsets, how a tag is added to those of a value, what one operation and the
arguments of one terminator pass on, and the loop that repeats this until nothing
changes or it is stopped.  The maps of the source are only looked up, so they are
functions here.
-/

namespace Airece

open StdText

variable (opcode : Opcode)

/-- The opcodes of additions. -/
def isAddition : Bool := opcode == .add || opcode == .addrAdd

/-- The opcodes of subtractions. -/
def isSubtraction : Bool := opcode == .sub || opcode == .addrSub

/-- The opcodes that keep a stack offset. -/
def keepsOffset : Bool :=
  opcode == .intToAddr || opcode == .addrToInt || opcode == .zext || opcode == .sext ||
    opcode == .trunc

/-- `constant_value`, with the values that are being looked at.  Every call but the
last adds a value that has a definition to them. -/
def constantValueFrom (m : XairModule) : Nat → List ValueId → ValueId → Option (BitVec 64)
  | 0, _, _ => none
  | n + 1, active, v =>
    if active.contains v then none
    else
      match m.definingOp v with
      | none => none
      | some (_, o) =>
        if (o.opcode = .constU64 ∨ o.opcode = .constWide) ∧ o.immediateHigh = 0 then
          some (BitVec.ofNat 64 o.immediateLow)
        else if isAddition o.opcode || isSubtraction o.opcode then
          match o.inputs with
          | [a, b] =>
            match constantValueFrom m n (v :: active) a,
                constantValueFrom m n (v :: active) b with
            | some lhs, some rhs =>
              some (if isSubtraction o.opcode then lhs - rhs else lhs + rhs)
            | _, _ => none
          | _ => none
        else none

variable (m : XairModule)

/-- `constant_value`. -/
def moduleConstant (v : ValueId) : Option (BitVec 64) :=
  constantValueFrom m (m.valueCount + 1) [] v

/-- An offset moved by the constant operand of an addition or a subtraction. -/
def movedOffset (base amount : BitVec 64) : BitVec 64 :=
  if isSubtraction opcode then base - amount else base + amount

/-- `stack_storage_offset`, with the calls that are left before its depth ends. -/
def stackStorageOffset (m : XairModule) : Nat → ValueId → Option (BitVec 64)
  | 0, _ => none
  | n + 1, v =>
    let name := lowerName m v
    if name = "rsp" ∨ name = "esp" ∨ name = "rbp" ∨
        name = "ebp" then some 0#64
    else
      match m.definingOp v with
      | none => none
      | some (_, o) =>
        if keepsOffset o.opcode then
          match o.inputs with
          | a :: _ => stackStorageOffset m n a
          | [] => none
        else if isAddition o.opcode || isSubtraction o.opcode then
          match o.inputs with
          | a :: b :: _ =>
            match moduleConstant m b, stackStorageOffset m n a with
            | some amount, some base => some (movedOffset o.opcode base amount)
            | _, _ => none
          | _ => none
        else none

/-- `StorageOffsets`. -/
abbrev StorageOffsets := ValueId → Option (BitVec 64)

variable (s : StorageOffsets × Bool)

/-- `StorageOffsets::emplace`, with whether it inserted. -/
def emplaceOffset (v : ValueId) (offset : BitVec 64) : StorageOffsets × Bool :=
  match s.1 v with
  | some _ => s
  | none => (Function.update s.1 v (some offset), true)

/-- An operation at its place, as `OperationRecord`. -/
structure OperationRecord where
  function : FunctionId
  node : NodeId
  operation : OpId

variable (cfg : Cfg)

/-- `collect_operations`. -/
def collectOperations (m : XairModule) : List OperationRecord :=
  (cfg.functionNodes.zipIdx).flatMap (fun (nodes, function) =>
    nodes.flatMap (fun node =>
      match cfg.block node with
      | some b => (m.blockOps b).map (fun operation => ⟨function, node, operation⟩)
      | none => []))

/-- The edges that `recover_storage_offsets` does not count as arrivals. -/
def EdgeKind.entersFunction (kind : EdgeKind) : Bool :=
  kind == .call || kind == .indirectCall || kind == .external

/-- The stack pointers that blocks without arrivals receive, at offset 0. -/
def entryStorageOffsets (m : XairModule) : StorageOffsets :=
  let arrivals := (cfg.edges.filter (fun e => !e.kind.entersFunction)).map CfgEdge.dst
  let parameters :=
    (cfg.nodeIds.filter (fun n => !arrivals.contains n)).flatMap
      (fun n => ((cfg.block n).map m.blockParams).getD [])
  parameters.foldl
    (fun offsets p =>
      if lowerName m p = "rsp" ∨ lowerName m p = "esp" then
        (emplaceOffset (offsets, false) p 0#64).1
      else offsets)
    (fun _ => none)

/-- The offset that an operation gives its results. -/
def recoveredOffset (offsets : StorageOffsets) (o : XairOp) : Option (BitVec 64) :=
  if keepsOffset o.opcode then
    match o.inputs with
    | a :: _ => offsets a
    | [] => none
  else if isAddition o.opcode || isSubtraction o.opcode then
    match o.inputs with
    | a :: b :: _ =>
      match offsets a, moduleConstant m b with
      | some base, some amount => some (movedOffset o.opcode base amount)
      | _, _ => none
    | _ => none
  else none

/-- One operation of a pass. -/
def offsetOperation (record : OperationRecord) : StorageOffsets × Bool :=
  match m.op record.operation with
  | none => s
  | some o =>
    match recoveredOffset m s.1 o with
    | some offset => o.results.foldl (fun s r => emplaceOffset s r offset) s
    | none => s

/-- The parameters that the terminators of a graph bind, with their arguments. -/
def blockArguments (m : XairModule) : List (ValueId × ValueId) :=
  cfg.nodeIds.flatMap (fun node =>
    match (cfg.block node).bind m.terminator with
    | some t => t.targets.flatMap (fun target => (m.blockParams target.1).zip target.2)
    | none => [])

/-- One block argument of a pass. -/
def offsetArgument (binding : ValueId × ValueId) : StorageOffsets × Bool :=
  match s.1 binding.2 with
  | some offset => emplaceOffset s binding.1 offset
  | none => s

/-- The passes, until one of them changes nothing. -/
def offsetPasses (cfg : Cfg) (m : XairModule) (operations : List OperationRecord) :
    Nat → StorageOffsets → StorageOffsets
  | 0, offsets => offsets
  | n + 1, offsets =>
    let pass :=
      (blockArguments cfg m).foldl offsetArgument
        (operations.foldl (offsetOperation m) (offsets, false))
    if pass.2 then offsetPasses cfg m operations n pass.1 else pass.1

/-- `recover_storage_offsets`. -/
def recoverStorageOffsets (m : XairModule) (operations : List OperationRecord) : StorageOffsets :=
  offsetPasses cfg m operations 32 (entryStorageOffsets cfg m)

/-- `resolved_storage_offset`. -/
def resolvedStorageOffset (offsets : StorageOffsets) (m : XairModule) (v : ValueId) :
    Option (BitVec 64) :=
  match offsets v with
  | some offset => some offset
  | none => stackStorageOffset m 16 v

/-- `Tag`. -/
structure Tag where
  source : Nat
  bytes : Bool := false
  pointer : Bool := false
  exactOffset : Bool := false
  start : Nat := 0
  stop : Nat := 0
  callDepth : Nat := 0
  storage : Bool := false
  storageExact : Bool := false
  storageOffset : BitVec 64 := 0#64
  transforms : List Text := []

/-- `Tags`. -/
abbrev Tags := ValueId → Option (List Tag)

/-- The tags of a value. -/
def Tags.of (tags : Tags) (v : ValueId) : List Tag := (tags v).getD []

/-- Two tags of a value that are kept as one. -/
def Tag.sameKey (a b : Tag) : Bool :=
  a.source == b.source && a.pointer == b.pointer && a.bytes == b.bytes &&
    a.storage == b.storage && a.storageExact == b.storageExact &&
    a.storageOffset == b.storageOffset

/-- A tag that an equal one is merged into. -/
def Tag.merge (existing incoming : Tag) : Tag :=
  let start := min existing.start incoming.start
  let stop := max existing.stop incoming.stop
  { existing with
    start := start
    stop := stop
    callDepth := min existing.callDepth incoming.callDepth
    exactOffset := existing.exactOffset && incoming.exactOffset && start == stop
    transforms :=
      if incoming.transforms.length < existing.transforms.length ∨ existing.transforms = [] then
        incoming.transforms
      else existing.transforms }

/-- Whether a merge counts as a change. -/
def Tag.mergeChanges (existing incoming : Tag) : Bool :=
  let merged := existing.merge incoming
  existing.start != merged.start || existing.stop != merged.stop ||
    existing.callDepth != merged.callDepth

/-- The loop of `add_tag` over the tags of a value: the tags with the merged one, and
whether the merge counts as a change. -/
def mergeTag (incoming : Tag) : List Tag → Option (List Tag × Bool)
  | [] => none
  | existing :: rest =>
    if existing.sameKey incoming then
      some (existing.merge incoming :: rest, existing.mergeChanges incoming)
    else (mergeTag incoming rest).map (fun merged => (existing :: merged.1, merged.2))

/-- The tags with the states that count them, and whether something has changed. -/
structure TaintState where
  tags : Tags
  states : Nat
  changed : Bool

variable (maxStates : Nat)

/-- `add_tag`.  Its result is added to what has changed. -/
def addTag (s : TaintState) (v : ValueId) (incoming : Tag) : TaintState :=
  if v = invalidId then s
  else
    match mergeTag incoming (s.tags.of v) with
    | some (merged, changed) =>
      { s with
        tags := Function.update s.tags v (some merged), changed := changed || s.changed }
    | none =>
      if maxStates ≠ 0 ∧ maxStates ≤ s.states then
        { s with tags := Function.update s.tags v (some (s.tags.of v)) }
      else
        { tags := Function.update s.tags v (some (s.tags.of v ++ [incoming]))
          states := s.states + 1
          changed := true }

/-- `append_transform`. -/
def Tag.appendTransform (t : Tag) (transform : Text) : Tag :=
  if 12 ≤ t.transforms.length ∨ t.transforms.getLast? = some transform then t
  else { t with transforms := t.transforms ++ [transform] }

/-- `direct_callee`. -/
def directCallee (s : FlowSession) (o : XairOp) : Option FunctionId :=
  if o.attributes.directTarget = 0 then none
  else
    (s.functionByAddress o.attributes.directTarget).filter
      (fun f => (s.functions[f]?).any (fun info => info.entry == o.attributes.directTarget))

/-- What the rules for one operation read besides the tags. -/
structure TaintContext where
  session : FlowSession
  module : XairModule
  options : FlowOptions
  sources : List ResolvedFlowPoint
  offsets : StorageOffsets

/-- Tags on their way, with the deepest call that one of them has come to, and whether
one was dropped at the bound of that depth, which the source does not note. -/
structure CallState where
  taint : TaintState
  deepest : Nat
  dropped : Bool := false

/-- One tag that crosses the border of a function: it is dropped at the bound. -/
def crossTag (o : FlowOptions) (transform : Text) (target : ValueId) (s : CallState) (t : Tag) :
    CallState :=
  if o.functionDepth ≤ t.callDepth then { s with dropped := true }
  else
    let crossed := { t with callDepth := t.callDepth + 1 }.appendTransform transform
    { s with
      taint := addTag o.maxStates s.taint target crossed
      deepest := max s.deepest crossed.callDepth }

/-- The tags of one value that cross over to another. -/
def crossValue (o : FlowOptions) (transform : Text) (s : CallState)
    (binding : ValueId × ValueId) : CallState :=
  (s.taint.tags.of binding.1).foldl (crossTag o transform binding.2) s

variable (c : TaintContext) (callee : FunctionId)

/-- The values that a direct call hands over: scalar inputs to arguments. -/
def directCallArguments (o : XairOp) : List (ValueId × ValueId) :=
  (o.inputs.filter (valueIsScalar c.module)).zip (functionArguments c.session callee)

/-- The values that a direct call hands back: returns to scalar results. -/
def directCallReturns (o : XairOp) : List (ValueId × ValueId) :=
  (functionReturns c.session callee).zip (o.results.filter (valueIsScalar c.module))

/-- `propagate_operation`, the calls of a function of the session. -/
def crossCall (o : XairOp) (s : CallState) : CallState :=
  (directCallReturns c callee o).foldl (crossValue c.options "call-return")
    ((directCallArguments c callee o).foldl (crossValue c.options "call-argument") s)

/-- A tag that is stored. -/
def Tag.stored (t : Tag) (offset : Option (BitVec 64)) : Tag :=
  { t with
    storage := true
    storageExact := offset.isSome
    storageOffset := offset.getD 0#64 }.appendTransform "store"

variable (o : XairOp)

/-- The resolved offset of the address of a load or a store. -/
def addressOffset : Option (BitVec 64) :=
  (o.inputs[1]?).bind (resolvedStorageOffset c.offsets c.module)

/-- `merged`: the tags of the inputs. -/
def mergedTags (tags : Tags) : List Tag :=
  o.inputs.zipIdx.flatMap (fun (input, index) =>
    if o.opcode = .store ∧ index = 1 then []
    else if o.opcode = .store ∧ index = 2 then
      (tags.of input).map (fun t => t.stored (addressOffset c o))
    else tags.of input)

/-- Whether a load leaves a tag out: what was stored at another offset. -/
def Tag.missedBy (t : Tag) (offset : Option (BitVec 64)) : Bool :=
  t.storage && t.storageExact && offset.any (fun o => t.storageOffset != o)

/-- Addition of sizes, which wraps around. -/
def sizeAdd (a b : Nat) : Nat := (a + b) % 2 ^ 64

/-- Subtraction of sizes, which wraps around. -/
def sizeSub (a b : Nat) : Nat := (a + (2 ^ 64 - b % 2 ^ 64)) % 2 ^ 64

/-- The bytes of a value with some bits, at least one. -/
def flowWidth (bits : Nat) : Nat := max 1 ((bits + 7) / 8)

variable (sources : List ResolvedFlowPoint)

/-- `source_length`. -/
def sourceLength (source : Nat) : Nat :=
  match sources[source]? with
  | some point => point.selector.length
  | none => 0

/-- The byte range of a tag that a load reads through a pointer. -/
def Tag.loadedRange (t : Tag) (length width : Nat) : Nat × Nat :=
  let last := sizeSub (sizeAdd t.start width) 1
  if t.exactOffset then
    (t.start, min (if length = 0 then last else length - 1) last)
  else (0, if length = 0 then width - 1 else length - 1)

/-- A tag that a load passes on. -/
def Tag.loaded (width : Nat) (t : Tag) : Tag :=
  if t.storage then { t with storage := false }.appendTransform "load"
  else if t.pointer && t.bytes then
    let requested := sourceLength c.sources t.source
    let length :=
      if c.options.maxTaintBytes = 0 then requested else min requested c.options.maxTaintBytes
    let range := t.loadedRange length width
    { t with
      pointer := false, start := range.1, stop := range.2 }.appendTransform "load"
  else t

/-- The constant by which an addition or a subtraction moves a pointer, and whether it
moves down. -/
def pointerDelta (tags : Tags) : Option (BitVec 64) × Bool :=
  match o.inputs with
  | [a, b] =>
    if (tags a).isSome then (moduleConstant c.module b, isSubtraction o.opcode)
    else if isAddition o.opcode then (moduleConstant c.module a, false)
    else (none, false)
  | _ => (none, false)

/-- A tag that an addition or a subtraction passes on. -/
def Tag.moved (delta : Option (BitVec 64) × Bool) (transform : Text) (t : Tag) : Tag :=
  if t.pointer && t.bytes then
    (match delta.1 with
      | none => { t with exactOffset := false }
      | some amount =>
        if delta.2 = true ∧ t.start < amount.toNat then
          { t with exactOffset := false, stop := t.start }
        else
          let start :=
            if delta.2 then sizeSub t.start amount.toNat else sizeAdd t.start amount.toNat
          { t with start := start, stop := start }).appendTransform transform
  else t

/-- The tags that an operation passes on to its results. -/
def outgoingTags (tags : Tags) : List Tag :=
  let merged := mergedTags c o tags
  if o.opcode = .load then
    let width :=
      match o.results with
      | [] => flowWidth 0
      | r :: _ => flowWidth (c.module.valueType r).bits
    (merged.filter (fun t => !t.missedBy (addressOffset c o))).map (Tag.loaded c width)
  else if (isAddition o.opcode || isSubtraction o.opcode) ∧ o.inputs.length = 2 then
    merged.map (Tag.moved (pointerDelta c o tags) (c.module.opcodeName o.opcode))
  else merged.map (fun t => t.appendTransform (c.module.opcodeName o.opcode))

/-- The results that tags are passed on to. -/
def taintedResults : List ValueId :=
  o.results.filter (valueIsPropagatable m)

/-- `propagate_operation`, from the merged tags on. -/
def passOn (s : TaintState) : TaintState :=
  let outgoing := outgoingTags c o s.tags
  (taintedResults c.module o).foldl
    (fun s r => outgoing.foldl (fun s t => addTag c.options.maxStates s r t) s) s

/-- `propagate_operation`.  A call of a function with returns is left before the tags of
its inputs are merged. -/
def propagateOperation (record : OperationRecord) (s : CallState) : CallState :=
  match c.module.op record.operation with
  | none => s
  | some o =>
    match if o.opcode = .call then directCallee c.session o else none with
    | some callee =>
      let crossed := crossCall c callee o s
      if functionReturns c.session callee = [] then
        { crossed with taint := passOn c o crossed.taint }
      else crossed
    | none => { s with taint := passOn c o s.taint }

/-- One block argument of `propagate_block_arguments`. -/
def propagateArgument (s : TaintState) (binding : ValueId × ValueId) : TaintState :=
  (s.tags.of binding.2).foldl
    (fun s t => addTag maxStates s binding.1 (t.appendTransform "phi")) s

/-- `propagate_block_arguments`. -/
def propagateBlockArguments (s : TaintState) : TaintState :=
  (blockArguments c.session.cfg c.module).foldl (propagateArgument c.options.maxStates) s

/-- The tag of a value that a source names. -/
def sourceTag (source : Nat) (point : ResolvedFlowPoint) : Tag :=
  let isBuffer := decide (point.selector.kind = .buffer)
  { source := source, bytes := isBuffer, pointer := isBuffer, exactOffset := isBuffer }

/-- The tags of the values that the sources name. -/
def seedSources (s : TaintState) : TaintState :=
  sources.zipIdx.foldl
    (fun s (point, source) =>
      if point.selector.kind = .memory then s
      else point.values.foldl (fun s v => addTag maxStates s v (sourceTag source point)) s)
    s

/-- The constant address of a load: that of its last scalar input that is one. -/
def constantAddress : Option (BitVec 64) :=
  (o.inputs.filter (valueIsScalar m)).foldl
    (fun address v => match moduleConstant m v with
      | some candidate => some candidate
      | none => address)
    none

/-- The tag of a result of a load at a constant address inside a source. -/
def memoryTag (source : Nat) (selector : FlowPointSelector) (address : Nat)
    (result : ValueId) : Tag :=
  let start := address - selector.memoryAddress
  { source := source
    bytes := true
    exactOffset := true
    start := start
    stop := min (sizeSub selector.length 1)
      (sizeSub (sizeAdd start (flowWidth (m.valueType result).bits)) 1)
    transforms := ["load"] }

/-- One operation of `seed_absolute_memory`. -/
def seedLoad (maxStates source : Nat) (selector : FlowPointSelector)
    (s : TaintState) (record : OperationRecord) : TaintState :=
  match m.op record.operation with
  | none => s
  | some o =>
    match if o.opcode = .load then constantAddress m o else none with
    | none => s
    | some address =>
      let last := selector.memoryAddress +
        min selector.length (2 ^ 64 - 1 - selector.memoryAddress)
      if address.toNat < selector.memoryAddress ∨ last ≤ address.toNat then s
      else
        (o.results.filter (valueIsScalar m)).foldl
          (fun s r =>
            addTag maxStates s r (memoryTag m source selector address.toNat r))
          s

/-- `seed_absolute_memory`. -/
def seedAbsoluteMemory (operations : List OperationRecord)
    (sources : List ResolvedFlowPoint) (s : TaintState) : TaintState :=
  sources.zipIdx.foldl
    (fun s (point, source) =>
      if point.selector.kind = .memory then
        operations.foldl (seedLoad m maxStates source point.selector) s
      else s)
    s

end Airece
