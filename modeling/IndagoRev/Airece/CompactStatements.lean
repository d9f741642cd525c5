import IndagoRev.Airece.CompactRecovery
import IndagoRev.Airece.CompactView
import IndagoRev.Airece.ControlRecovery

/-!
# The statements of a compact view

`build_uncached` goes through the blocks of a function in order and makes a statement of
every operation that shows something, adds the indirect jumps, puts all of them into
presentation order and cuts the list.  Calls are counted on the way, and those outside the
window of `call_offset` and `max_calls` are left out.  Names, expression texts and the
control view come from the modules before; the reasons a source record gives, the binary
image and the API models are data here.
-/

namespace Airece

open StdText

/-- `CompactOptions`. -/
structure CompactOptions where
  maxBytes : Nat := 4096
  maxStatements : Nat := 128
  maxExpressionDepth : Nat := 6
  maxCalls : Nat := 32
  maxEvidence : Nat := 64
  callOffset : Nat := 0
  maxRegions : Nat := 128
  maxTransfers : Nat := 512

/-- `SemanticEvidence`. -/
structure SemanticEvidence where
  stableId : Text := []
  start : Nat := 0
  stop : Nat := 0
  node : NodeId := cfgInvalidId
  block : BlockId := invalidId
  operations : List OpId := []
  edges : List EdgeId := []
  confidence : Confidence := .unknown
  synthetic : Bool := false

/-- `CompactFunctionDescriptor`. -/
structure CompactFunctionDescriptor where
  id : FunctionId := cfgInvalidId
  name : Text := []
  entry : Nat := 0
  rangeStart : Nat := 0
  rangeEnd : Nat := 0
  sessionComplete : Bool := false

/-- `SemanticCoverage`, with the fields that the text prints. -/
structure SemanticCoverage where
  exactPercent : Nat := 0
  partialBlocks : Nat := 0
  opaqueBlocks : Nat := 0
  exactInstructions : Nat := 0
  totalInstructions : Nat := 0
  unresolvedOperations : Nat := 0

/-- An `ApiModel`, with the texts that a call carries; `taint` is empty when the model has
no taint role. -/
structure ApiText where
  model : Text
  effects : Text := []
  taint : Text := []
  noReturn : Bool := false

/-- What `build_uncached` reads for one function. -/
structure CompactInput where
  function : CompactFunctionDescriptor
  values : CompactFunction
  cfg : ControlRecovery.ControlCfg
  parameters : List SignatureVariable := []
  returns : List SignatureVariable := []
  variablesTruncated : Bool := false
  /-- The coverage before the statements are made. -/
  coverage : SemanticCoverage := {}
  /-- What the source records of an operation say (`operation_evidence`). -/
  operationSource : OpId → NodeId → SemanticEvidence := fun _ _ => {}
  /-- What the source records of a terminator say (`terminator_evidence`). -/
  terminatorSource : NodeId → BlockId → SemanticEvidence := fun _ _ => {}
  nodeEnd : NodeId → Nat := fun _ => 0
  indirectConfidence : ControlRecovery.IndirectResolution → Confidence := fun _ => .unknown
  /-- The bits of `xair_op_attributes::effects`. -/
  effectBits : List Effect → Nat := fun _ => 0
  /-- `find_api_model`. -/
  apiModel : OpAttributes → Option ApiText := fun _ => none
  /-- Whether `xair_binary_view_find_segment` finds a segment. -/
  inSegment : Nat → Bool := fun _ => false
  /-- `string_at`. -/
  stringAt : Nat → Option Text := fun _ => none
  taintStatus : Text := "not-requested"

/-- `semantic_statement_kind_name`. -/
def SemanticStatementKind.name : SemanticStatementKind → Text
  | .call => "call"
  | .branch => "branch"
  | .returnValue => "return"
  | .memoryRead => "memory-read"
  | .memoryWrite => "memory-write"
  | .globalReference => "global"
  | .stringReference => "string"
  | .constant => "constant"
  | .importReference => "import"
  | .indirectTarget => "indirect-target"
  | .effect => "effect"
  | .unresolved => "unresolved"
  | .trap => "trap"
  | .fault => "fault"

/-- `semantic_locator`. -/
def semanticLocator (s : SemanticStatement) (e : SemanticEvidence) : Text :=
  match e.operations, e.edges with
  | operation :: _, _ => 'O' :: decimal operation
  | [], edge :: _ => 'G' :: decimal edge
  | [], [] => 'N' :: decimal e.node ++ ':' :: s.kind.name

/-- `is_unresolved_opcode`. -/
def isUnresolvedOpcode (opcode : Opcode) : Bool :=
  opcode == .unknown || opcode == .undef || opcode == .opaquePure || opcode == .opaqueEffect

/-- A statement with its evidence.  `call` is the `call_index` of a call. -/
structure Material where
  statement : SemanticStatement
  evidence : SemanticEvidence
  call : Option Nat := none

/-- `append_statement`. -/
def material (s : SemanticStatement) (e : SemanticEvidence) : Material :=
  { statement := { s with address := e.start, node := e.node }, evidence := e }

namespace CompactInput

variable (f : CompactInput) (options : CompactOptions)

/-- `view.control`. -/
def control : ControlRecovery.ControlView :=
  ControlRecovery.build f.cfg f.values.module
    { maxRegions := options.maxRegions, maxTransfers := options.maxTransfers } f.function.id

/-- `view.control.block_order`; a view that cannot be made ends before it is gone
through. -/
def blockOrder : List NodeId :=
  if (f.control options).status = .ok then (f.control options).blockOrder else []

/-- `result_text`. -/
def resultText (v : ValueId) : Text :=
  match f.values.names v with
  | some name => name
  | none => "tmp_v" ++ decimal v

/-- `value_text` at an operation or the terminator of a block. -/
def textAt (block : BlockId) (position : Nat) (v : ValueId) : Text :=
  f.values.valueText options.maxExpressionDepth ⟨block, position, v, f.values.names⟩

/-- The address of a block: that of the last node that has it. -/
def blockAddress (nodes : List NodeId) (block : BlockId) : Option Nat :=
  ((nodes.filter (fun n => f.cfg.block n == some block)).getLast?).map f.cfg.nodeStart

/-- `target_for`. -/
def targetFor (block : BlockId) : Text :=
  match f.blockAddress (f.blockOrder options) block,
      f.blockAddress (List.range f.cfg.nodes.length) block with
  | some address, _ => "label_" ++ hexDigits address
  | none, some address => "outside_function_0x" ++ hexDigits address
  | none, none => "unresolved_block_" ++ decimal block

/-- The callee of a call. -/
def calleeText (a : OpAttributes) : Text :=
  if a.importName ≠ [] then
    (if a.importModule ≠ [] then a.importModule ++ ['!'] else []) ++ a.importName
  else if a.directTarget ≠ 0 then "sub_" ++ hexDigits a.directTarget
  else "indirect_call"

/-- Texts with commas between them; no comma follows an empty beginning. -/
def joinArguments (texts : List Text) : Text :=
  texts.foldl (fun acc t => (if acc = [] then [] else acc ++ ", ".toList) ++ t) []

/-- What an API model adds to the text of a call. -/
def ApiText.suffix (api : ApiText) : Text :=
  " /* model=".toList ++ api.model ++
    (if api.effects = [] then [] else " effects=".toList ++ api.effects) ++
    (if api.taint = [] then [] else " taint=".toList ++ api.taint) ++ " */".toList

/-- The statement of a call. -/
def callStatement (block : BlockId) (position : Nat) (o : XairOp) : SemanticStatement :=
  let isMemory (v : ValueId) : Bool := (f.values.module.valueType v).kind == .mem
  let call := calleeText o.attributes ++ '(' :: joinArguments
    ((o.inputs.filter (fun v => !isMemory v)).map (f.textAt options block position)) ++ [')']
  let resultName := match o.results.find? (fun v => !isMemory v) with
    | some v => f.resultText v
    | none => []
  let api := f.apiModel o.attributes
  { kind := .call
    text := (if resultName = [] then call else resultName ++ " = ".toList ++ call) ++
      match api with
      | some api => ApiText.suffix api
      | none => []
    semanticId := o.attributes.semanticId
    noReturn := match api with
      | some api => api.noReturn
      | none => false
    node := cfgInvalidId }

/-- The statement of a constant, unless it is 0 or 1. -/
def constantStatement (o : XairOp) (result : ValueId) : Option SemanticStatement :=
  match f.values.constantValue result with
  | none => none
  | some constant =>
    if constant = 0 ∨ constant = 1 then none
    else
      let inSegment := f.inSegment constant.toNat
      let string := f.stringAt constant.toNat
      some
        { kind := if string.isSome then .stringReference
            else if inSegment then .globalReference else .constant
          text := f.resultText result ++ " = 0x" ++ hexDigits constant.toNat ++
            (if inSegment then " (global_" ++ hexDigits constant.toNat ++ [')']
              else []) ++
            match string with
            | some s => " \"" ++ s ++ ['"']
            | none => []
          semanticId := o.attributes.semanticId
          node := cfgInvalidId }

/-- The statement of an operation that is no call, no load and no store. -/
def otherStatement (id : OpId) (o : XairOp) : Option SemanticStatement :=
  let name := f.values.module.opcodeName o.opcode
  let semanticId := o.attributes.semanticId
  if isUnresolvedOpcode o.opcode then
    some
      { kind := .unresolved
        text := name ++ (if semanticId = [] then [] else '<' :: semanticId ++ ['>']) ++
          "(op" ++ decimal id ++ [')']
        semanticId, node := cfgInvalidId }
  else if o.opcode = .memoryBarrier ∨ o.opcode = .intrinsic ∨ o.attributes.effects ≠ [] then
    some
      { kind := .effect
        text := name ++ " effects=0x" ++ hexDigits (f.effectBits o.attributes.effects)
        semanticId, node := cfgInvalidId }
  else match o.opcode, o.results with
  | .constU64, result :: _ => f.constantStatement o result
  | _, _ => none

/-- The statement of an operation. -/
def operationStatement (block : BlockId) (position : Nat) (id : OpId) (o : XairOp) :
    Option SemanticStatement :=
  let bits (v : ValueId) : Text := decimal (f.values.module.valueType v).bits
  match o.opcode, o.inputs, o.results with
  | .call, _, _ => some (f.callStatement options block position o)
  | .load, _ :: address :: _, result :: _ =>
    some
      { kind := .memoryRead
        text := f.resultText result ++ " = load" ++ bits result ++
          '(' :: f.textAt options block position address ++ [')']
        semanticId := o.attributes.semanticId
        node := cfgInvalidId }
  | .store, _ :: address :: data :: _, _ =>
    some
      { kind := .memoryWrite
        text := "store" ++ bits data ++ '(' :: f.textAt options block position address ++
          ", " ++ f.textAt options block position data ++ [')']
        semanticId := o.attributes.semanticId
        node := cfgInvalidId }
  | _, _, _ => f.otherStatement id o

/-- The statement of an operation, with its evidence. -/
def operationMaterial (node : NodeId) (block : BlockId) (operation : OpId × Nat) :
    Option Material :=
  (f.values.module.op operation.1).bind (fun o =>
    (f.operationStatement options block operation.2 operation.1 o).map (fun s =>
      material s
        { f.operationSource operation.1 node with node, block, operations := [operation.1] }))

/-- The text of a terminator's value. -/
def terminatorText (block : BlockId) (t : Terminator) : Option Text :=
  (f.values.terminatorValue t).map (fun p =>
    f.values.valueText options.maxExpressionDepth
      ⟨block, (f.values.module.blockOps block).length, p.1, p.2⟩)

/-- The statement of a terminator. -/
def terminatorStatement (block : BlockId) (t : Terminator) : Option SemanticStatement :=
  match t.kind with
  | .cbranch =>
    some
      { kind := .branch
        text := "if " ++ (f.terminatorText options block t).getD [] ++ " -> " ++
          f.targetFor options t.trueTarget ++ " else " ++
          f.targetFor options t.falseTarget
        node := cfgInvalidId }
  | .jump =>
    some
      { kind := .branch
        text := (if (f.blockAddress (f.blockOrder options) t.trueTarget).isSome
          then "goto ".toList else "control leaves function -> ".toList) ++
          f.targetFor options t.trueTarget
        node := cfgInvalidId }
  | .ret =>
    some
      { kind := .returnValue
        text := "return".toList ++ match f.terminatorText options block t with
          | some text => ' ' :: text
          | none => []
        node := cfgInvalidId }
  | .trap =>
    some
      { kind := .trap, text := "trap(" ++ decimal t.code ++ [')'], node := cfgInvalidId }
  | .fault =>
    some
      { kind := .fault, text := "fault(" ++ decimal t.code ++ [')']
        node := cfgInvalidId }
  | .other => none

/-- The statement of a node that has no XAIR block. -/
def opaqueMaterial (node : NodeId) : Material :=
  material
    { kind := .unresolved
      text := "opaque CFG block at 0x" ++ hexDigits (f.cfg.nodeStart node)
      node := cfgInvalidId }
    { start := f.cfg.nodeStart node, stop := f.nodeEnd node, node, confidence := .low }

/-- The statements of one node, before any is left out. -/
def nodeMaterial (node : NodeId) : List Material :=
  match f.cfg.nodes[node]?, f.cfg.block node with
  | none, _ => []
  | some _, none => [f.opaqueMaterial node]
  | some _, some block =>
    (f.values.module.blockOps block).zipIdx.filterMap (f.operationMaterial options node block) ++
      (((f.values.module.terminator block).bind (f.terminatorStatement options block)).map
        (fun s => material s { f.terminatorSource node block with
          node, block, operations := [], edges := [] })).toList

/-- The record of an indirect jump of the function. -/
def indirectMaterial (indirect : ControlRecovery.IndirectResolution) : Option Material :=
  match f.cfg.indirectSource indirect with
  | none => none
  | some node =>
    if node ∈ f.blockOrder options then
      let unresolved := indirect.candidates.isEmpty
      let lead :=
        if indirect.isSwitch ∧ indirect.indexExpr ≠ invalidId then
          "switch " ++ f.textAt options invalidId 0 indirect.indexExpr ++
            " targets:"
        else if unresolved then "unresolved indirect target"
        else "possible indirect targets:"
      some (material
        { kind := if unresolved then .unresolved else .indirectTarget
          text := lead ++ (if unresolved then [] else ' ' :: List.intercalate ", "
            (indirect.candidates.map (fun c => "0x" ++ hexDigits c)))
          node := cfgInvalidId }
        { start := f.cfg.nodeStart node, stop := f.nodeEnd node, node
          edges := [indirect.edge], confidence := f.indirectConfidence indirect })
    else none

/-- `material` with `seen_calls` and the omitted calls. -/
structure Walk where
  material : List Material := []
  seenCalls : Nat := 0
  omittedCalls : Nat := 0

/-- Whether the call with an index is shown. -/
def showsCall (options : CompactOptions) (index : Nat) : Bool :=
  !(decide (index < options.callOffset) ||
    (options.maxCalls != 0 && decide (options.maxCalls ≤ index - options.callOffset)))

/-- One more statement: a call takes the next index, and is left out if it is outside the
window. -/
def Walk.add (options : CompactOptions) (w : Walk) (m : Material) : Walk :=
  if m.statement.kind = .call then
    if showsCall options w.seenCalls then
      { w with
        material := w.material ++ [{ m with call := some w.seenCalls }]
        seenCalls := w.seenCalls + 1 }
    else { w with seenCalls := w.seenCalls + 1, omittedCalls := w.omittedCalls + 1 }
  else { w with material := w.material ++ [m] }

/-- Everything that the walk over the block order comes upon. -/
def visited : List Material := (f.blockOrder options).flatMap (f.nodeMaterial options)

/-- The walk over the block order. -/
def walk : Walk := (f.visited options).foldl (Walk.add options) {}

/-- `material`, before it is put in order. -/
def gathered : List Material :=
  (f.walk options).material ++ f.cfg.indirects.filterMap (f.indirectMaterial options)

/-- `terminal_statement`. -/
def terminalStatement (kind : SemanticStatementKind) : Bool :=
  kind == .returnValue || kind == .trap || kind == .fault

/-- The place of a statement: its node's place in the order, and behind the others of its
node if it is terminal. -/
def place (m : Material) : Nat :=
  2 * (f.blockOrder options).idxOf m.statement.node +
    if terminalStatement m.statement.kind then 1 else 0

/-- `material` in presentation order. -/
def ordered : List Material :=
  (f.gathered options).insertionSort (fun a b => f.place options a ≤ f.place options b)

/-- `keep`. -/
def keep : Nat :=
  if options.maxStatements = 0 then (f.ordered options).length
  else min (f.ordered options).length options.maxStatements

/-- The statements that stay, and those that are cut. -/
def kept : List Material := (f.ordered options).take (f.keep options)
/-- The statements that are cut. -/
def cut : List Material := (f.ordered options).drop (f.keep options)

/-- The identity of a statement, and of its evidence while there is room for it. -/
def stamp (p : Material × Nat) : Material :=
  let lead := 'F' :: hexDigits f.function.entry
  let locator := semanticLocator p.1.statement p.1.evidence
  let evidenceId := lead ++ ":E:" ++ locator
  let s := { p.1.statement with stableId := lead ++ ":S:" ++ locator }
  if options.maxEvidence = 0 ∨ p.2 < options.maxEvidence then
    { p.1 with
      statement := { s with evidenceId }
      evidence := { p.1.evidence with stableId := evidenceId } }
  else { p.1 with statement := s }

/-- The statements of the view. -/
def stamped : List Material := (f.kept options).zipIdx.map (f.stamp options)

/-- `view.evidence`. -/
def evidence : List SemanticEvidence :=
  ((f.stamped options).take
    (if options.maxEvidence = 0 then (f.stamped options).length else options.maxEvidence)).map
    Material.evidence

/-- `view.omitted`. -/
def omitted : OmittedSemanticItems :=
  { calls := (f.walk options).omittedCalls +
      (f.cut options).countP (fun m => m.statement.kind == .call)
    branches := (f.cut options).countP (fun m => m.statement.kind == .branch)
    statements := (f.cut options).length
    evidence := (f.stamped options).length - (f.evidence options).length
    regions := (f.control options).omittedRegions
    transfers := (f.control options).omittedTransfers }

/-- `view.truncated`. -/
def truncated : Bool :=
  (f.control options).truncated || !(f.cut options).isEmpty || (f.omitted options).evidence != 0

/-- `view.complete`. -/
def complete : Bool :=
  f.function.sessionComplete && !f.variablesTruncated && !f.truncated options &&
    !(f.omitted options).any

/-- `view.coverage.unresolved_operations`. -/
def unresolvedOperations : Nat :=
  f.coverage.unresolvedOperations +
    (f.visited options).countP (fun m => m.statement.kind == .unresolved)

end CompactInput

end Airece
