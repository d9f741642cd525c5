import IndagoRev.Airece.FlowSession

/-!
# Flow points

How a selector finds the node, the operation and the values that it names.
-/

namespace Airece

open StdText

variable (t : Text)

/-- `lower`. -/
def lower : Text := t.map Char.toLower

/-- `std::isspace`. -/
def isSpace (c : Char) : Bool :=
  c == ' ' || c == '\t' || c == '\n' || c == '\r' || c.toNat == 11 || c.toNat == 12

/-- `trim`. -/
def trim : Text :=
  ((t.dropWhile isSpace).reverse.dropWhile isSpace).reverse

/-- The value of a digit, as `std::from_chars` reads it. -/
def digitValue (c : Char) : Option Nat :=
  if '0' ≤ c ∧ c ≤ '9' then some (c.toNat - '0'.toNat)
  else if 'a' ≤ c ∧ c ≤ 'z' then some (c.toNat - 'a'.toNat + 10)
  else if 'A' ≤ c ∧ c ≤ 'Z' then some (c.toNat - 'A'.toNat + 10)
  else none

/-- The digits of a number in some base, after those already read. -/
def parseDigits (base : Nat) : Nat → Text → Option Nat
  | n, [] => some n
  | n, c :: rest =>
    match digitValue c with
    | some d => if d < base then parseDigits base (base * n + d) rest else none
    | none => none

/-- `parse_number`. -/
def parseNumber : Option Nat :=
  let hex := decide (2 < t.length) && (startsWith "0x" t || startsWith "0X" t)
  let digits := if hex then t.drop 2 else t
  if digits = [] then none
  else (parseDigits (if hex then 16 else 10) 0 digits).filter (fun n => decide (n < 2 ^ 64))

/-- The registers that a part of a wider register belongs to. -/
def registerFamilies : List (List Text × Text) :=
  [(["eax", "ax", "al", "ah"], "rax"), (["ebx", "bx", "bl", "bh"], "rbx"),
   (["ecx", "cx", "cl", "ch"], "rcx"),
   (["edx", "dx", "dl", "dh"], "rdx"),
   (["esi", "si", "sil"], "rsi"),
   (["edi", "di", "dil"], "rdi"),
   (["ebp", "bp", "bpl"], "rbp"),
   (["esp", "sp", "spl"], "rsp")]

/-- `normalized_register`. -/
def normalizedRegister (name : Text) : Text :=
  let value := lower (trim name)
  match registerFamilies.find? (fun family => family.1.contains value) with
  | some family => family.2
  | none =>
    if 3 ≤ value.length ∧ value.head? = some 'r' ∧ value.getLast? = some 'd' then
      value.dropLast
    else value

/-- `value_is_scalar`. -/
def valueIsScalar (m : XairModule) (v : ValueId) : Bool :=
  ((m.valueType v).kind == .int || (m.valueType v).kind == .addr) && (m.valueType v).bits != 0

/-- `value_is_propagatable`. -/
def valueIsPropagatable (m : XairModule) (v : ValueId) : Bool :=
  (m.valueType v).kind == .mem ||
    (((m.valueType v).kind == .int || (m.valueType v).kind == .addr ||
      (m.valueType v).kind == .flags) && (m.valueType v).bits != 0)

/-- `value_name`. -/
def lowerName (m : XairModule) (v : ValueId) : Text := lower (m.valueName v)

/-- The arguments of a function with their places: the number in the name of a
variable, or else how many arguments come before it. -/
def indexedArguments : Nat → List PresentationVariable → List (Nat × ValueId)
  | _, [] => []
  | fallback, variable' :: rest =>
    if variable'.isArgument = false ∨ variable'.primaryValue = invalidId then
      indexedArguments fallback rest
    else
      let name := lower variable'.name
      let index :=
        if startsWith "arg" name then (parseNumber (name.drop 3)).getD fallback
        else fallback
      (index, variable'.primaryValue) :: indexedArguments (fallback + 1) rest

/-- The order of pairs. -/
def pairBefore (a b : Nat × ValueId) : Prop := a.1 < b.1 ∨ (a.1 = b.1 ∧ a.2 ≤ b.2)

instance : DecidableRel pairBefore := fun a b => by unfold pairBefore; infer_instance

variable (s : FlowSession)

/-- `function_arguments`. -/
def functionArguments (f : FunctionId) : List ValueId :=
  ((indexedArguments 0 (s.variableView f)).insertionSort pairBefore).map Prod.snd

/-- `function_returns`. -/
def functionReturns (f : FunctionId) : List ValueId :=
  ((s.variableView f).filter (fun v => v.isReturn && v.primaryValue != invalidId)).map
    PresentationVariable.primaryValue

/-- The operations of a node, with their contents. -/
def nodeOperations (m : XairModule) (node : NodeId) : List (OpId × XairOp) :=
  match s.cfg.block node with
  | some b => (m.blockOps b).filterMap (fun id => (m.op id).map (fun o => (id, o)))
  | none => []

/-- `operations_at`. -/
def operationsAt (m : XairModule) (node : NodeId) (address : Nat) : List (OpId × XairOp) :=
  (nodeOperations s m node).filter (fun o => (s.instructions o.1).contains address)

/-- The first node that satisfies a test. -/
def firstNode (test : NodeId → Bool) : NodeId :=
  (s.cfg.nodeIds.find? test).getD cfgInvalidId

/-- The node of a value: that of its definition or its parameter, or else the first
that uses it. -/
def nodeOfValue (m : XairModule) (value : ValueId) : NodeId :=
  let defined :=
    match m.valueDefinition value with
    | some definition =>
      firstNode s (fun n => (s.cfg.block n).any (fun b => (m.blockOps b).contains definition))
    | none =>
      (s.cfg.nodeIds.reverse.find?
        (fun n => (s.cfg.block n).any (fun b => (m.blockParams b).contains value))).getD
        cfgInvalidId
  if defined = cfgInvalidId then
    firstNode s (fun n => (nodeOperations s m n).any (fun o => o.2.inputs.contains value))
  else defined

/-- `resolve_point`, a value of the module. -/
def resolveValue (m : XairModule) (selector : FlowPointSelector) : ResolvedFlowPoint :=
  if m.valueCount ≤ selector.value then
    { selector := selector, message := "XAIR value is outside the module" }
  else
    let node := nodeOfValue s m selector.value
    { selector := selector
      values := [selector.value]
      operation := (m.valueDefinition selector.value).getD invalidId
      node := node
      function := s.cfg.nodeOwner node
      confidence := .exact }

/-- `resolve_point`, an argument of a function. -/
def resolveArgument (point : ResolvedFlowPoint) : ResolvedFlowPoint :=
  match s.functionByAddress point.selector.address with
  | none =>
    { point with message := "function argument anchor does not identify a function" }
  | some f =>
    match (functionArguments s f)[point.selector.index]? with
    | none =>
      { point with
        function := f, message := "function argument index is unavailable" }
    | some value => { point with function := f, values := [value], confidence := .high }

/-- `resolve_point`, an argument or the result of a call.  The last call that was
looked at stays in the point when none has the value. -/
def resolveCall (m : XairModule) (point : ResolvedFlowPoint) :
    List (OpId × XairOp) → ResolvedFlowPoint
  | [] =>
    { point with
      message :=
        if point.selector.kind = .callArgument then "call argument index is unavailable"
        else "call has no scalar result" }
  | (id, o) :: rest =>
    if o.opcode = .call then
      let result := decide (point.selector.kind = .callResult)
      let scalars := (if result then o.results else o.inputs).filter (valueIsScalar m)
      match scalars[if result then 0 else point.selector.index]? with
      | some value => { point with operation := id, values := [value], confidence := .exact }
      | none => resolveCall m { point with operation := id } rest
    else resolveCall m point rest

/-- The first operation of which some values are wanted, with these. -/
def firstWith (wanted : XairOp → List ValueId) : List (OpId × XairOp) → Option (OpId × List ValueId)
  | [] => none
  | (id, o) :: rest => if wanted o = [] then firstWith wanted rest else some (id, wanted o)

/-- `resolve_point`, a register or a buffer that a register points to. -/
def resolveRegister (m : XairModule) (point : ResolvedFlowPoint)
    (operations : List (OpId × XairOp)) : ResolvedFlowPoint :=
  let register := normalizedRegister point.selector.registerName
  let before := decide (point.selector.moment = .before)
  let named := fun (o : XairOp) =>
    (if before then o.inputs else o.results).filter
      (fun v => normalizedRegister (lowerName m v) == register)
  let unavailable :=
    { point with
      message := "register value is not explicit at the instruction anchor" }
  match firstWith named operations with
  | some (id, values) => { point with operation := id, values := values, confidence := .exact }
  | none =>
    if before then unavailable
    else
      match firstWith (fun o => o.results.filter (valueIsScalar m)) operations with
      | some (id, values) =>
        { point with
          operation := id, values := values, confidence := .medium
          message := "post-state register inferred from instruction results" }
      | none => unavailable

/-- `resolve_point`, what a store writes: its scalar inputs but the first. -/
def resolveMemoryWrite (m : XairModule) (point : ResolvedFlowPoint)
    (operations : List (OpId × XairOp)) : ResolvedFlowPoint :=
  match operations.find? (fun o => o.2.opcode == .store) with
  | some (id, o) =>
    { point with
      operation := id, values := (o.inputs.filter (valueIsScalar m)).drop 1
      confidence := .high }
  | none => { point with message := "instruction has no XAIR store" }

/-- `resolve_point`, memory: the scalar results of the loads. -/
def resolveMemory (m : XairModule) (point : ResolvedFlowPoint)
    (operations : List (OpId × XairOp)) : ResolvedFlowPoint :=
  let loads := operations.filter (fun o => o.2.opcode == .load)
  let values := loads.flatMap (fun o => o.2.results.filter (valueIsScalar m))
  let lastLoad :=
    (loads.dropWhile (fun o => (o.2.results.filter (valueIsScalar m)).isEmpty)).getLast?
  if values = [] then
    { point with
      confidence := .medium
      message := "no load result is explicit at the memory anchor" }
  else
    { point with
      operation := (lastLoad.map Prod.fst).getD point.operation
      values := values, confidence := .high }

/-- `resolve_point`. -/
def resolvePoint (selector : FlowPointSelector) : ResolvedFlowPoint :=
  match s.module with
  | none => { selector := selector, message := "session has no XAIR module" }
  | some m =>
    if selector.kind = .xairValue then resolveValue s m selector
    else
      let node := s.cfg.nodeContaining selector.address
      if node = cfgInvalidId then
        { selector := selector, message := "address is outside the recovered CFG" }
      else
        let point : ResolvedFlowPoint :=
          { selector := selector, node := node, function := s.cfg.nodeOwner node }
        let operations := operationsAt s m node selector.address
        match selector.kind with
        | .reach => { point with confidence := .exact }
        | .functionArgument => resolveArgument s point
        | kind =>
          if operations = [] then
            { point with
              message := "no XAIR operation is anchored to the instruction" }
          else
            match kind with
            | .callArgument | .callResult => resolveCall m point operations
            | .registerValue | .buffer => resolveRegister m point operations
            | .memoryWrite => resolveMemoryWrite m point operations
            | .memory => resolveMemory m point operations
            | _ => { point with message := "unsupported flow point" }

variable (p : ResolvedFlowPoint)

/-- A source that could not be resolved. -/
def ResolvedFlowPoint.isBadSource : Bool :=
  p.node == cfgInvalidId ||
    (p.values.isEmpty && p.selector.kind != .reach && p.selector.kind != .memory)

/-- A target that could not be resolved. -/
def ResolvedFlowPoint.isBadTarget : Bool :=
  p.node == cfgInvalidId || (p.values.isEmpty && p.selector.kind != .reach)

end Airece
