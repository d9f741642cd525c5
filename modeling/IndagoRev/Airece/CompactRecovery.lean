import IndagoRev.Airece.ExpressionView

/-!
# Names and values of compact statements

The part of `CompactRecovery` that decides which value a statement prints and
under which name: the copies that block arguments make, the propagation of names
along them, stack offsets, and the names that loads take over from stores.  The
maps of the source are unordered; `blocks` is the order in which the iterations
over them happen to run, and nothing depends on it being any particular one.
-/

namespace Airece

open StdText

/-- What `build_uncached` reads for one function. -/
structure CompactFunction where
  module : XairModule
  /-- The blocks of the function: the keys of `block_nodes`. -/
  blocks : List BlockId
  /-- The blocks that start at the function's entry. -/
  isEntry : BlockId → Bool
  /-- `names`, as the variables of the function give it. -/
  variableNames : ValueId → Option Text
  /-- `abi_return_values`. -/
  returnValues : ValueId → Bool

namespace CompactFunction

variable (f : CompactFunction)

/-- The parameters that one target of a terminator binds, with their arguments. -/
def bindings (target : BlockId × List ValueId) : List (ValueId × ValueId) :=
  if f.blocks.contains target.1 then (f.module.blockParams target.1).zip target.2 else []

variable (block : BlockId)

/-- The block arguments of a block's terminator. -/
def argumentsOf : List (ValueId × ValueId) :=
  match f.module.terminator block with
  | some t => t.targets.flatMap f.bindings
  | none => []

/-- All block arguments of the function, in the order of the loops. -/
def blockArguments : List (ValueId × ValueId) := f.blocks.flatMap f.argumentsOf

/-- `copy_sources` and `conflicting_copies`. -/
structure Copies where
  source : ValueId → Option ValueId := fun _ => none
  conflicting : ValueId → Bool := fun _ => false

/-- `record_block_arguments`, one argument. -/
def Copies.record (c : Copies) (binding : ValueId × ValueId) : Copies :=
  if c.conflicting binding.1 then c
  else
    match c.source binding.1 with
    | none => { c with source := Function.update c.source binding.1 (some binding.2) }
    | some existing =>
      if existing = binding.2 then c
      else
        { source := Function.update c.source binding.1 none
          conflicting := Function.update c.conflicting binding.1 true }

/-- `copy_sources` after all blocks. -/
def copySource : ValueId → Option ValueId := (f.blockArguments.foldl Copies.record {}).source

/-- The loop of `resolve_copy`.  Every round but the last goes on from a parameter
that was not seen before. -/
def resolveCopyFrom : Nat → List ValueId → ValueId → ValueId
  | 0, _, v => v
  | n + 1, seen, v =>
    if seen.contains v then v
    else
      match f.copySource v with
      | none => v
      | some source => if source = v then v else resolveCopyFrom n (v :: seen) source

variable (v : ValueId)

/-- `resolve_copy`. -/
def resolveCopy : ValueId :=
  f.resolveCopyFrom (f.blockArguments.length + 2) [] v

/-- One step of the propagation: the parameter takes the name of its argument.  The
flag records a change. -/
def propagateName (s : (ValueId → Option Text) × Bool) (binding : ValueId × ValueId) :
    (ValueId → Option Text) × Bool :=
  match s.1 (f.resolveCopy binding.2) with
  | none => s
  | some name =>
    if s.1 binding.1 = some name then s
    else (Function.update s.1 binding.1 (some name), true)

/-- The passes of the propagation, until one of them changes nothing. -/
def propagateNames : Nat → (ValueId → Option Text) → ValueId → Option Text
  | 0, names => names
  | n + 1, names =>
    let pass := f.blockArguments.foldl f.propagateName (names, false)
    if pass.2 then propagateNames n pass.1 else pass.1

/-- `std::unordered_map::emplace`, with whether it inserted. -/
def emplace {α : Type} (s : (ValueId → Option α) × Bool) (v : ValueId) (x : α) :
    (ValueId → Option α) × Bool :=
  match s.1 v with
  | some _ => s
  | none => (Function.update s.1 v (some x), true)

/-- `constant_value`. -/
def constantValue : Option (BitVec 64) :=
  match f.module.definingOp v with
  | some (_, o) =>
    if o.opcode = .constU64 ∧ o.immediateHigh = 0 then some (BitVec.ofNat 64 o.immediateLow)
    else none
  | none => none

/-- The offset that an operation gives its results. -/
def operationOffset (offsets : ValueId → Option (BitVec 64)) (o : XairOp) : Option (BitVec 64) :=
  match o.opcode with
  | .intToAddr | .addrToInt | .zext | .sext | .trunc => (o.inputs[0]?).bind offsets
  | .add | .addrAdd =>
    match o.inputs with
    | a :: b :: _ =>
      (offsets a).bind (fun base => (f.constantValue b).map (fun amount => base + amount))
    | _ => none
  | .sub | .addrSub =>
    match o.inputs with
    | a :: b :: _ =>
      (offsets a).bind (fun base => (f.constantValue b).map (fun amount => base - amount))
    | _ => none
  | _ => none

/-- One operation of a pass. -/
def offsetStep (s : (ValueId → Option (BitVec 64)) × Bool) (operation : OpId) :
    (ValueId → Option (BitVec 64)) × Bool :=
  match f.module.op operation with
  | none => s
  | some o =>
    match f.operationOffset s.1 o with
    | some offset => o.results.foldl (fun s r => emplace s r offset) s
    | none => s

/-- One block of a pass: its operations, then the arguments of its terminator. -/
def offsetBlock (s : (ValueId → Option (BitVec 64)) × Bool) (block : BlockId) :
    (ValueId → Option (BitVec 64)) × Bool :=
  (f.argumentsOf block).foldl
    (fun s binding =>
      match s.1 binding.2 with
      | some offset => emplace s binding.1 offset
      | none => s)
    ((f.module.blockOps block).foldl f.offsetStep s)

/-- The passes, until one of them changes nothing. -/
def offsetPasses : Nat → (ValueId → Option (BitVec 64)) → ValueId → Option (BitVec 64)
  | 0, offsets => offsets
  | n + 1, offsets =>
    let pass := f.blocks.foldl f.offsetBlock (offsets, false)
    if pass.2 then offsetPasses n pass.1 else pass.1

/-- The stack pointers that the entry blocks receive, at offset 0. -/
def entryOffsets : ValueId → Option (BitVec 64) :=
  ((f.blocks.filter f.isEntry).flatMap f.module.blockParams).foldl
    (fun offsets p =>
      if f.module.valueName p = "rsp" ∨ f.module.valueName p = "esp" then
        Function.update offsets p (some 0#64)
      else offsets)
    (fun _ => none)

/-- `storage_offsets`. -/
def storageOffset : ValueId → Option (BitVec 64) := f.offsetPasses 32 f.entryOffsets

/-- Whether a text begins with an ampersand. -/
def isAddressName (name : Text) : Bool := startsWith ['&'] name

/-- `same_storage_address`. -/
def sameStorageAddress (names : ValueId → Option Text) (left right : ValueId) : Bool :=
  f.resolveCopy left == f.resolveCopy right ||
    (match f.storageOffset left, f.storageOffset right with
      | some a, some b => a == b
      | _, _ => false) ||
    (match names left, names right with
      | some a, some b => isAddressName a && a == b
      | _, _ => false)

/-- The loop of `stored_value`. -/
def storedValueFrom (names : ValueId → Option Text) (address : ValueId) :
    Nat → List ValueId → ValueId → Option ValueId
  | 0, _, _ => none
  | n + 1, seen, memory =>
    if seen.contains memory then none
    else
      match f.module.definingOp (f.resolveCopy memory) with
      | none => none
      | some (_, o) =>
        if o.opcode = .store then
          match o.inputs with
          | previous :: target :: data :: _ =>
            if f.sameStorageAddress names target address then some data
            else storedValueFrom names address n (memory :: seen) previous
          | _ => none
        else none

/-- `stored_value`. -/
def storedValue (names : ValueId → Option Text) (memory address : ValueId) : Option ValueId :=
  f.storedValueFrom names address 128 [] memory

/-- The operations that `resolve_identity` looks through. -/
def keepsIdentity (opcode : Opcode) : Bool :=
  opcode == .zext || opcode == .sext || opcode == .trunc || opcode == .extract ||
    opcode == .intToAddr || opcode == .addrToInt

/-- The loop of `resolve_identity`.  Every round but the last goes on from the
first input of another operation. -/
def resolveIdentityFrom : Nat → List ValueId → ValueId → ValueId
  | 0, _, v => v
  | n + 1, seen, v =>
    if v = invalidId ∨ seen.contains v then v
    else
      let value := f.resolveCopy v
      match f.module.definingOp value with
      | none => value
      | some (_, o) =>
        match o.inputs with
        | [] => value
        | input :: _ =>
          if keepsIdentity o.opcode then resolveIdentityFrom n (v :: seen) input else value

/-- `resolve_identity`. -/
def resolveIdentity : ValueId :=
  f.resolveIdentityFrom (f.module.ops.length + 2) [] v

/-- A load that takes the name of a stored value over: what it reads, the stored value
that was found, the value that carries the name, and the names at that time. -/
structure ForwardedLoad where
  load : OpId
  memory : ValueId
  address : ValueId
  result : ValueId
  source : ValueId
  carrier : ValueId
  names : ValueId → Option Text

/-- The names while loads are named, with the loads that took one over. -/
structure LoadNames where
  names : ValueId → Option Text
  forwarded : List ForwardedLoad := []

/-- The last loop over the operations, one of them. -/
def nameLoad (s : LoadNames) (operation : OpId) : LoadNames :=
  match f.module.op operation with
  | none => s
  | some o =>
    if o.opcode = .load then
      match o.inputs, o.results with
      | memory :: address :: _, result :: _ =>
        let byAddress : LoadNames :=
          match s.names address with
          | some name =>
            if isAddressName name then
              { s with names :=
                  Function.update s.names result (some (name.drop 1 ++ "_value")) }
            else s
          | none => s
        match f.storedValue s.names memory address with
        | none => byAddress
        | some source =>
          match s.names (f.resolveIdentity source) with
          | none => byAddress
          | some name =>
            if source = invalidId ∨ isAddressName name then byAddress
            else
              { names := Function.update s.names result (some name)
                forwarded := s.forwarded ++
                  [⟨operation, memory, address, result, source,
                    f.resolveIdentity source, s.names⟩] }
      | _, _ => s
    else s

/-- The names after the propagation along block arguments. -/
def propagatedNames : ValueId → Option Text :=
  f.propagateNames (f.blocks.length + 1) f.variableNames

/-- The loop over the loads. -/
def loadNames : LoadNames :=
  (f.blocks.flatMap f.module.blockOps).foldl f.nameLoad { names := f.propagatedNames }

/-- `names`, as the statements are printed with it. -/
def names : ValueId → Option Text := f.loadNames.names

/-- A value that a statement prints with `value_text`: the block and the position
of the statement's operation, or the number of operations for a terminator. -/
structure PrintedValue where
  block : BlockId
  position : Nat
  value : ValueId
  names : ValueId → Option Text

/-- The values that the statement of an operation prints: the arguments of a call,
the address of a load, the address and the data of a store. -/
def operationValues (o : XairOp) : List ValueId :=
  match o.opcode with
  | .call => o.inputs.filter (fun v => (f.module.valueType v).kind ≠ .mem)
  | .load =>
    match o.inputs, o.results with
    | _ :: address :: _, _ :: _ => [address]
    | _, _ => []
  | .store =>
    match o.inputs with
    | _ :: address :: data :: _ => [address, data]
    | _ => []
  | _ => []

/-- The names with which a returned value is printed: its own name is left out when
it only says that it is returned. -/
def returnNames (value : ValueId) : ValueId → Option Text :=
  match f.names value with
  | some name =>
    if startsWith "return_value" name then Function.update f.names value none else f.names
  | none => f.names

/-- The value that the statement of a terminator prints: a branch condition, or the
returned value. -/
def terminatorValue (t : Terminator) : Option (ValueId × (ValueId → Option Text)) :=
  match t.kind with
  | .cbranch => some (t.condition, f.names)
  | .ret =>
    (t.trueArgs.find? f.returnValues).map
      (fun v => (f.resolveCopy v, f.returnNames (f.resolveCopy v)))
  | _ => none

/-- The values that the statements of a block print. -/
def printedIn : List PrintedValue :=
  (f.module.blockOps block).zipIdx.flatMap (fun p =>
      match f.module.op p.1 with
      | some o => (f.operationValues o).map (fun v => ⟨block, p.2, v, f.names⟩)
      | none => []) ++
    (match (f.module.terminator block).bind f.terminatorValue with
    | some p => [⟨block, (f.module.blockOps block).length, p.1, p.2⟩]
    | none => [])

/-- The values that all statements of the function print. -/
def printedValues : List PrintedValue := f.blocks.flatMap f.printedIn

variable (maxExpressionDepth : Nat)

/-- The options of `value_text`, for a given `max_expression_depth`. -/
def statementOptions : ExpressionOptions :=
  { maxDepth := maxExpressionDepth, maxNodes := 64, maxTokens := 96, maxCharacters := 384 }

/-- `value_text`. -/
def valueText (p : PrintedValue) : Text :=
  match p.names p.value with
  | some name => name
  | none =>
    let expression := buildNamed
      { module := f.module, names := p.names, options := statementOptions maxExpressionDepth }
      p.value
    if expression.ok then expression.text else 'v' :: decimal p.value

end CompactFunction

end Airece
