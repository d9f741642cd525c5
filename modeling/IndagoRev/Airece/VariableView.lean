import IndagoRev.Airece.StackOffsets

/-!
# Presentation variables

`VariableRecovery` turns the values of one function into named variables: register
arguments, stack slots, globals, call results, buffers and values that are used again.
Types, evidence and the origins of names are not part of the model; no variable and no
name depends on them.
-/

namespace Airece.VariableRecovery

open StdText

/-- `xair_calling_convention`. -/
inductive CallingConvention where
  | win64 | sysvX64 | cdeclX86 | stdcallX86
  | other (code : Nat)

/-- `VariableSymbolOrigin`, best first. -/
inductive VariableSymbolOrigin where
  | user | debugSymbol | binarySymbol | «import»

def VariableSymbolOrigin.rank : VariableSymbolOrigin → Nat
  | user => 0
  | debugSymbol => 1
  | binarySymbol => 2
  | «import» => 3

/-- `VariableSymbol`. -/
structure VariableSymbol where
  value : ValueId := invalidId
  address : Nat := 0
  name : Text := []
  origin : VariableSymbolOrigin := .binarySymbol

/-- `VariableAddressRange`. -/
structure VariableAddressRange where
  first : Nat := 0
  last : Nat := 0

/-- `VariableCallHint`. -/
structure VariableCallHint where
  operation : OpId := invalidId
  module : Text := []
  name : Text := []
  ordinal : Nat := 0

/-- `VariableContext`. -/
structure VariableContext where
  symbols : List VariableSymbol := []
  ranges : List VariableAddressRange := []
  calls : List VariableCallHint := []

/-- `VariableScope`. -/
structure VariableScope where
  functionAddress : Nat := 0
  entryBlock : BlockId := invalidId
  blocks : List BlockId := []
  callingConvention : CallingConvention := .other 0

/-- `VariableOptions`. -/
structure VariableOptions where
  maxVariables : Nat := 4096
  repeatedUseThreshold : Nat := 2
  includeRepeatedValues : Bool := true
  includeBuffers : Bool := true

/-- `VariableKind`, in its order. -/
inductive VariableKind where
  | argument | returnValue | stackSlot | global | callResult | buffer | repeatedValue | temporary
  deriving DecidableEq

def VariableKind.rank : VariableKind → Nat
  | argument => 0
  | returnValue => 1
  | stackSlot => 2
  | global => 3
  | callResult => 4
  | buffer => 5
  | repeatedValue => 6
  | temporary => 7

/-- `VariableRole`.  A set of roles is a list of them. -/
inductive VariableRole where
  | argument | return | stackSlot | global | callResult | buffer | repeated | functionPointer
  deriving DecidableEq

/-- `std::numeric_limits<std::size_t>::max()`: no argument index. -/
def noArgumentIndex : Nat := 18446744073709551615

/-- `PresentationVariable`. -/
structure PresentationVariable where
  stableId : Text := []
  kind : VariableKind := .temporary
  roles : List VariableRole := []
  primaryValue : ValueId := invalidId
  values : List ValueId := []
  addressValues : List ValueId := []
  dataValues : List ValueId := []
  nameText : Text := []
  address : Nat := 0
  stackOffset : Int := 0
  argumentIndex : Nat := noArgumentIndex
  storageBits : Nat := 0
  storageIdentity : Bool := false
  overlapsUncertain : Bool := false
  deriving DecidableEq

/-- `VariableView`.  `badArgument` stands for `XAIR_ERR_BAD_ARG`. -/
structure VariableView where
  badArgument : Bool := false
  functionAddress : Nat := 0
  vars : List PresentationVariable := []
  truncated : Bool := false
  omittedVariables : Nat := 0
  deriving DecidableEq

/-- `sanitize_name`, one character; `std::isalnum` knows ASCII only. -/
def sanitizeChar (output : Text) (c : Char) : Text :=
  if c.isAlphanum || c = '_' then output ++ [c]
  else if output.getLast? = some '_' then output
  else output ++ ['_']

/-- `while (output.back() == '_') output.pop_back()`. -/
def dropUnderscores (output : Text) : Text := (output.reverse.dropWhile (· = '_')).reverse

/-- `sanitize_name`. -/
def sanitizeName (input : Text) : Text :=
  let output := dropUnderscores (input.foldl sanitizeChar [])
  let output := if output.isEmpty then "unnamed".toList else output
  match output with
  | c :: _ => if c.isDigit then '_' :: output else output
  | [] => output

/-- `stack_name`. -/
def stackName (offset : Int) : Text :=
  if offset = 0 then "stack_0"
  else if offset < 0 then "stack_m" ++ hexDigits offset.natAbs
  else "stack_p" ++ hexDigits offset.natAbs

/-- `explicit_argument_index`: the digits, as long as they fit in a word. -/
def explicitDigits : Nat → Text → Option Nat
  | result, [] => some result
  | result, c :: rest =>
    if c.isDigit then
      let digit := c.toNat - '0'.toNat
      if (noArgumentIndex - digit) / 10 < result then none
      else explicitDigits (result * 10 + digit) rest
    else none

/-- `explicit_argument_index`. -/
def explicitArgumentIndex (rawName : Text) : Option Nat :=
  let name := lower rawName
  if startsWith "arg" name && name.length != 3 then explicitDigits 0 (name.drop 3) else none

def win64Registers : List Text := ["rcx", "rdx", "r8", "r9"]

def sysvRegisters : List Text :=
  ["rdi", "rsi", "rdx", "rcx", "r8", "r9"]

/-- The registers that carry arguments. -/
def CallingConvention.registers : CallingConvention → List Text
  | win64 => win64Registers
  | sysvX64 => sysvRegisters
  | _ => []

/-- `abi_argument_index`. -/
def abiArgumentIndex (rawName : Text) (convention : CallingConvention) : Option Nat :=
  match explicitArgumentIndex rawName with
  | some index => some index
  | none => convention.registers.findIdx? (· = lower rawName)

/-- `stack_argument_index`: the offset of the first one, their distance and its index. -/
def stackArguments : CallingConvention → Option (Int × Int × Nat)
  | .win64 => some (0x28, 8, 4)
  | .sysvX64 => some (8, 8, 6)
  | .cdeclX86 => some (4, 4, 0)
  | .stdcallX86 => some (4, 4, 0)
  | .other _ => none

/-- `stack_argument_index`. -/
def stackArgumentIndex (offset : Int) (convention : CallingConvention) : Option Nat :=
  match stackArguments convention with
  | none => none
  | some (base, stride, first) =>
    if offset < base ∨ (offset - base) % stride ≠ 0 then none
    else some (first + ((offset - base) / stride).toNat)

/-- `constant_address_impl`, with the values that are being looked at. -/
def constantAddressFrom (m : XairModule) : Nat → List ValueId → ValueId → Option (BitVec 64)
  | 0, _, _ => none
  | n + 1, active, v =>
    if m.valueCount ≤ v ∨ v ∈ active then none
    else
      match m.definingOp v with
      | none => none
      | some (_, o) =>
        match o.opcode, o.inputs with
        | .constU64, _ => some (BitVec.ofNat 64 o.immediateLow)
        | .intToAddr, [a] | .addrToInt, [a] | .zext, [a] | .trunc, [a] =>
          constantAddressFrom m n (v :: active) a
        | .add, a :: b :: _ | .addrAdd, a :: b :: _ =>
          match constantAddressFrom m n (v :: active) a,
            constantAddressFrom m n (v :: active) b with
          | some left, some right => some (left + right)
          | _, _ => none
        | .sub, a :: b :: _ | .addrSub, a :: b :: _ =>
          match constantAddressFrom m n (v :: active) a,
            constantAddressFrom m n (v :: active) b with
          | some left, some right => some (left - right)
          | _, _ => none
        | _, _ => none

/-- `constant_address`. -/
def constantAddress (m : XairModule) (v : ValueId) : Option Nat :=
  (constantAddressFrom m 17 [] v).map BitVec.toNat

namespace VariableContext

variable (context : VariableContext)

/-- `best_value_symbol` and `best_address_symbol`: the first one of the best origin. -/
def bestSymbol (symbols : List VariableSymbol) : Option VariableSymbol :=
  symbols.foldl
    (fun best symbol =>
      match best with
      | none => some symbol
      | some found => if symbol.origin.rank < found.origin.rank then some symbol else best)
    none

/-- `best_value_symbol`. -/
def bestValueSymbol (v : ValueId) : Option VariableSymbol :=
  bestSymbol (context.symbols.filter (fun s => s.value != invalidId && s.value == v))

/-- `best_address_symbol`. -/
def bestAddressSymbol (address : Nat) : Option VariableSymbol :=
  bestSymbol (context.symbols.filter (fun s => s.address != 0 && s.address == address))

/-- `address_is_known`. -/
def addressIsKnown (address : Nat) : Bool :=
  context.symbols.any (fun s => s.address != 0 && s.address == address) ||
    context.ranges.any (fun r => decide (r.first ≤ address) && decide (address < r.last))

/-- `call_hint`: the last one for the operation. -/
def callHint (operation : OpId) : Option VariableCallHint :=
  (context.calls.filter (fun c => c.operation != invalidId && c.operation == operation)).getLast?

/-- `call_name`. -/
def callName (m : XairModule) (operation : OpId) : Text :=
  let attributes := ((m.op operation).map XairOp.attributes).getD {}
  let imported :=
    if !attributes.importName.isEmpty then attributes.importName
    else if attributes.directTarget ≠ 0 then "sub_" ++ hexDigits attributes.directTarget
    else "indirect"
  match context.callHint operation with
  | some hint =>
    if !hint.name.isEmpty then hint.name
    else if hint.ordinal ≠ 0 then
      sanitizeName hint.module ++ "_ordinal_" ++ decimal hint.ordinal
    else imported
  | none => imported

end VariableContext

/-- `Candidate`. -/
structure Candidate where
  selected : Bool := false
  value : ValueId := invalidId
  roles : List VariableRole := []
  argumentIndex : Nat := noArgumentIndex
  callOperation : Option OpId := none
  suppressBuffer : Bool := false

/-- `select_candidate`. -/
def Candidate.select (c : Candidate) (v : ValueId) (roles : List VariableRole) : Candidate :=
  { c with selected := true, value := v, roles := c.roles ∪ roles }

/-- `StackKey`. -/
structure StackKey where
  base : ValueId
  offset : Int
  bits : Nat
  deriving DecidableEq

/-- `GlobalKey`. -/
structure GlobalKey where
  address : Nat
  bits : Nat
  deriving DecidableEq

/-- `StorageRecord`. -/
structure StorageRecord where
  primary : ValueId := invalidId
  values : List ValueId := []
  addressValues : List ValueId := []
  dataValues : List ValueId := []
  overlap : Bool := false

/-- `append_unique_value`. -/
def appendUnique (values : List ValueId) (v : ValueId) : List ValueId :=
  if v = invalidId ∨ v ∈ values then values else values ++ [v]

/-- What an access adds to the record of its storage. -/
def StorageRecord.access (r : StorageRecord) (address accessed : ValueId) : StorageRecord :=
  { r with
    primary := if r.primary = invalidId then address else r.primary
    values := appendUnique (appendUnique r.values address) accessed
    addressValues := appendUnique r.addressValues address
    dataValues := appendUnique r.dataValues accessed }

/-- `records[key]`, changed: a key that is missing gets a record first.  The order of the
records does not matter, because the variables are sorted. -/
def updateRecord {κ : Type} [DecidableEq κ] (key : κ) (f : StorageRecord → StorageRecord) :
    List (κ × StorageRecord) → List (κ × StorageRecord)
  | [] => [(key, f {})]
  | (k, r) :: rest => if k = key then (k, f r) :: rest else (k, r) :: updateRecord key f rest

/-- What the walk over the blocks collects. -/
structure Collected where
  candidates : ValueId → Candidate := fun _ => {}
  uses : ValueId → Nat := fun _ => 0
  meaningfulUses : ValueId → Nat := fun _ => 0
  inScope : ValueId → Bool := fun _ => false
  stackSlots : List (StackKey × StorageRecord) := []
  globals : List (GlobalKey × StorageRecord) := []

namespace Collected

variable (m : XairModule) (context : VariableContext) (s : Collected)

/-- `select_candidate` of a value. -/
def select (v : ValueId) (roles : List VariableRole) : Collected :=
  { s with candidates := Function.update s.candidates v ((s.candidates v).select v roles) }

/-- A change of the candidate of a value. -/
def adjust (v : ValueId) (f : Candidate → Candidate) : Collected :=
  { s with candidates := Function.update s.candidates v (f (s.candidates v)) }

/-- `in_scope[value] = true`. -/
def enter (v : ValueId) : Collected :=
  if v < m.valueCount then { s with inScope := Function.update s.inScope v true } else s

/-- `++uses[value]`, and `++meaningful_uses[value]` where the use means something. -/
def use (meaningful : Bool) (v : ValueId) : Collected :=
  if v < m.valueCount then
    { s with
      uses := Function.update s.uses v (s.uses v + 1)
      meaningfulUses :=
        if meaningful then Function.update s.meaningfulUses v (s.meaningfulUses v + 1)
        else s.meaningfulUses
      inScope := Function.update s.inScope v true }
  else s

/-- A call: its first result that is no memory is a call result, and the last input that
is no memory is a function pointer if the call is indirect. -/
def visitCall (id : OpId) (o : XairOp) : Collected :=
  let s :=
    match o.results.find? (fun r => (m.valueType r).kind != .mem) with
    | some result =>
      (s.select result [.callResult]).adjust result
        (fun c => { c with callOperation := some id })
    | none => s
  if o.attributes.indirectCall then
    match o.inputs.reverse.find? (fun v => (m.valueType v).kind != .mem) with
    | some target => s.select target [.functionPointer]
    | none => s
  else s

/-- The address, the accessed value and the width of a load or a store. -/
def accessOf (o : XairOp) : Option (ValueId × ValueId × Nat) :=
  let width := o.attributes.widthBits
  match o.opcode, o.inputs with
  | .load, _ :: address :: _ =>
    match o.results with
    | result :: _ =>
      some (address, result, if width ≠ 0 then width else (m.valueType result).bits)
    | [] => some (address, invalidId, width)
  | .store, _ :: address :: data :: _ =>
    some (address, data, if width ≠ 0 then width else (m.valueType data).bits)
  | _, _ => none

variable (options : VariableOptions)

/-- The storage that a load or a store is about. -/
def visitAccess (o : XairOp) : Collected :=
  match accessOf m o with
  | none => s
  | some (address, accessed, bits) =>
    match affineStack m address with
    | some (base, offset) =>
      let s := { s with
        stackSlots := updateRecord ⟨base, offset, bits⟩ (·.access address accessed) s.stackSlots }
      s.adjust address (fun c => { c with suppressBuffer := true })
    | none =>
      match (constantAddress m address).filter context.addressIsKnown with
      | some globalAddress =>
        let s := { s with
          globals := updateRecord ⟨globalAddress, bits⟩ (·.access address accessed)
            s.globals }
        s.adjust address (fun c => { c with suppressBuffer := true })
      | none =>
        if options.includeBuffers && decide (address < m.valueCount) then
          s.select address [.buffer]
        else s

/-- A result that is a known constant address. -/
def visitResult (r : ValueId) : Collected :=
  if (m.valueType r).kind = .addr ∧
      ((constantAddress m r).filter context.addressIsKnown).isSome then
    (s.select r [.global]).adjust r (fun c => { c with suppressBuffer := true })
  else s

/-- One operation. -/
def visitOp (id : OpId) (o : XairOp) : Collected :=
  let s := o.inputs.foldl (fun s v => s.use m (o.opcode != .call) v) s
  let s := o.results.foldl (fun s r => s.enter m r) s
  let s := if o.opcode = .call then s.visitCall m id o else s
  let s := s.visitAccess m context options o
  o.results.foldl (fun s r => s.visitResult m context r) s

/-- A terminator: its condition and its arguments, and what a return gives back. -/
def visitTerminator (t : Terminator) : Collected :=
  let s := s.use m true t.condition
  let s := t.trueArgs.foldl (fun s v => s.use m false v) s
  let s := t.falseArgs.foldl (fun s v => s.use m false v) s
  if t.kind = .ret then
    match t.trueArgs.find? (fun v =>
        (m.valueType v).kind != .mem && (m.valueType v).kind != .flags) with
    | some v =>
      { s with meaningfulUses := Function.update s.meaningfulUses v (s.meaningfulUses v + 1)
               candidates := Function.update s.candidates v
                 ((s.candidates v).select v [.return]) }
    | none => s
  else s

/-- One block. -/
def visitBlock (b : BlockId) : Collected :=
  let s := (m.blockParams b).foldl (fun s p => s.enter m p) s
  let s := (m.blockOps b).foldl
    (fun s id =>
      match m.op id with
      | some o => s.visitOp m context options id o
      | none => s) s
  match m.terminator b with
  | some t => s.visitTerminator m t
  | none => s

end Collected

/-- The blocks of a scope, each once, in order. -/
def distinctBlocks (blocks : List BlockId) : List BlockId :=
  blocks.foldl (fun seen b => if b ∈ seen then seen else seen ++ [b]) []

/-- The walk over all blocks. -/
def collect (m : XairModule) (context : VariableContext) (scope : VariableScope)
    (options : VariableOptions) : Collected :=
  (distinctBlocks scope.blocks).foldl (fun s b => s.visitBlock m context options b) {}

/-- The pairs of an argument and the parameter that it is passed for, on the edges from a
block to blocks of the scope. -/
def blockSlots (m : XairModule) (scope : VariableScope) (b : BlockId) : List (ValueId × ValueId) :=
  match m.terminator b with
  | none => []
  | some t =>
    t.targets.flatMap (fun edge =>
      if edge.1 ∈ scope.blocks then edge.2.zip (m.blockParams edge.1) else [])

/-- The pairs in the order in which a pass meets them. -/
def scopeSlots (m : XairModule) (scope : VariableScope) : List (ValueId × ValueId) :=
  scope.blocks.flatMap (blockSlots m scope)

/-- One pass after the other, until nothing changes or the passes are used up. -/
def passes {σ : Type} (pass : σ → σ × Bool) : Nat → σ → σ
  | 0, s => s
  | n + 1, s => if (pass s).2 then passes pass n (pass s).1 else (pass s).1

/-- `propagate_relevance`, at one argument. -/
def pushRelevance (m : XairModule) (s : (ValueId → Nat) × Bool) (slot : ValueId × ValueId) :
    (ValueId → Nat) × Bool :=
  if m.valueCount ≤ slot.2 ∨ m.valueCount ≤ slot.1 ∨ s.1 slot.2 = 0 ∨ s.1 slot.1 ≠ 0 then s
  else (Function.update s.1 slot.1 1, true)

/-- One pass of `propagate_relevance`. -/
def relevancePass (m : XairModule) (scope : VariableScope) (uses : ValueId → Nat) :
    (ValueId → Nat) × Bool :=
  (scopeSlots m scope).foldl (pushRelevance m) (uses, false)

/-- The relevance of values after all passes. -/
def propagateRelevance (m : XairModule) (scope : VariableScope) (uses : ValueId → Nat) :
    ValueId → Nat :=
  passes (relevancePass m scope) (scope.blocks.length + 1) uses

/-- `propagate`, at one argument. -/
def pushLabel (m : XairModule) (s : (ValueId → Candidate) × Bool) (slot : ValueId × ValueId) :
    (ValueId → Candidate) × Bool :=
  if m.valueCount ≤ slot.1 ∨ VariableRole.argument ∉ (s.1 slot.1).roles ∨
      m.valueCount ≤ slot.2 then s
  else
    let destination := (s.1 slot.2).select slot.2 [.argument]
    let index := (s.1 slot.1).argumentIndex
    if destination.argumentIndex ≠ index then
      (Function.update s.1 slot.2 { destination with argumentIndex := index }, true)
    else (Function.update s.1 slot.2 destination, s.2)

/-- One pass of `propagate`. -/
def labelPass (m : XairModule) (scope : VariableScope) (candidates : ValueId → Candidate) :
    (ValueId → Candidate) × Bool :=
  (scopeSlots m scope).foldl (pushLabel m) (candidates, false)

/-- The candidates after all passes. -/
def propagateLabels (m : XairModule) (scope : VariableScope) (candidates : ValueId → Candidate) :
    ValueId → Candidate :=
  passes (labelPass m scope) (scope.blocks.length + 1) candidates

/-- An entry parameter that the calling convention names becomes an argument, unless it is
another than the first one and nothing needs it. -/
def selectArgument (m : XairModule) (scope : VariableScope) (relevance : ValueId → Nat)
    (candidates : ValueId → Candidate) (p : ValueId) : ValueId → Candidate :=
  if m.valueCount ≤ p then candidates
  else
    match abiArgumentIndex (m.valueName p) scope.callingConvention with
    | none => candidates
    | some index =>
      if index ≠ 0 ∧ relevance p = 0 then candidates
      else Function.update candidates p
        { (candidates p).select p [.argument] with argumentIndex := index }

/-- The arguments among the parameters of the entry block. -/
def selectArguments (m : XairModule) (scope : VariableScope) (relevance : ValueId → Nat)
    (candidates : ValueId → Candidate) : ValueId → Candidate :=
  (m.blockParams scope.entryBlock).foldl (selectArgument m scope relevance) candidates

/-- `entry_stack_pointer`: the last stack pointer among the parameters of the entry block. -/
def entryStackPointer (m : XairModule) (scope : VariableScope) : ValueId :=
  (((m.blockParams scope.entryBlock).filter (fun p => decide (p < m.valueCount) &&
    (decide (lower (m.valueName p) = "rsp") ||
      decide (lower (m.valueName p) = "esp")))).getLast?).getD invalidId

variable (context : VariableContext)

/-- Values with a symbol are candidates, whatever they are used for. -/
def selectSymbols (m : XairModule) (inScope : ValueId → Bool)
    (candidates : ValueId → Candidate) : ValueId → Candidate :=
  context.symbols.foldl
    (fun candidates symbol =>
      if symbol.value ≠ invalidId ∧ symbol.value < m.valueCount ∧ inScope symbol.value then
        Function.update candidates symbol.value ((candidates symbol.value).select symbol.value [])
      else candidates)
    candidates

/-- Whether a value is used often enough to get a variable. -/
def repeatedValue (m : XairModule) (options : VariableOptions) (uses : ValueId → Nat)
    (v : ValueId) : Bool :=
  decide (options.repeatedUseThreshold ≤ uses v) &&
    (m.valueType v).kind != .mem && (m.valueType v).kind != .flags &&
    (m.valueType v).kind != .void &&
    (match m.definingOp v with
    | some (_, o) => o.opcode != .constU64 && o.opcode != .constWide
    | none => true)

/-- Values that are used again. -/
def selectRepeated (m : XairModule) (options : VariableOptions) (uses : ValueId → Nat)
    (candidates : ValueId → Candidate) : ValueId → Candidate :=
  if options.includeRepeatedValues ∧ options.repeatedUseThreshold ≠ 0 then
    fun v =>
      if v < m.valueCount ∧ repeatedValue m options uses v then (candidates v).select v [.repeated]
      else candidates v
  else candidates

/-- `intervals_overlap`.  The bounds are those of `std::int64_t`. -/
def intervalsOverlap (leftOffset : Int) (leftBits : Nat) (rightOffset : Int) (rightBits : Nat) :
    Bool :=
  let leftSize : Int := ((leftBits + 7) / 8 : Nat)
  let rightSize : Int := ((rightBits + 7) / 8 : Nat)
  if leftSize = 0 ∨ rightSize = 0 ∨ int64Max - leftSize < leftOffset ∨
      int64Max - rightSize < rightOffset then false
  else decide (leftOffset < rightOffset + rightSize) && decide (rightOffset < leftOffset + leftSize)

/-- Whether the storages of two keys overlap without being the same. -/
def StackKey.overlaps (left right : StackKey) : Bool :=
  left.base == right.base && !(left.offset == right.offset && left.bits == right.bits) &&
    (intervalsOverlap left.offset left.bits right.offset right.bits ||
      intervalsOverlap right.offset right.bits left.offset left.bits)

/-- Stack storages that overlap with another one. -/
def markOverlaps (stackSlots : List (StackKey × StorageRecord)) : List (StackKey × StorageRecord) :=
  stackSlots.map (fun entry =>
    (entry.1, { entry.2 with overlap := stackSlots.any (fun other => entry.1.overlaps other.1) }))

/-- `primary_kind`. -/
def primaryKind (roles : List VariableRole) : VariableKind :=
  if .global ∈ roles then .global
  else if .argument ∈ roles then .argument
  else if .callResult ∈ roles then .callResult
  else if .return ∈ roles then .returnValue
  else if .buffer ∈ roles then .buffer
  else if .repeated ∈ roles then .repeatedValue
  else .temporary

/-- The name that only the roles of a candidate give it. -/
def roleName (c : Candidate) : Text :=
  if .argument ∈ c.roles ∧ c.argumentIndex ≠ noArgumentIndex then
    "arg" ++ decimal c.argumentIndex
  else if .return ∈ c.roles then "return_value"
  else if .functionPointer ∈ c.roles then "function_ptr_v" ++ decimal c.value
  else if .buffer ∈ c.roles then "buffer_v" ++ decimal c.value
  else "tmp_" ++ decimal c.value

/-- The name of a global at an address. -/
def globalName (address : Nat) : Text :=
  match context.bestAddressSymbol address with
  | some symbol => sanitizeName symbol.name
  | none => "global_" ++ hexDigits address

/-- `name_for_candidate`. -/
def nameForCandidate (m : XairModule) (context : VariableContext) (c : Candidate) : Text :=
  match context.bestValueSymbol c.value with
  | some symbol => sanitizeName symbol.name
  | none =>
    match c.callOperation with
    | some id => "call_" ++ sanitizeName (context.callName m id) ++ "_result"
    | none =>
      if .global ∈ c.roles then
        match constantAddress m c.value with
        | some address => globalName context address
        | none => roleName c
      else roleName c

/-- A candidate as it is presented: a suppressed buffer is no buffer. -/
def Candidate.effective (c : Candidate) : Candidate :=
  if c.suppressBuffer then { c with roles := c.roles.filter (· ≠ .buffer) } else c

/-- Whether a candidate gets a variable. -/
def Candidate.presented (c : Candidate) : Bool :=
  c.selected && c.value != invalidId &&
    !(c.suppressBuffer && c.effective.roles.all (fun r => r == .global || r == .repeated) &&
      (context.bestValueSymbol c.value).isNone) &&
    !(c.effective.roles.isEmpty && (context.bestValueSymbol c.value).isNone)

/-- Whether a candidate is a register argument. -/
def Candidate.isArgument (c : Candidate) : Bool :=
  decide (.argument ∈ c.roles) && c.argumentIndex != noArgumentIndex

/-- The variable of a candidate. -/
def candidateVariable (m : XairModule) (context : VariableContext) (c : Candidate) :
    PresentationVariable where
  stableId := "value:" ++ decimal c.value
  kind := primaryKind c.roles
  roles := c.roles
  argumentIndex := c.argumentIndex
  primaryValue := c.value
  values := [c.value]
  address := if .global ∈ c.roles then (constantAddress m c.value).getD 0 else 0
  nameText := nameForCandidate m context c

/-- Whether a variable is the one of a register argument. -/
def PresentationVariable.isArgument (index : Nat) (item : PresentationVariable) : Bool :=
  decide (.argument ∈ item.roles) && !item.storageIdentity && item.argumentIndex == index

/-- A candidate for an argument that has a variable already joins it. -/
def joinArgument (c : Candidate) : List PresentationVariable → Option (List PresentationVariable)
  | [] => none
  | item :: rest =>
    if item.isArgument c.argumentIndex then
      some ({ item with values := item.values ++ [c.value], roles := item.roles ∪ c.roles } ::
        rest)
    else (joinArgument c rest).map (item :: ·)

/-- One candidate. -/
def presentCandidate (m : XairModule) (context : VariableContext)
    (vars : List PresentationVariable) (candidate : Candidate) : List PresentationVariable :=
  if candidate.presented context then
    let c := candidate.effective
    match if c.isArgument then joinArgument c vars else none with
    | some joined => joined
    | none => vars ++ [candidateVariable m context c]
  else vars

/-- The variables of all candidates. -/
def presentCandidates (m : XairModule) (context : VariableContext)
    (candidates : ValueId → Candidate) : List PresentationVariable :=
  ((List.range m.valueCount).map candidates).foldl (presentCandidate m context) []

/-- The argument that a stack slot is. -/
def slotArgument (m : XairModule) (scope : VariableScope) (key : StackKey) : Option Nat :=
  if key.base = entryStackPointer m scope ∧ (lower (m.valueName key.base) = "rsp" ∨
      lower (m.valueName key.base) = "esp") then
    stackArgumentIndex key.offset scope.callingConvention
  else none

/-- The variable of a stack slot. -/
def stackVariable (m : XairModule) (scope : VariableScope) (key : StackKey)
    (record : StorageRecord) : PresentationVariable where
  stableId := "stack:" ++ decimal key.base ++ ':' :: decimalInt key.offset ++
    ':' :: decimal key.bits
  kind := if (slotArgument m scope key).isSome then .argument else .stackSlot
  roles := if (slotArgument m scope key).isSome then [.stackSlot, .argument] else [.stackSlot]
  primaryValue := record.primary
  values := record.values
  addressValues := record.addressValues
  dataValues := record.dataValues
  stackOffset := key.offset
  argumentIndex := (slotArgument m scope key).getD noArgumentIndex
  storageBits := key.bits
  storageIdentity := true
  overlapsUncertain := record.overlap
  nameText :=
    (match slotArgument m scope key with
      | some index => "arg" ++ decimal index
      | none => stackName key.offset) ++
    (if record.overlap then '_' :: decimal key.bits else [])

/-- The variable of a global. -/
def globalVariable (key : GlobalKey) (record : StorageRecord) : PresentationVariable where
  stableId := "global:" ++ hexDigits key.address ++ ':' :: decimal key.bits
  kind := .global
  roles := [.global]
  primaryValue := record.primary
  values := record.values
  addressValues := record.addressValues
  dataValues := record.dataValues
  address := key.address
  storageBits := key.bits
  storageIdentity := true
  nameText := globalName context key.address

/-- `while (argument_indices.contains(contiguous_arguments)) ++contiguous_arguments`, as often
as there are indices. -/
def contiguousFrom (indices : List Nat) : Nat → Nat → Nat
  | 0, n => n
  | fuel + 1, n => if n ∈ indices then contiguousFrom indices fuel (n + 1) else n

variable (vars : List PresentationVariable)

/-- `argument_indices`. -/
def argumentIndices : List Nat :=
  (vars.filter (fun v => decide (.argument ∈ v.roles) && !v.storageIdentity &&
    v.argumentIndex != noArgumentIndex)).map PresentationVariable.argumentIndex

/-- The register arguments behind a gap are dropped. -/
def dropDetached : List PresentationVariable :=
  let indices := argumentIndices vars
  let contiguous := contiguousFrom indices indices.length 0
  vars.filter (fun v => !(decide (.argument ∈ v.roles) && !v.storageIdentity &&
    decide (contiguous ≤ v.argumentIndex)))

/-- The order of the variables. -/
def PresentationVariable.before (left right : PresentationVariable) : Bool :=
  if left.kind ≠ right.kind then decide (left.kind.rank < right.kind.rank)
  else if left.kind = .argument ∧ left.argumentIndex ≠ right.argumentIndex then
    decide (left.argumentIndex < right.argumentIndex)
  else if left.primaryValue ≠ right.primaryValue then
    decide (left.primaryValue < right.primaryValue)
  else decide (left.stableId < right.stableId)

/-- The sorted variables. -/
def sortVariables : List PresentationVariable :=
  vars.insertionSort (fun left right => right.before left = false)

/-- `while (!names.insert(variable.name.text).second)`, with the rounds that are left. -/
def freeName (names : List Text) (base : Text) : Nat → Nat → Text → Option Text
  | 0, _, _ => none
  | rounds + 1, suffix, text =>
    if text ∈ names then
      freeName names base rounds (suffix + 1) (base ++ '_' :: decimal (suffix + 1))
    else some text

/-- The name that a variable gets when some names are taken. -/
def claimName (names : List Text) (rounds : Nat) (v : PresentationVariable) : Option Text :=
  if v.nameText ∈ names then
    freeName names v.nameText rounds 2
      (if v.primaryValue ≠ invalidId then v.nameText ++ "_v" ++ decimal v.primaryValue
        else v.nameText ++ "_2")
  else some v.nameText

/-- The naming pass. -/
def nameVariables (rounds : Nat) :
    List Text → List PresentationVariable → Option (List PresentationVariable)
  | _, [] => some []
  | names, v :: rest =>
    (claimName names rounds v).bind (fun name =>
      (nameVariables rounds (name :: names) rest).map ({ v with nameText := name } :: ·))

/-- All variables, before they are named. -/
def unnamedVariables (m : XairModule) (context : VariableContext) (scope : VariableScope)
    (options : VariableOptions) : List PresentationVariable :=
  let collected := collect m context scope options
  let relevance := propagateRelevance m scope collected.meaningfulUses
  let candidates := selectArguments m scope relevance collected.candidates
  let candidates := propagateLabels m scope candidates
  let candidates := selectSymbols context m collected.inScope candidates
  let candidates := selectRepeated m options collected.uses candidates
  sortVariables (dropDetached (presentCandidates m context candidates ++
      (markOverlaps collected.stackSlots).map (fun entry => stackVariable m scope entry.1 entry.2) ++
      collected.globals.map (fun entry => globalVariable context entry.1 entry.2)))

/-- Whether the scope names blocks of the module only. -/
def VariableScope.valid (m : XairModule) (scope : VariableScope) : Bool :=
  decide (scope.entryBlock < m.blocks.length) && !scope.blocks.isEmpty &&
    scope.blocks.all (fun b => decide (b < m.blocks.length))

/-- `VariableRecovery::build`, with the rounds that the collision loop may take. -/
def buildVariables (m : XairModule) (context : VariableContext) (rounds : Nat)
    (scope : VariableScope) (options : VariableOptions) : Option VariableView :=
  if scope.valid m then
    (nameVariables rounds [] (unnamedVariables m context scope options)).map (fun vars =>
      if options.maxVariables ≠ 0 ∧ options.maxVariables < vars.length then
        { functionAddress := scope.functionAddress
          vars := vars.take options.maxVariables
          truncated := true
          omittedVariables := vars.length - options.maxVariables }
      else { functionAddress := scope.functionAddress, vars })
  else some { functionAddress := scope.functionAddress, badArgument := true }

end Airece.VariableRecovery
