import IndagoRev.Airece.ControlView

/-!
# XAIR modules

The data that the presentation code reads out of an XAIR module: values with
their types and definitions, operations with their inputs, results and
attributes, and blocks with parameters and a terminator.  XAIR itself is not part
of this repository; an accessor fails here exactly when its id is out of range.
-/

namespace Airece

open StdText

/-- `xair_op_id`. -/
abbrev OpId := Nat
/-- `xair_block_id`. -/
abbrev BlockId := Nat

/-- The kinds of `xair_type`. -/
inductive TypeKind where
  | invalid | void | int | addr | flags | mem
  deriving DecidableEq

/-- `xair_type`.  Nothing here reads its third field, but `xair_type_equal`
compares it. -/
structure XairType where
  kind : TypeKind := .invalid
  bits : Nat := 0
  extra : Nat := 0
  deriving DecidableEq

/-- `xair_opcode`: the opcodes that the presentation code tells apart, and all
others. -/
inductive Opcode where
  | constU64 | constWide | unknown | undef
  | add | sub | mul | udiv | sdiv | urem | srem
  | and | or | xor | shl | lshr | ashr | rol | ror | concat
  | eq | ne | ult | ule | slt | sle
  | zext | sext | trunc | extract | intToAddr | addrToInt | addrAdd | addrSub
  | select | load | store
  | flagZf | flagCf | flagOf | flagSf | flagPf | flagAf
  | flagsAdd | flagsSub | flagsLogic | flagsShl
  | call | opaquePure | opaqueEffect | intrinsic | memoryBarrier
  | other (code : Nat)
  deriving DecidableEq

/-- The flags of `xair_op_attributes::effects`. -/
inductive Effect where
  | pure | readMemory | writeMemory | mayFault | isVolatile | isAtomic | barrier
  | mayThrow | noReturn
  deriving DecidableEq

/-- `xair_op_attributes`.  A missing text is the empty one, which every reader
treats alike. -/
structure OpAttributes where
  effects : List Effect := []
  semanticId : Text := []
  importModule : Text := []
  importName : Text := []
  directTarget : Nat := 0
  indirectCall : Bool := false
  widthBits : Nat := 0

/-- Whether an operation has one of some effects. -/
def OpAttributes.hasAny (a : OpAttributes) (effects : List Effect) : Bool :=
  a.effects.any effects.contains

/-- An operation with what `xair_module_get_op_v3`, `xair_op_inputs`,
`xair_op_results`, `xair_op_immediate_wide` and `xair_op_attributes_get` say
about it. -/
structure XairOp where
  opcode : Opcode
  inputs : List ValueId := []
  results : List ValueId := []
  immediateLow : Nat := 0
  immediateHigh : Nat := 0
  attributes : OpAttributes := {}

/-- The kinds of `xair_term_view`. -/
inductive TermKind where
  | jump | cbranch | ret | trap | fault | other
  deriving DecidableEq

/-- `xair_term_view`. -/
structure Terminator where
  kind : TermKind
  condition : ValueId := invalidId
  trueTarget : BlockId := invalidId
  falseTarget : BlockId := invalidId
  trueArgs : List ValueId := []
  falseArgs : List ValueId := []
  code : Nat := 0

/-- The targets of a terminator with the arguments it passes. -/
def Terminator.targets (t : Terminator) : List (BlockId × List ValueId) :=
  [(t.trueTarget, t.trueArgs), (t.falseTarget, t.falseArgs)]

/-- A value: its type, its XAIR name (empty when there is none) and the operation
that defines it.  A block parameter has no defining operation. -/
structure XairValue where
  type : XairType
  name : Text := []
  definition : Option OpId := none

/-- A block. -/
structure XairBlock where
  ops : List OpId := []
  params : List ValueId := []
  terminator : Terminator

/-- `xair_module`, together with the names that XAIR gives its opcodes. -/
structure XairModule where
  values : List XairValue
  ops : List XairOp
  blocks : List XairBlock
  /-- `xair_opcode_name`. -/
  opcodeName : Opcode → Text

namespace XairModule

variable (m : XairModule)

/-- `xair_module_value_count`. -/
def valueCount : Nat := m.values.length

variable (v : ValueId)

/-- `xair_value_type`. -/
def valueType : XairType :=
  match m.values[v]? with
  | some value => value.type
  | none => {}

/-- `xair_value_name`. -/
def valueName : Text :=
  match m.values[v]? with
  | some value => value.name
  | none => []

/-- `xair_value_definition`. -/
def valueDefinition : Option OpId :=
  (m.values[v]?).bind XairValue.definition

/-- `xair_module_get_op_v3`. -/
def op (id : OpId) : Option XairOp := m.ops[id]?

/-- The operation that defines a value. -/
def definingOp : Option (OpId × XairOp) :=
  (m.valueDefinition v).bind (fun id => (m.op id).map (fun o => (id, o)))

/-- The operations of a block; empty when there is no such block. -/
def blockOps (b : BlockId) : List OpId :=
  match m.blocks[b]? with
  | some block => block.ops
  | none => []

/-- The parameters of a block. -/
def blockParams (b : BlockId) : List ValueId :=
  match m.blocks[b]? with
  | some block => block.params
  | none => []

/-- `xair_block_terminator`. -/
def terminator (b : BlockId) : Option Terminator :=
  (m.blocks[b]?).map XairBlock.terminator

end XairModule

end Airece
