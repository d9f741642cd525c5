import IndagoRev.Airece.StackOffsets

/-!
# Induction variables of loops

How `ControlRecovery` finds what a loop counts: the comparison behind its condition, the
header parameter that one side of it depends on, the step that the update of that
parameter adds, and, where no parameter is found, a stack slot that the loop updates.
Recursions along definitions have no bound in the source; here they get as many calls
as there are values, and one more.
-/

namespace Airece.ControlRecovery

open StdText

/-- `xair_cfg_edge_kind`. -/
inductive EdgeKind where
  | call | indirectCall | external | tailcall
  | cbranchTrue | cbranchFalse | ret | fallthrough | callReturn | indirectJump
  | unresolved | exception
  | other (code : Nat)
  deriving DecidableEq

/-- `xair_cfg_edge`. -/
structure ControlEdge where
  kind : EdgeKind
  src : NodeId
  dst : NodeId
  condition : ValueId := invalidId
  rawTarget : Nat := 0

/-- `EdgeRecord`. -/
structure EdgeRecord where
  id : EdgeId
  edge : ControlEdge

/-- `LoopRecord`. -/
structure LoopRecord where
  header : NodeId
  members : List NodeId := []
  irreducible : Bool := false

/-- The names of comparisons. -/
inductive LoopComparison where
  | eq | ne | ult | ule | slt | sle
  deriving DecidableEq

variable (m : XairModule)

/-- Whether a value is a constant of one bit. -/
def isBooleanConstant (v : ValueId) : Bool :=
  (constantI64 m v).isSome && (m.valueType v).bits == 1

/-- The operand that is left where an operation wraps it with a constant of one bit. -/
def wrappedOperand (o : XairOp) : Option ValueId :=
  if o.opcode = .eq ∨ o.opcode = .ne ∨ o.opcode = .xor then
    match o.inputs with
    | a :: b :: _ =>
      if isBooleanConstant m b then some a
      else if isBooleanConstant m a then some b
      else none
    | _ => none
  else none

/-- The comparison that an opcode makes of its operands. -/
def directComparison : Opcode → Option LoopComparison
  | .eq => some .eq
  | .ne => some .ne
  | .ult => some .ult
  | .ule => some .ule
  | .slt => some .slt
  | .sle => some .sle
  | _ => none

/-- The comparison that a flag of a subtraction stands for. -/
def flagComparison : Opcode → Option LoopComparison
  | .flagZf => some .eq
  | .flagCf => some .ult
  | _ => none

/-- What an operation compares that is not wrapped. -/
def operandsOf (o : XairOp) : Option (ValueId × ValueId × LoopComparison) :=
  match directComparison o.opcode with
  | some comparison =>
    match o.inputs with
    | a :: b :: _ => some (a, b, comparison)
    | _ => none
  | none =>
    match flagComparison o.opcode, o.inputs with
    | some comparison, f :: _ =>
      match m.definingOp f with
      | some (_, flags) =>
        if flags.opcode = .flagsSub then
          match flags.inputs with
          | a :: b :: _ => some (a, b, comparison)
          | _ => none
        else none
      | none => none
    | _, _ => none

/-- `comparison_operands`, with the calls that are left. -/
def comparisonOperands (m : XairModule) :
    Nat → ValueId → Option (ValueId × ValueId × LoopComparison)
  | 0, _ => none
  | n + 1, condition =>
    match m.definingOp condition with
    | none => none
    | some (_, o) =>
      match wrappedOperand m o with
      | some inner => comparisonOperands m n inner
      | none => operandsOf m o

/-- `depends_on`, with the levels that are left. -/
def dependsOn (m : XairModule) (needle : ValueId) : Nat → ValueId → Bool
  | 0, v => v == needle
  | n + 1, v =>
    v == needle ||
      match m.definingOp v with
      | some (_, o) => o.inputs.any (dependsOn m needle n)
      | none => false

/-- The casts that a step is looked for behind. -/
def isStepCast (opcode : Opcode) : Bool :=
  opcode == .zext || opcode == .sext || opcode == .trunc || opcode == .extract

/-- A step that is not zero. -/
def nonzero (step : Int) : Option Int := if step = 0 then none else some step

/-- The step of a sum or difference. -/
def stepOf (needle : ValueId) (o : XairOp) : Option Int :=
  if o.opcode = .add ∨ o.opcode = .sub then
    match o.inputs with
    | a :: b :: _ =>
      match (if dependsOn m needle 16 a then constantI64 m b else none) with
      | some amount => nonzero (if o.opcode = .sub then -amount else amount)
      | none =>
        match (if o.opcode = .add ∧ dependsOn m needle 16 b then constantI64 m a else none) with
        | some amount => nonzero amount
        | none => none
    | _ => none
  else none

/-- `induction_step`, with the calls that are left. -/
def inductionStep (m : XairModule) (needle : ValueId) : Nat → ValueId → Option Int
  | 0, _ => none
  | n + 1, update =>
    match m.definingOp update with
    | none => none
    | some (_, o) =>
      match isStepCast o.opcode, o.inputs with
      | true, a :: _ => inductionStep m needle n a
      | _, _ => stepOf m needle o

/-- `find_load`, with the levels that are left. -/
def findLoad (m : XairModule) : Nat → ValueId → Option ValueId
  | 0, _ => none
  | n + 1, v =>
    match m.definingOp v with
    | none => none
    | some (_, o) =>
      if o.opcode = .load then some v
      else
        match isStepCast o.opcode, o.inputs with
        | true, a :: _ => findLoad m n a
        | _, _ => none

/-- The offset that `stack_offset` answers. -/
def offsetOf (v : ValueId) : Option Int :=
  match stackOffset m 16 v with
  | .offset _ value => some value
  | _ => none

/-- The offset of the stack slot that a load reads. -/
def loadOffset (loaded : ValueId) : Option Int :=
  match m.definingOp loaded with
  | some (_, o) =>
    match o.inputs with
    | _ :: address :: _ => offsetOf m address
    | _ => none
  | none => none

/-- One side of a sum or difference: it reads the slot, and the other one is constant. -/
def storedSide (offset : Int) (o : XairOp) (side other : ValueId) (second : Bool) : Option Int :=
  match findLoad m 12 side with
  | none => none
  | some loaded =>
    if loadOffset m loaded = some offset then
      match constantI64 m other with
      | some amount =>
        if o.opcode = .sub && second then none
        else some (if o.opcode = .sub then -amount else amount)
      | none => none
    else none

/-- `stored_induction_step`, with the levels that are left. -/
def storedInductionStep (m : XairModule) (offset : Int) : Nat → ValueId → Option Int
  | 0, _ => none
  | n + 1, data =>
    match m.definingOp data with
    | none => none
    | some (_, o) =>
      match isStepCast o.opcode, o.inputs with
      | true, a :: _ => storedInductionStep m offset n a
      | _, a :: b :: _ =>
        if o.opcode = .add ∨ o.opcode = .sub then
          match storedSide m offset o a b false with
          | some step => nonzero step
          | none => (storedSide m offset o b a true).bind nonzero
        else none
      | _, _ => none

/-- `ControlInduction`. -/
structure ControlInduction where
  recovered : Bool := false
  «variable» : ValueId := invalidId
  initial : ValueId := invalidId
  bound : ValueId := invalidId
  step : Int := 0
  comparison : Option LoopComparison := none

/-- The step of a store to the slot. -/
def storeStep (offset : Int) (id : OpId) : Option Int :=
  match m.op id with
  | some o =>
    match o.opcode, o.inputs with
    | .store, _ :: address :: data :: _ =>
      if offsetOf m address = some offset then storedInductionStep m offset 12 data else none
    | _, _ => none
  | none => none

variable (block : NodeId → Option BlockId) (loop : LoopRecord)

/-- The slot that one side of the comparison reads, if the loop updates it. -/
def storedInduction
    (expression bound : ValueId) (comparison : LoopComparison) : Option ControlInduction :=
  match findLoad m 12 expression with
  | none => none
  | some loaded =>
    match loadOffset m loaded with
    | none => none
    | some offset =>
      (loop.members.findSome? (fun node =>
        (block node).bind (fun b => (m.blockOps b).findSome? (storeStep m offset)))).map
        (fun step =>
          { recovered := true, «variable» := loaded, bound, step
            comparison := some comparison })

/-- `recover_stored_induction`. -/
def recoverStoredInduction
    (left right : ValueId) (comparison : LoopComparison) : Option ControlInduction :=
  match storedInduction m block loop left right comparison with
  | some found => some found
  | none => storedInduction m block loop right left comparison

/-- `edge_argument`; an invalid value is none. -/
def edgeArgument (source : NodeId) (target : BlockId) (parameter : Nat) : Option ValueId :=
  match (block source).bind m.terminator with
  | none => none
  | some t =>
    (match (if t.trueTarget = target then t.trueArgs[parameter]? else none) with
      | some a => some a
      | none => if t.falseTarget = target then t.falseArgs[parameter]? else none).filter
      (· != invalidId)

/-- The arguments of the back edges of a loop for a parameter of its header. -/
def backArguments (backEdges : List (NodeId × NodeId)) (loop : LoopRecord) (target : BlockId)
    (parameter : Nat) : List ValueId :=
  (backEdges.filter (fun e => e.2 == loop.header && loop.members.contains e.1)).filterMap
    (fun e => edgeArgument m block e.1 target parameter)

/-- The arguments of the edges into a loop for a parameter of its header. -/
def entryArguments (edges : List EdgeRecord)
    (loop : LoopRecord) (target : BlockId) (parameter : Nat) : List ValueId :=
  (edges.filter (fun e =>
    e.edge.dst == loop.header && !loop.members.contains e.edge.src)).filterMap
    (fun e => edgeArgument m block e.edge.src target parameter)

/-- `recover_induction`, at one parameter: the last back edge gives the update, and the last
edge into the loop the initial value. -/
def parameterInduction
    (backEdges : List (NodeId × NodeId)) (edges : List EdgeRecord) (loop : LoopRecord)
    (target : BlockId) (left right : ValueId) (comparison : LoopComparison)
    (p : ValueId × Nat) : Option ControlInduction :=
  let leftDepends := dependsOn m p.1 16 left
  let rightDepends := dependsOn m p.1 16 right
  if leftDepends = rightDepends then none
  else
    match (backArguments m block backEdges loop target p.2).getLast? with
    | none => none
    | some update =>
      (inductionStep m p.1 (m.valueCount + 1) update).map (fun step =>
        { recovered := true
          «variable» := p.1
          initial := ((entryArguments m block edges loop target p.2).getLast?).getD invalidId
          bound := if leftDepends then right else left
          step
          comparison := some comparison })

/-- `recover_induction`. -/
def recoverInduction
    (backEdges : List (NodeId × NodeId)) (edges : List EdgeRecord) (loop : LoopRecord)
    (condition : ValueId) : ControlInduction :=
  match block loop.header with
  | none => {}
  | some target =>
    if condition = invalidId then {}
    else
      match comparisonOperands m (m.valueCount + 1) condition with
      | none => {}
      | some (left, right, comparison) =>
        match (m.blockParams target).zipIdx.findSome?
            (parameterInduction m block backEdges edges loop target left right comparison) with
        | some found => found
        | none =>
          (recoverStoredInduction m block loop left right comparison).getD {}

end Airece.ControlRecovery
