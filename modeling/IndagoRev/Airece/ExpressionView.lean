import IndagoRev.Airece.Xair

/-!
# Expression recovery

`ExpressionRecovery` renders a value as text: it expands the defining operation
of a value where that is allowed, and prints the value's name otherwise.  The
source builds strings.  Here the recursion builds a `Shown` tree first, one
constructor for every form of text, and `Shown.rendered` is the string that the
source returns for it.  Source spans are not modelled: no text depends on them.
-/

namespace Airece

open StdText

/-- The infix operators of expression text. -/
inductive InfixOp where
  | add | sub | mul | udiv | sdiv | urem | srem | and | or | xor | shl | lshr | ashr
  | eq | ne | ult | ule | slt | sle | uge | ugt | sge | sgt
  deriving DecidableEq

/-- `precedence_select`. -/
def precedenceSelect : Nat := 1
/-- `precedence_compare`. -/
def precedenceCompare : Nat := 2
/-- `precedence_unary`. -/
def precedenceUnary : Nat := 9
/-- `precedence_atom`. -/
def precedenceAtom : Nat := 10

/-- The token of an operator. -/
def InfixOp.token : InfixOp → Text
  | .add => "+"
  | .sub => "-"
  | .mul => "*"
  | .udiv => "/u"
  | .sdiv => "/s"
  | .urem => "%u"
  | .srem => "%s"
  | .and => "&"
  | .or => "|"
  | .xor => "^"
  | .shl => "<<"
  | .lshr => ">>u"
  | .ashr => ">>s"
  | .eq => "=="
  | .ne => "!="
  | .ult => "u<"
  | .ule => "u<="
  | .slt => "s<"
  | .sle => "s<="
  | .uge => "u>="
  | .ugt => "u>"
  | .sge => "s>="
  | .sgt => "s>"

/-- The precedence of an operator: `precedence_compare` to
`precedence_multiply`. -/
def InfixOp.precedence : InfixOp → Nat
  | .eq | .ne | .ult | .ule | .slt | .sle | .uge | .ugt | .sge | .sgt => precedenceCompare
  | .or => 3
  | .xor => 4
  | .and => 5
  | .shl | .lshr | .ashr => 6
  | .add | .sub => 7
  | .mul | .udiv | .sdiv | .urem | .srem => 8

/-- `ExpressionRecovery::Impl::Rendered`, without the two fields that nothing
reads. -/
structure Rendered where
  text : Text
  precedence : Nat

/-- `parenthesize`. -/
def parenthesize (value : Rendered) (precedence : Nat) : Text :=
  if value.precedence < precedence then '(' :: value.text ++ [')'] else value.text

/-- The table of `negate_boolean`, in its order. -/
def inverses : List (InfixOp × InfixOp) :=
  [(.eq, .ne), (.ne, .eq), (.ult, .uge), (.ule, .ugt), (.slt, .sge), (.sle, .sgt)]

/-- The first entry of the table that occurs in a text, with its position. -/
def findInverse (text : Text) : Option (Nat × InfixOp × InfixOp) :=
  inverses.findSome? (fun p => (find (spaced p.1.token) text).map (fun i => (i, p.1, p.2)))

/-- `negate_boolean`. -/
def negateBoolean (expression : Rendered) : Rendered :=
  let negation : Rendered :=
    { text := '!' :: parenthesize expression precedenceUnary, precedence := precedenceUnary }
  if expression.precedence = precedenceCompare then
    match findInverse expression.text with
    | some (position, source, target) =>
      { expression with
        text := replace position (spaced source.token).length (spaced target.token)
          expression.text }
    | none => negation
  else negation

/-- What a rendering shows, one constructor for every form of text. -/
inductive Shown where
  /-- A value by its name (`leaf`). -/
  | leaf (value : ValueId) (text : Text)
  /-- A constant, or any other single word. -/
  | word (text : Text)
  /-- `render_binary`. -/
  | binary (op : InfixOp) (l r : Shown)
  /-- `negate_boolean`. -/
  | negated (e : Shown)
  /-- The zero flag of an addition or a logical operation. -/
  | zeroTest (e : Shown)
  /-- An inlined load. -/
  | load (operation : OpId) (bits : Nat) (address : Shown)
  /-- An extension, truncation or address cast, with the word before its
  parenthesis. -/
  | cast (opcode : Opcode) (type : XairType) (name : Text) (e : Shown)
  | select (c a b : Shown)
  /-- A name with arguments. -/
  | function (name : Text) (args : List Shown)
  /-- An indirect call. -/
  | apply (callee : Shown) (args : List Shown)

mutual
/-- The text and precedence that the source returns. -/
def Shown.rendered : Shown → Rendered
  | .leaf _ text => ⟨text, precedenceAtom⟩
  | .word text => ⟨text, precedenceAtom⟩
  | .binary op l r =>
    ⟨parenthesize l.rendered op.precedence ++ spaced op.token ++
      parenthesize r.rendered (op.precedence + 1), op.precedence⟩
  | .negated e => negateBoolean e.rendered
  | .zeroTest e =>
    ⟨parenthesize e.rendered precedenceCompare ++ " == 0", precedenceCompare⟩
  | .load _ bits address =>
    ⟨"load" ++ decimal bits ++ '(' :: address.rendered.text ++ [')'], precedenceAtom⟩
  | .cast _ _ name e => ⟨name ++ '(' :: e.rendered.text ++ [')'], precedenceAtom⟩
  | .select c a b =>
    ⟨parenthesize c.rendered precedenceSelect ++ " ? " ++
      parenthesize a.rendered precedenceSelect ++ " : " ++
      parenthesize b.rendered precedenceSelect, precedenceSelect⟩
  | .function name args =>
    ⟨name ++ '(' :: List.intercalate ", " (argumentTexts args) ++ [')'], precedenceAtom⟩
  | .apply callee args =>
    ⟨parenthesize callee.rendered precedenceAtom ++
      '(' :: List.intercalate ", " (argumentTexts args) ++ [')'], precedenceAtom⟩

/-- The texts of arguments, which stand without parentheses. -/
def argumentTexts : List Shown → List Text
  | [] => []
  | e :: rest => e.rendered.text :: argumentTexts rest
end

/-- `ExpressionOptions`. -/
structure ExpressionOptions where
  maxDepth : Nat := 8
  maxNodes : Nat := 64
  maxTokens : Nat := 256
  maxCharacters : Nat := 4096
  inlineSingleUse : Bool := true
  inlineLoads : Bool := true

/-- What a rendering depends on: the module, the presentation names and the
options. -/
structure RenderContext where
  module : XairModule
  names : ValueId → Option Text
  options : ExpressionOptions

/-- `RenderState`, without the parts that are fixed during a rendering. -/
structure RenderState where
  nodes : Nat := 0
  truncated : Bool := false
  omitted : Nat := 0
  operations : List OpId := []
  values : List ValueId := []
  active : List ValueId := []

/-- `type_width`. -/
def typeWidth (type : XairType) : Text :=
  (match type.kind with
    | .addr => "addr"
    | .flags => "flags"
    | .mem => "mem"
    | _ => "bits") ++ decimal type.bits

/-- `hex_value`. -/
def hexValue (value : Nat) : Text := "0x" ++ hexDigits value

variable (m : XairModule)

/-- The places of the operations of a module, in the order of the constructor's
loops; the last place of an operation is the one it keeps. -/
def XairModule.places : List (OpId × BlockId × Nat) :=
  m.blocks.zipIdx.flatMap (fun b => b.1.ops.zipIdx.map (fun o => (o.1, b.2, o.2)))

variable (operation : OpId)

/-- `locations`: the block and the position of an operation. -/
def XairModule.location : Option (BlockId × Nat) :=
  ((m.places.filter (fun p => p.1 == operation)).getLast?).map (·.2)

/-- Every use of a value by an operation or a terminator. -/
def XairModule.uses : List ValueId :=
  m.blocks.flatMap (fun b =>
    b.ops.flatMap (fun id => match m.op id with | some o => o.inputs | none => []) ++
      b.terminator.condition :: b.terminator.trueArgs ++ b.terminator.falseArgs)

/-- `use_counts`. -/
def XairModule.useCount (v : ValueId) : Nat := m.uses.count v

variable (ctx : RenderContext)

/-- `leaf`. -/
def leafText (v : ValueId) : Text :=
  match ctx.names v with
  | some name => name
  | none =>
    if (ctx.module.valueName v).isEmpty then 'v' :: decimal v else ctx.module.valueName v

/-- A value shown by its name. -/
def leaf (v : ValueId) : Shown := .leaf v (leafText ctx v)

/-- Adds an element to a list unless it is there. -/
def addNew (xs : List Nat) (x : Nat) : List Nat := if xs.contains x then xs else xs ++ [x]

variable (s : RenderState)

/-- `track_value`. -/
def RenderState.trackValue (v : ValueId) : RenderState :=
  { s with values := addNew s.values v }

/-- `track_operation`. -/
def RenderState.trackOperation (id : OpId) : RenderState :=
  { s with operations := addNew s.operations id }

/-- What a limit does to the state. -/
def RenderState.omit : RenderState :=
  { s with truncated := true, omitted := s.omitted + 1 }

/-- `clobbers_load`. -/
def XairModule.clobbersLoad : Bool :=
  match m.op operation with
  | none => true
  | some o =>
    o.opcode == .store || o.opcode == .call || o.opcode == .opaqueEffect ||
      o.opcode == .memoryBarrier ||
      o.attributes.hasAny [.writeMemory, .isVolatile, .isAtomic, .barrier]

/-- The operations of a block strictly between two positions. -/
def XairModule.between (block : BlockId) (first last : Nat) : List OpId :=
  ((m.blockOps block).take last).drop (first + 1)

/-- `load_is_safe`. -/
def XairModule.loadIsSafe (load horizon : OpId) : Bool :=
  if load = horizon then true
  else
    match m.location load, m.location horizon with
    | some (block, position), some (block', position') =>
      if block ≠ block' ∨ position' ≤ position then false
      else
        match m.op load with
        | none => false
        | some o =>
          !o.attributes.hasAny [.isVolatile, .isAtomic] &&
            (m.between block position position').all (fun id => !m.clobbersLoad id)
    | _, _ => false

/-- The effects for which `can_expand` refuses an operation. -/
def effectful : List Effect :=
  [.readMemory, .writeMemory, .mayFault, .isVolatile, .isAtomic, .barrier, .mayThrow,
    .noReturn]

/-- Whether a limit of the options is reached below the root. -/
def atLimit (depth : Nat) (s : RenderState) : Bool :=
  ctx.options.maxDepth ≤ depth || ctx.options.maxNodes ≤ s.nodes ||
    ctx.options.maxTokens ≤ s.nodes

/-- The part of `can_expand` after the limits: whether a value below the root
may be shown by its operation. -/
def mayExpand (v : ValueId) (id : OpId) (o : XairOp) (horizon : OpId) : Bool :=
  if o.opcode = .constU64 ∨ o.opcode = .constWide ∨ o.opcode = .unknown ∨ o.opcode = .undef then
    true
  else if o.opcode = .load then
    ctx.options.inlineLoads && decide (ctx.module.useCount v ≤ 1) &&
      ctx.module.loadIsSafe id horizon
  else if o.attributes.hasAny effectful then false
  else if o.opcode = .store ∨ o.opcode = .call ∨ o.opcode = .opaquePure ∨
      o.opcode = .opaqueEffect ∨ o.opcode = .memoryBarrier then false
  else ctx.options.inlineSingleUse && decide (ctx.module.useCount v ≤ 1)

/-- `can_expand`. -/
def canExpand (v : ValueId) (id : OpId) (o : XairOp) (horizon : OpId) (depth : Nat)
    (root : Bool) (s : RenderState) : Bool × RenderState :=
  if root then (true, s)
  else if atLimit ctx depth s then (false, s.omit)
  else (mayExpand ctx v id o horizon, s)

/-- A value as it is shown inside another: the recursive call with the depth and
the horizon fixed. -/
abbrev Operand := ValueId → RenderState → Shown × RenderState

variable (operand : Operand) (inputs : List ValueId)

/-- `render_binary`. -/
def renderBinary (op : InfixOp) (s : RenderState) : Shown × RenderState :=
  match inputs with
  | a :: b :: _ =>
    let left := operand a s
    let right := operand b left.2
    (.binary op left.1 right.1, right.2)
  | _ => (.function "malformed_binary" [], s)

/-- Operands rendered one after the other. -/
def renderOperands (operand : Operand) : List ValueId → RenderState → List Shown × RenderState
  | [], s => ([], s)
  | v :: rest, s =>
    let first := operand v s
    let others := renderOperands operand rest first.2
    (first.1 :: others.1, others.2)

/-- `constant_boolean`. -/
def XairModule.constantBoolean (v : ValueId) : Option Bool :=
  if (m.valueType v).bits ≠ 1 then none
  else match m.definingOp v with
  | some (_, o) =>
    if o.opcode = .constU64 then some (o.immediateLow % 2 == 1) else none
  | none => none

/-- The boolean constant among two inputs, with the other input: the second input
is looked at first. -/
def booleanOperand : Option (Bool × ValueId) :=
  match inputs with
  | a :: b :: _ =>
    match ctx.module.constantBoolean b with
    | some c => some (c, a)
    | none => (ctx.module.constantBoolean a).map (fun c => (c, b))
  | _ => none

/-- The operator that `render_comparison` prints. -/
def comparisonOp : Opcode → InfixOp
  | .ne => .ne
  | .ult => .ult
  | .ule => .ule
  | .slt => .slt
  | .sle => .sle
  | _ => .eq

variable (opcode : Opcode)

/-- `render_comparison`. -/
def renderComparison (s : RenderState) : Shown × RenderState :=
  if inputs.length < 2 then (.function "malformed_compare" [], s)
  else
    match (if opcode = .eq ∨ opcode = .ne then booleanOperand ctx inputs else none) with
    | some (constant, other) =>
      let shown := operand other s
      if (opcode == .eq) != constant then (.negated shown.1, shown.2) else shown
    | none => renderBinary operand inputs (comparisonOp opcode) s

/-- The name under which a flag of an arithmetic operation is printed. -/
def flagName (flag producer : Opcode) : Text :=
  match flag with
  | .flagSf => "signbit"
  | .flagPf => "parity8"
  | .flagCf =>
    if producer = .flagsAdd then "carry_add"
    else if producer = .flagsSub then "borrow_sub" else "carry_logic"
  | .flagOf =>
    if producer = .flagsAdd then "overflow_add"
    else if producer = .flagsSub then "overflow_sub" else "overflow_logic"
  | .flagAf =>
    if producer = .flagsAdd then "aux_carry_add"
    else if producer = .flagsSub then "aux_borrow_sub" else "aux_logic"
  | other => ctx.module.opcodeName other

/-- `render_flag`. -/
def renderFlag (flag : Opcode) (flags : ValueId) (s : RenderState) : Shown × RenderState :=
  let unresolved := (Shown.function (ctx.module.opcodeName flag) [leaf ctx flags], s)
  match ctx.module.definingOp flags with
  | none => unresolved
  | some (id, o) =>
    if (o.opcode ≠ .flagsAdd ∧ o.opcode ≠ .flagsSub ∧ o.opcode ≠ .flagsLogic) ∨
        o.inputs = [] then unresolved
    else
      let s := s.trackOperation id
      if o.opcode = .flagsSub ∧ 2 ≤ o.inputs.length ∧ flag = .flagZf then
        renderBinary operand o.inputs .eq s
      else if o.opcode = .flagsSub ∧ 2 ≤ o.inputs.length ∧ flag = .flagCf then
        renderBinary operand o.inputs .ult s
      else
        let arithmetic :=
          if o.opcode = .flagsLogic then
            match o.inputs with
            | a :: _ => operand a s
            | [] => (leaf ctx flags, s)
          else
            renderBinary operand o.inputs (if o.opcode = .flagsAdd then .add else .sub) s
        if flag = .flagZf then (.zeroTest arithmetic.1, arithmetic.2)
        else (.function (flagName ctx flag o.opcode) [arithmetic.1], arithmetic.2)

/-- The input that an indirect call goes to: the last one that is no memory
state, or the first one. -/
def indirectTarget (m : XairModule) (inputs : List ValueId) : Nat → Nat
  | 0 => 0
  | n + 1 =>
    match inputs[n + 1]? with
    | some v => if (m.valueType v).kind = .mem then indirectTarget m inputs n else n + 1
    | none => n + 1

/-- The inputs that are printed as arguments. -/
def callArguments (argumentEnd : Nat) : List ValueId :=
  (inputs.take argumentEnd).filter (fun v => (m.valueType v).kind ≠ .mem)

/-- `render_call`. -/
def renderCall (a : OpAttributes) (s : RenderState) : Shown × RenderState :=
  let direct (callee : Text) : Shown × RenderState :=
    let args := renderOperands operand
      (callArguments ctx.module inputs inputs.length) s
    (.function callee args.1, args.2)
  if !a.importName.isEmpty then
    direct ((if a.importModule.isEmpty then [] else a.importModule ++ ['!']) ++ a.importName)
  else if a.directTarget ≠ 0 then direct ("sub_" ++ hexDigits a.directTarget)
  else
    match (if a.indirectCall then inputs[indirectTarget ctx.module inputs (inputs.length - 1)]?
        else none) with
    | some target =>
      let callee := operand target s
      let args := renderOperands operand (callArguments ctx.module inputs
        (indirectTarget ctx.module inputs (inputs.length - 1))) callee.2
      (.apply callee.1 args.1, args.2)
    | none => direct "unknown_call"

/-- The text of a constant. -/
def constantText (o : XairOp) (type : XairType) : Text :=
  if o.opcode = .constU64 then
    if type.kind = .int ∧ type.bits = 1 then
      (if o.immediateLow % 2 = 1 then "true" else "false")
    else
      hexValue (if type.bits ≠ 0 ∧ type.bits < 64 then o.immediateLow % 2 ^ type.bits
        else o.immediateLow) ++ ':' :: typeWidth type
  else
    "0x" ++
      (if o.immediateHigh = 0 then hexDigits o.immediateLow
        else hexDigits o.immediateHigh ++
          List.replicate (16 - (hexDigits o.immediateLow).length) '0' ++
          hexDigits o.immediateLow) ++ ':' :: typeWidth type

/-- The value that a cast is printed as when it changes nothing: its input of the
same type, or the input of the extension that a truncation undoes. -/
def castIdentity (type : XairType) (input : ValueId) : Option ValueId :=
  if m.valueType input = type then some input
  else if opcode = .trunc then
    match m.definingOp input with
    | some (_, o) =>
      if o.opcode = .zext ∨ o.opcode = .sext then
        match o.inputs with
        | [inner] => if m.valueType inner = type then some inner else none
        | _ => none
      else none
    | none => none
  else none

/-- The word before the parenthesis of a cast, an unknown value or any operation
without a form of its own. -/
def typedName (type : XairType) : Text :=
  m.opcodeName opcode ++ '<' :: typeWidth type ++ ['>']

/-- `render_operation`. -/
def renderOperation (v : ValueId) (id : OpId) (o : XairOp)
    (s : RenderState) : Shown × RenderState :=
  let s := o.inputs.foldl RenderState.trackValue s
  let type := ctx.module.valueType v
  match o.opcode with
  | .constU64 | .constWide => (.word (constantText o type), s)
  | .add | .addrAdd => renderBinary operand o.inputs .add s
  | .sub | .addrSub => renderBinary operand o.inputs .sub s
  | .mul => renderBinary operand o.inputs .mul s
  | .udiv => renderBinary operand o.inputs .udiv s
  | .sdiv => renderBinary operand o.inputs .sdiv s
  | .urem => renderBinary operand o.inputs .urem s
  | .srem => renderBinary operand o.inputs .srem s
  | .and => renderBinary operand o.inputs .and s
  | .or => renderBinary operand o.inputs .or s
  | .xor =>
    match (if type.bits = 1 then booleanOperand ctx o.inputs else none) with
    | some (constant, other) =>
      let shown := operand other s
      if constant then (.negated shown.1, shown.2) else shown
    | none => renderBinary operand o.inputs .xor s
  | .shl => renderBinary operand o.inputs .shl s
  | .lshr => renderBinary operand o.inputs .lshr s
  | .ashr => renderBinary operand o.inputs .ashr s
  | .rol | .ror | .concat =>
    let args := renderOperands operand o.inputs s
    (.function (ctx.module.opcodeName o.opcode) args.1, args.2)
  | .eq | .ne | .ult | .ule | .slt | .sle => renderComparison ctx operand o.inputs o.opcode s
  | .zext | .sext | .trunc | .intToAddr | .addrToInt =>
    match o.inputs with
    | [] => (.function "malformed_cast" [], s)
    | input :: _ =>
      match castIdentity ctx.module o.opcode type input with
      | some inner => operand inner s
      | none =>
        let shown := operand input s
        (.cast o.opcode type (typedName ctx.module o.opcode type) shown.1, shown.2)
  | .extract =>
    match o.inputs with
    | [] => (.function "malformed_extract" [], s)
    | input :: _ =>
      let shown := operand input s
      (.function ("extract<" ++ decimal o.immediateLow ++ ':' :: decimal type.bits ++
        ['>']) [shown.1], shown.2)
  | .select =>
    match o.inputs with
    | c :: a :: b :: _ =>
      let condition := operand c s
      let whenTrue := operand a condition.2
      let whenFalse := operand b whenTrue.2
      (.select condition.1 whenTrue.1 whenFalse.1, whenFalse.2)
    | _ => (.function "malformed_select" [], s)
  | .load =>
    match o.inputs with
    | _ :: address :: _ =>
      let shown := operand address s
      (.load id type.bits shown.1, shown.2)
    | _ => (.function "malformed_load" [], s)
  | .store =>
    match o.inputs with
    | _ :: address :: data :: _ =>
      let shown := renderOperands operand [address, data] s
      (.function ("store" ++ decimal (ctx.module.valueType data).bits) shown.1, shown.2)
    | _ => (.function "malformed_store" [], s)
  | .flagZf | .flagCf | .flagOf | .flagSf | .flagPf | .flagAf =>
    match o.inputs with
    | [] => (.function "malformed_flag" [], s)
    | flags :: _ => renderFlag ctx operand o.opcode flags s
  | .call => renderCall ctx operand o.inputs o.attributes s
  | .unknown | .undef =>
    (.function (typedName ctx.module o.opcode type)
      [.word (if o.attributes.semanticId.isEmpty then ctx.module.opcodeName o.opcode
        else o.attributes.semanticId)], s)
  | _ =>
    let args := renderOperands operand o.inputs s
    (.function (ctx.module.opcodeName o.opcode ++ '<' ::
      (if o.attributes.semanticId.isEmpty then [] else o.attributes.semanticId ++ [':']) ++
      typeWidth type ++ ['>']) args.1, args.2)

/-- `render_value` over the rendering of its operands. -/
def renderValueWith (v : ValueId) (horizon : OpId) (depth : Nat)
    (root : Bool) (s : RenderState) : Shown × RenderState :=
  let s := s.trackValue v
  if ctx.module.valueCount ≤ v then
    (.function "invalid_value" [.word (decimal v)], s.omit)
  else
    match ctx.module.valueDefinition v with
    | none => (leaf ctx v, s)
    | some id =>
      match ctx.module.op id with
      | none => (leaf ctx v, s.omit)
      | some o =>
        if s.active.contains v then (leaf ctx v, s)
        else
          let allowed := canExpand ctx v id o horizon depth root s
          if !allowed.1 then (leaf ctx v, allowed.2)
          else
            let s := { allowed.2 with
              nodes := allowed.2.nodes + 1
              active := v :: allowed.2.active }
            let shown := renderOperation ctx operand v id o (s.trackOperation id)
            (shown.1, { shown.2 with active := shown.2.active.filter (· ≠ v) })

/-- `render_value`.  The first argument bounds the nesting: an operand at
`max_depth` is never expanded, so `max_depth + 1` levels are enough. -/
def renderValue : Nat → ValueId → OpId → Nat → Bool → RenderState → Shown × RenderState
  | 0, v, _, _, _, s => (leaf ctx v, s)
  | n + 1, v, horizon, depth, root, s =>
    renderValueWith ctx (fun w s => renderValue n w horizon (depth + 1) false s)
      v horizon depth root s

/-- `SemanticExpression`, with the fields that the renderings read. -/
structure SemanticExpression where
  ok : Bool := true
  value : ValueId
  rootOp : OpId := invalidId
  text : Text := []
  operations : List OpId := []
  referencedValues : List ValueId := []
  truncated : Bool := false
  omittedNodes : Nat := 0

/-- The root rendering of a value: `render_value` as `build_uncached` calls it. -/
def renderRoot (v : ValueId) : Shown × RenderState :=
  renderValue ctx (ctx.options.maxDepth + 2) v
    ((ctx.module.valueDefinition v).getD invalidId) 0 true {}

/-- The cut that `max_characters` makes. -/
def cutText (limit : Nat) (text : Text) : Text :=
  if 3 < limit then text.take (limit - 3) ++ "..." else List.replicate limit '.'

/-- `build_uncached`, and so `build` and `build_named`. -/
def buildNamed (v : ValueId) : SemanticExpression :=
  if ctx.module.valueCount ≤ v then
    { ok := false, value := v, text := "invalid_value(" ++ decimal v ++ [')'] }
  else
    let shown := renderRoot ctx v
    let text := shown.1.rendered.text
    let cut := ctx.options.maxCharacters ≠ 0 ∧ ctx.options.maxCharacters < text.length
    let s := if cut then shown.2.omit else shown.2
    { value := v
      rootOp := (ctx.module.valueDefinition v).getD invalidId
      text := if cut then cutText ctx.options.maxCharacters text else text
      operations := s.operations
      referencedValues := s.values
      truncated := s.truncated
      omittedNodes := s.omitted }

end Airece
