import IndagoRev.Airece.FlowSearch

/-!
# Symbolic checks of a path

`run_symbolic` gives symbols to the sources and to the loaded bytes that carry their
tags, translates the conditions of the branches on a path, assumes them and asks the
solver.  The solver library is not part of this repository: it is a parameter, whose
one state stands for the context, its expressions and the path state that is open.
-/

namespace Airece

open StdText

/-- `xair_sym_expr_id`. -/
abbrev ExprId := Nat

/-- `xair_sym_status`: the statuses that directed flow tells apart, and all others. -/
inductive SymStatus where
  | ok | unsupported | solverTimeout
  | other (code : Nat)
  deriving DecidableEq

/-- `xair_sym_sat`. -/
inductive SymSat where
  | sat | unsat | unknown
  deriving DecidableEq

/-- The functions of the solver library that directed flow calls.  A function that makes
an expression gives none when its status is not that of a success. -/
structure SymbolicEngine (σ : Type) where
  /-- `symbolic_context` of the session: the message of its diagnostic when it fails. -/
  context : σ → Option Text × σ
  /-- `xair_sym_context_set_analysis_options`. -/
  setOptions : FlowOptions → σ → σ
  symbol : Nat → Text → σ → Option ExprId × σ
  constWide : Nat → Nat → Nat → σ → Option ExprId × σ
  unary : Opcode → Nat → ExprId → Nat → σ → (SymStatus × ExprId) × σ
  binary : Opcode → Nat → ExprId → ExprId → σ → (SymStatus × ExprId) × σ
  select : ExprId → ExprId → ExprId → σ → Option ExprId × σ
  stateCreate : BlockId → σ → Bool × σ
  assume : ExprId → σ → Bool × σ
  check : σ → (SymStatus × SymSat) × σ
  modelWord : ExprId → σ → Option Nat × σ
  modelBytes : List ExprId → σ → Option (List Nat) × σ
  stateDestroy : σ → σ
  solverInitialized : σ → Bool
  statusName : SymStatus → Text

variable {σ : Type} (e : SymbolicEngine σ)

/-- The expressions of values. -/
abbrev Translations := ValueId → Option ExprId

/-- `Translator`. -/
structure Translator (σ : Type) where
  cache : Translations
  failure : Text := []
  engine : σ

/-- The symbol that stands for a value. -/
def fallbackSymbol (v : ValueId) : Text := "xair_v" ++ decimal v

/-- `Translator::value`, with the values that are being translated.  Every call but the
last adds a value of the module to them. -/
def translateFrom (m : XairModule) :
    Nat → List ValueId → ValueId → Translator σ → Option ExprId × Translator σ
  | 0, _, _, t => (none, t)
  | n + 1, active, v, t =>
    match t.cache v with
    | some expression => (some expression, t)
    | none =>
      if active.contains v then (none, t)
      else
        let bits := (m.valueType v).bits
        let keep := fun (expression : ExprId) (t : Translator σ) =>
          (some expression, { t with cache := Function.update t.cache v (some expression) })
        let text := 'v' :: decimal v
        if bits = 0 then
          (none, { t with failure := text ++ " has a zero-width XAIR type" })
        else
          match m.valueDefinition v with
          | none =>
            match e.symbol bits (fallbackSymbol v) t.engine with
            | (some expression, x) => keep expression { t with engine := x }
            | (none, x) =>
              (none,
                { t with
                  engine := x
                  failure := "could not create fallback symbol for " ++ text })
          | some definition =>
            match m.op definition with
            | none =>
              (none,
                { t with failure := "could not read definition for " ++ text })
            | some o =>
              if o.opcode = .constU64 ∨ o.opcode = .constWide then
                match e.constWide bits o.immediateLow o.immediateHigh t.engine with
                | (some expression, x) => keep expression { t with engine := x }
                | (none, x) =>
                  (none,
                    { t with
                      engine := x
                      failure := "could not translate constant " ++ text })
              else
                match o.inputs with
                | [a] =>
                  match translateFrom m n (v :: active) a t with
                  | (none, t) => (none, t)
                  | (some source, t) =>
                    match e.unary o.opcode bits source 0 t.engine with
                    | ((.ok, expression), x) => keep expression { t with engine := x }
                    | ((status, _), x) =>
                      (none,
                        { t with
                          engine := x
                          failure :=
                            text ++ [' '] ++ m.opcodeName o.opcode ++
                              " unary status=" ++ e.statusName status })
                | [a, b] =>
                  let (left, t) := translateFrom m n (v :: active) a t
                  let (right, t) := translateFrom m n (v :: active) b t
                  match left, right with
                  | some left, some right =>
                    match e.binary o.opcode bits left right t.engine with
                    | ((.ok, expression), x) => keep expression { t with engine := x }
                    | ((status, _), x) =>
                      (none,
                        { t with
                          engine := x
                          failure :=
                            text ++ [' '] ++ m.opcodeName o.opcode ++
                              " binary status=" ++ e.statusName status ++
                              " bits=" ++ decimal bits })
                  | _, _ => (none, t)
                | inputs =>
                  match if o.opcode = .select then inputs else [] with
                  | [a, b, c] =>
                    let (condition, t) := translateFrom m n (v :: active) a t
                    let (yes, t) := translateFrom m n (v :: active) b t
                    let (no, t) := translateFrom m n (v :: active) c t
                    match condition, yes, no with
                    | some condition, some yes, some no =>
                      match e.select condition yes no t.engine with
                      | (some expression, x) =>
                        keep expression { t with engine := x }
                      | (none, x) => (none, { t with engine := x })
                    | _, _, _ => (none, t)
                  | _ =>
                    match e.symbol bits (fallbackSymbol v) t.engine with
                    | (some expression, x) => keep expression { t with engine := x }
                    | (none, x) => (none, { t with engine := x })

variable (m : XairModule)

/-- `Translator::value`. -/
def translate (v : ValueId) (t : Translator σ) : Option ExprId × Translator σ :=
  translateFrom e m (m.valueCount + 1) [] v t

/-- `SymbolRecord`. -/
structure SymbolRecord where
  source : Nat
  scalar : Option ExprId := none
  byteBegin : Nat := 0
  bytes : List ExprId := []

/-- The symbols of a path: what stands for which value, the records to be read back, and
the symbols of bytes by their keys. -/
structure Symbols (σ : Type) where
  overrides : Translations := fun _ => none
  records : List SymbolRecord := []
  byteSymbols : List (Nat × ExprId) := []
  engine : σ

/-- The symbol of one value of a source, and the first of them. -/
def symbolizeValue (name : Text) (s : Symbols σ × Option ExprId)
    (v : ValueId) : Symbols σ × Option ExprId :=
  let bits := (m.valueType v).bits
  if bits = 0 then s
  else
    match e.symbol bits (name ++ "_v" ++ decimal v) s.1.engine with
    | (none, x) => ({ s.1 with engine := x }, s.2)
    | (some symbol, x) =>
      ({ s.1 with
          engine := x, overrides := Function.update s.1.overrides v (some symbol) },
        s.2.or (some symbol))

/-- The symbols of the values of a source. -/
def symbolizeSource (s : Symbols σ) (point : ResolvedFlowPoint × Nat) : Symbols σ :=
  if point.1.selector.kind = .buffer ∨ point.1.selector.kind = .memory then s
  else
    let (s, scalar) :=
      point.1.values.foldl (symbolizeValue e m point.1.selector.name) (s, none)
    match scalar with
    | none => s
    | some scalar => { s with records := s.records ++ [{ source := point.2, scalar := scalar }] }

/-- The key of a byte of a source. -/
def byteKey (source offset : Nat) : Nat := (source <<< 32) % 2 ^ 64 ||| offset

/-- The symbols of some bytes of a source, until one cannot be made. -/
def symbolizeBytes (name : Text) (source : Nat) : List Nat → Symbols σ → List ExprId × Symbols σ
  | [], s => ([], s)
  | offset :: rest, s =>
    match s.byteSymbols.lookup (byteKey source offset) with
    | some symbol =>
      let (bytes, s) := symbolizeBytes name source rest s
      (symbol :: bytes, s)
    | none =>
      match e.symbol 8 (name ++ "_byte_" ++ decimal offset) s.engine with
      | (none, x) => ([], { s with engine := x })
      | (some symbol, x) =>
        let (bytes, s) :=
          symbolizeBytes name source rest
            { s with
              engine := x
              byteSymbols := s.byteSymbols ++ [(byteKey source offset, symbol)] }
        (symbol :: bytes, s)

/-- The loop of `concat_bytes`, over the lower bytes from the highest on. -/
def concatFrom : List ExprId → Nat → ExprId → σ → Option ExprId × σ
  | [], _, high, x => (some high, x)
  | low :: rest, bits, high, x =>
    let bits := (bits + 8) % 2 ^ 16
    match e.binary .concat bits high low x with
    | ((.ok, expression), x) => concatFrom rest bits expression x
    | (_, x) => (none, x)

/-- `concat_bytes`. -/
def concatBytes (bytes : List ExprId) (x : σ) : Option ExprId × σ :=
  match bytes.reverse with
  | [] => (none, x)
  | high :: lower => concatFrom e lower 8 high x

/-- The number of bytes of a tag. -/
def Tag.byteCount (t : Tag) : Nat := if t.start ≤ t.stop then (t.stop - t.start + 1) % 2 ^ 64 else 0

variable (o : FlowOptions) (sources : List ResolvedFlowPoint)

/-- One tag of a loaded value. -/
def symbolizeTag (v : ValueId) (s : Symbols σ) (t : Tag) : Symbols σ :=
  match sources[t.source]? with
  | none => s
  | some point =>
    if t.bytes = false ∨ t.pointer = true ∨ t.byteCount = 0 ∨
        (o.maxSymbolicBytes ≠ 0 ∧ o.maxSymbolicBytes < t.byteCount) then s
    else
      let (bytes, s) :=
        symbolizeBytes e point.selector.name t.source (List.range' t.start t.byteCount) s
      let (expression, x) := concatBytes e bytes s.engine
      let s := { s with engine := x }
      match expression with
      | none => s
      | some expression =>
        { s with overrides := Function.update s.overrides v (some expression) }

/-- The tags of one loaded value. -/
def symbolizeLoad (tags : Tags) (s : Symbols σ) (v : ValueId) : Symbols σ :=
  match m.definingOp v with
  | some (_, op) =>
    if op.opcode = .load then (tags.of v).foldl (symbolizeTag e o sources v) s else s
  | none => s

/-- The record of the bytes of a source. -/
def byteRecord (byteSymbols : List (Nat × ExprId)) (source : Nat) : Option SymbolRecord :=
  let ordered :=
    ((byteSymbols.filter (fun b => b.1 >>> 32 == source)).map
      (fun b => (b.1 % 2 ^ 32, b.2))).insertionSort pairBefore
  match ordered with
  | [] => none
  | first :: _ =>
    some { source := source, byteBegin := first.1, bytes := ordered.map Prod.snd }

/-- All symbols of a path. -/
def symbolize (tags : Tags) (x : σ) : Symbols σ :=
  let s := sources.zipIdx.foldl (symbolizeSource e m) { engine := x }
  let s := (List.range m.valueCount).foldl (symbolizeLoad e m o sources tags) s
  { s with
    records := s.records ++ (List.range sources.length).filterMap (byteRecord s.byteSymbols) }

/-- The path condition while it is assumed. -/
structure Assumed (σ : Type) where
  translator : Translator σ
  result : DirectedFlowResult

/-- The condition of a branch as it is assumed: negated on the way that is taken when it
is false. -/
def branchCondition (edge : CfgEdge) (condition : ExprId) (x : σ) : Option ExprId × σ :=
  if edge.kind = .cbranchFalse then
    let bits := (m.valueType edge.condition).bits
    match e.constWide bits 0 0 x with
    | (none, x) => (none, x)
    | (some zeroId, x) =>
      match e.binary .eq 1 condition zeroId x with
      | ((.ok, negated), x) => (some negated, x)
      | (_, x) => (none, x)
  else (some condition, x)

variable (s : FlowSession)

/-- The text of a branch condition. -/
def branchText (edge : CfgEdge) : Text :=
  let text := s.expressionText edge.condition
  if edge.kind = .cbranchFalse then "not (" ++ text ++ [')'] else text

variable (m : XairModule)

/-- One edge of the path.  The first part is whether it is supported. -/
def assumeEdge (tags : Tags) (id : EdgeId) (a : Assumed σ) : Bool × Assumed σ :=
  match (s.cfg.edge id).filter (fun edge => edge.condition != invalidId) with
  | none => (true, a)
  | some edge =>
    let text := 'v' :: decimal edge.condition
    let unsupported := fun (diagnostic : Text) (t : Translator σ) =>
      (false, { translator := t, result := { a.result with diagnostic := diagnostic } })
    match translate e m edge.condition a.translator with
    | (none, t) =>
      unsupported
        ("could not translate path condition " ++ text ++ ": " ++ t.failure) t
    | (some condition, t) =>
      match branchCondition e m edge condition t.engine with
      | (none, x) =>
        unsupported ("could not negate path condition " ++ text) { t with engine := x }
      | (some condition, x) =>
        match e.assume condition x with
        | (false, x) =>
          unsupported ("could not assume path condition " ++ text)
            { t with engine := x }
        | (true, x) =>
          (true,
            { translator := { t with engine := x }
              result :=
                { a.result with
                  constraints := a.result.constraints ++ [branchText s edge]
                  sourceConstrained :=
                    a.result.sourceConstrained ||
                      (List.range a.result.sources.length).any
                        (tagForSource tags edge.condition) } })

/-- The edges of a path, until one is not supported. -/
def assumePath (s : FlowSession) (m : XairModule) (tags : Tags) :
    List EdgeId → Assumed σ → Bool × Assumed σ
  | [], a => (true, a)
  | id :: rest, a =>
    match assumeEdge e s m tags id a with
    | (true, a) => assumePath s m tags rest a
    | (false, a) => (false, a)

/-- What a satisfying assignment says about a source. -/
def readWitness (w : List FlowWitness × σ) (record : SymbolRecord) : List FlowWitness × σ :=
  let (scalar, x) :=
    match record.scalar with
    | some scalar => e.modelWord scalar w.2
    | none => (none, w.2)
  match scalar with
  | some value => (w.1 ++ [{ source := record.source, scalar := value }], x)
  | none =>
    if record.bytes = [] then (w.1, x)
    else
      match e.modelBytes record.bytes x with
      | (some bytes, x) =>
        (w.1 ++
          [{ source := record.source, byteValues := true, offsetBegin := record.byteBegin
             bytes := bytes }], x)
      | (none, x) => (w.1, x)

/-- What the solver's answer does to the result. -/
def recordAnswer (records : List SymbolRecord) (answer : SymStatus × SymSat)
    (r : DirectedFlowResult) (x : σ) : DirectedFlowResult × σ :=
  let r := { r with queries := r.queries + 1 }
  if answer.1 = .solverTimeout then
    ({ r with completion := .timeout, verdict := .unknown }, x)
  else if answer.1 ≠ .ok ∨ answer.2 = .unknown then
    ({ r with
        completion := .unknown, verdict := .unknown, diagnostic := e.statusName answer.1 }, x)
  else if answer.2 = .unsat then ({ r with verdict := .infeasible }, x)
  else
    let (witnesses, x) := records.foldl (readWitness e) (r.witnesses, x)
    ({ r with verdict := .feasibleFlow, witnesses := witnesses }, x)

/-- `symbolic path has no XAIR entry block`, and the other texts of early returns. -/
def noEntryBlock : Text := "symbolic path has no XAIR entry block"

/-- What a check of a path leaves: the answer of the solver when it was asked, the result
and the state of the solver library. -/
structure Checked (σ : Type) where
  answer : Option (SymStatus × SymSat) := none
  result : DirectedFlowResult
  engine : σ

/-- `run_symbolic`, once the path state is open. -/
def checkPath (tags : Tags) (path : PathRecord)
    (symbols : Symbols σ) (r : DirectedFlowResult) : Checked σ :=
  let start : Assumed σ :=
    { translator := { cache := symbols.overrides, engine := symbols.engine }, result := r }
  match assumePath e s m tags path.edges start with
  | (false, a) =>
    let x := e.stateDestroy a.translator.engine
    { result :=
        { a.result with
          completion := .unknown
          solverInitialized := e.solverInitialized x }
      engine := x }
  | (true, a) =>
    let (answer, x) := e.check a.translator.engine
    let (r, x) := recordAnswer e symbols.records answer a.result x
    { answer := some answer
      result := { r with solverInitialized := e.solverInitialized x }
      engine := e.stateDestroy x }

/-- `run_symbolic`. -/
def runSymbolic (o : FlowOptions) (tags : Tags)
    (path : PathRecord) (r : DirectedFlowResult) (x : σ) : Checked σ :=
  if o.maxQueries ≠ 0 ∧ o.maxQueries ≤ r.queries then
    { result := { r with completion := .limited }, engine := x }
  else
    match e.context x with
    | (some message, x) =>
      { result := { r with completion := .unknown, diagnostic := message }, engine := x }
    | (none, x) =>
      match path.nodes.head?.bind s.cfg.block with
      | none =>
        { result := { r with completion := .unknown, diagnostic := noEntryBlock }, engine := x }
      | some block =>
        let symbols := symbolize e m o r.sources tags (e.setOptions o x)
        match e.stateCreate block symbols.engine with
        | (false, x) =>
          { result :=
              { r with
                completion := .unknown
                diagnostic := "xair_sym could not create a path state" }
            engine := x }
        | (true, x) => checkPath e s m tags path { symbols with engine := x } r

end Airece
