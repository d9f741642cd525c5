import IndagoRev.Workbench.Listings

/-!
# The calculator of an investigation

A program is a list of assignments and an expression for one byte, which are evaluated for
a number of rounds over a slice of an artifact.  Expressions are JSON arrays.  All rounds
share one budget of expression nodes.
-/

namespace Indago

open StdText JsonValues Transactions

/-- The map of the variables, in the order of their names. -/
abbrev CalculationVars : Type := List (Text × UInt32)

variable (vars : CalculationVars)

/-- `vars[key] = value`. -/
def CalculationVars.assign (key : Text) (v : UInt32) : CalculationVars :=
  (vars.filter (fun f => f.1 ≠ key)).orderedInsert (fun f g => f.1 ≤ g.1) (key, v)

/-- `name`: letters, then digits and underscores too. The names `i` and `n` are reserved. -/
def isVariableName (s : Text) : Bool :=
  decide (s ≠ []) && decide (s.length ≤ 32) &&
    (s.take 1).all Char.isAlpha &&
    (s.drop 1).all (fun c => c.isAlphanum || c = '_') &&
    decide (s ≠ ['i']) && decide (s ≠ ['n'])

/-- `integer`. -/
def calculationInteger : Json → Except String UInt32
  | .int n =>
    if 0 ≤ n ∧ n ≤ 0xffffffff then .ok (UInt32.ofNat n.toNat)
    else .error "Calculation constants must be unsigned 32-bit integers"
  | _ => .error "Calculation constants must be unsigned 32-bit integers"

/-- The operators of two operands. -/
def binaryOperation (op : Text) (a b : UInt32) : Except String UInt32 :=
  if op = "add" then .ok (a + b)
  else if op = "sub" then .ok (a - b)
  else if op = "mul" then .ok (a.toUInt64 * b.toUInt64).toUInt32
  else if op = "xor" then .ok (a ^^^ b)
  else if op = "and" then .ok (a &&& b)
  else if op = "or" then .ok (a ||| b)
  else if op = "eq" then .ok (if a = b then 1 else 0)
  else if op = "lt" then .ok (if a < b then 1 else 0)
  else if op = "div" ∨ op = "mod" then
    if b = 0 then .error "Calculation division by zero"
    else .ok (if op = "div" then a / b else a % b)
  else if op = "shl" ∨ op = "shr" then
    if 32 ≤ b then .error "Calculation shift must be below 32"
    else .ok (if op = "shl" then a <<< b else a >>> b)
  else if op = "rol8" ∨ op = "ror8" then
    let v := a &&& 255
    let n := b % 8
    if n = 0 then .ok v
    else .ok (if op = "rol8" then ((v <<< n) ||| (v >>> (8 - n))) &&& 255
      else ((v >>> n) ||| (v <<< (8 - n))) &&& 255)
  else .error ("Unsupported calculation operator: " ++ String.ofList op)

section Evaluation

variable (input : List UInt8)

/-- `eval`, with the levels and the nodes that are left. -/
def evalCalculation (vars : CalculationVars) : Nat → Json → Nat → Except String (UInt32 × Nat)
  | 0, _, _ => .error "Calculation expression budget exhausted"
  | levels + 1, e, remaining =>
    if remaining = 0 then .error "Calculation expression budget exhausted"
    else
      match e with
      | .int n => do
        let v ← calculationInteger (.int n)
        pure (v, remaining - 1)
      | .str key =>
        match vars.lookup key with
        | some v => .ok (v, remaining - 1)
        | none => .error ("Unknown calculation variable: " ++ String.ofList key)
      | .arr (.str op :: args) =>
        if op = "select" then
          match args with
          | [condition, yes, no] => do
            let (v, remaining) ← evalCalculation vars levels condition (remaining - 1)
            evalCalculation vars levels (if v ≠ 0 then yes else no) remaining
          | _ => .error "select requires condition, true expression, false expression"
        else if op = "byte" ∨ op = "not" then
          match args with
          | [operand] => do
            let (a, remaining) ← evalCalculation vars levels operand (remaining - 1)
            if op = "not" then pure (~~~a, remaining)
            else
              match input[a.toNat]? with
              | some b => pure (b.toUInt32, remaining)
              | none => .error "Calculation byte index outside the source slice"
          | _ => .error "Unary calculation expression requires one operand"
        else
          match args with
          | [left, right] => do
            let (a, remaining) ← evalCalculation vars levels left (remaining - 1)
            let (b, remaining) ← evalCalculation vars levels right remaining
            let v ← binaryOperation op a b
            pure (v, remaining)
          | _ => .error "Binary calculation expression requires two operands"
      | _ => .error "Expected a calculation expression array"

/-- A name and the expression that it is set to. -/
structure CalculationStatement where
  set : Text
  value : Json

/-- The assignments of one round. -/
def assignAll : List CalculationStatement → CalculationVars → Nat →
    Except String (CalculationVars × Nat)
  | [], vars, remaining => .ok (vars, remaining)
  | s :: rest, vars, remaining => do
    let (v, remaining) ← evalCalculation input vars 17 s.value remaining
    assignAll rest (vars.assign s.set v) remaining

/-- The loop over the rounds, from round `i` on. -/
def calculationRounds (body : List CalculationStatement) (emit : Access Json) :
    Nat → Nat → CalculationVars → Nat → Except String (List UInt8 × CalculationVars × Nat)
  | 0, _, vars, remaining => .ok ([], vars, remaining)
  | rounds + 1, i, vars, remaining => do
    let (vars, remaining) ← assignAll input body (vars.assign ['i'] (UInt32.ofNat i)) remaining
    let emit' ← emit
    let (byte, remaining) ← evalCalculation input vars 17 emit' remaining
    if 255 < byte then
      .error "Calculation output must be a byte; explicitly mask wider results"
    else do
      let (output, vars, remaining) ← calculationRounds body emit rounds (i + 1) vars remaining
      pure (byte.toUInt8 :: output, vars, remaining)

end Evaluation

/-- `keys`. -/
def checkKeys (allowed : List Text) : Json → Access PUnit
  | .obj fields =>
    match fields.find? (fun f => !allowed.contains f.1) with
    | some f => .error ("unknown field: " ++ String.ofList f.1)
    | none => .ok ()
  | _ => .error "expected an object"

/-- `bound`. -/
def boundOf (r : Json) (key : Text) (fallback max : Nat) : Access Nat :=
  match r.get? key with
  | none => .ok fallback
  | some (.int n) =>
    if 0 ≤ n ∧ n ≤ max then .ok n.toNat else .error ("invalid bound: " ++ String.ofList key)
  | some _ => .error ("invalid bound: " ++ String.ofList key)

def hexText : Text := "0123456789abcdef"

/-- The bytes of hexadecimal pairs. -/
def sliceBytes : Text → List UInt8
  | a :: b :: rest => UInt8.ofNat (16 * hexDigit a + hexDigit b) :: sliceBytes rest
  | _ => []

/-- The two digits of a byte. -/
def hexPair (b : UInt8) : Text :=
  [hexText.getD (b.toNat / 16) '0', hexText.getD (b.toNat % 16) '0']

/-- One statement of the body, checked. -/
def readStatement (s : Json) : Access CalculationStatement := do
  checkKeys ["set", "value"] s
  let key ← s.at? "set"
  let key ← key.asText
  if isVariableName key = false then .error "Invalid or reserved calculation variable"
  else do
    let value ← s.at? "value"
    pure ⟨key, value⟩

/-- One of the variables that a program begins with. -/
def readVariable (f : Text × Json) : Access CalculationVars :=
  if isVariableName f.1 = false then .error "Invalid or reserved calculation variable"
  else do
    let v ← calculationInteger f.2
    pure (vars.assign f.1 v)

structure CalculationResult where
  hex : Text
  iterations : Nat
  vars : CalculationVars
  expressionSteps : Nat
  ascii : Option Text

/-- `vars.erase` of the reserved names. -/
def programVars : CalculationVars :=
  vars.filter (fun f => f.1 ≠ ['i'] ∧ f.1 ≠ ['n'])

/-- `InvestigationCalculation::run`. -/
def runCalculation (r : Json) (hex : Text) : Except String CalculationResult :=
  if 16384 < utf8Length r.dump then .error "Calculation program exceeds 16 KiB"
  else if hex = [] ∨ 2048 < hex.length ∨ hex.length % 2 = 1 ∨
      hex.all (fun c => hexText.contains c) = false then
    .error "Calculation requires bounded native hex bytes"
  else do
    let input := sliceBytes hex
    let iterations ← boundOf r "iterations" input.length 256
    if iterations = 0 then .error "Calculation requires at least one iteration"
    else do
      let initial ← r.value "variables" (.obj [])
      let body ← r.value "body" (.arr [])
      match initial, body with
      | .obj fields, .arr statements =>
        if 16 < fields.length ∨ 32 < statements.length then
          .error "Calculation permits 16 variables and 32 assignments"
        else do
          let vars ← fields.foldlM readVariable []
          let body ← statements.mapM readStatement
          if 16 < (fields.map Prod.fst ++ body.map CalculationStatement.set).dedup.length then
            .error "Calculation variable budget exhausted"
          else do
            let vars := vars.assign ['n'] (UInt32.ofNat input.length)
            let (output, vars, remaining) ←
              calculationRounds input body (r.at? "emit") iterations 0 vars 100000
            pure
              { hex := output.flatMap hexPair
                iterations := iterations
                vars := programVars vars
                expressionSteps := 100000 - remaining
                ascii :=
                  if output.all (fun b => 32 ≤ b && b ≤ 126) then
                    some (output.map (fun b => Char.ofNat b.toNat))
                  else none }
      | _, _ => .error "Calculation permits 16 variables and 32 assignments"

end Indago
