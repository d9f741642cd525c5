import IndagoRev.Airece.FlowTaint

/-!
# Stack offsets

Variables, loops and taint each find by themselves how far an address lies from a
stack register: three recursions over the same chain of additions, subtractions and
casts.  They read the constants differently, and only one of them looks whether a
sum still fits.
-/

namespace Airece

open StdText

/-- The bounds of `std::int64_t`. -/
def int64Min : Int := -9223372036854775808

def int64Max : Int := 9223372036854775807

def inInt64 (x : Int) : Prop := int64Min ≤ x ∧ x ≤ int64Max

instance (x : Int) : Decidable (inInt64 x) := inferInstanceAs (Decidable (_ ∧ _))

theorem inInt64_toInt (w : BitVec 64) : inInt64 w.toInt := by
  have hle := BitVec.le_toInt w
  have hlt := BitVec.toInt_lt (x := w)
  unfold inInt64 int64Min int64Max
  omega

variable (m : XairModule) (v : ValueId)

/-- `ControlRecovery::constant_i64`. -/
def constantI64 : Option Int :=
  match m.definingOp v with
  | some (_, o) =>
    if o.opcode = .constU64 then some (BitVec.ofNat 64 o.immediateLow).toInt else none
  | none => none

/-- A word of some width, with its sign in the bits above it. -/
def signedBits (bits : Nat) (lo : BitVec 64) : BitVec 64 :=
  if bits ≠ 0 ∧ bits < 64 then
    let mask := (1#64 <<< bits) - 1#64
    let lo := lo &&& mask
    let sign := 1#64 <<< (bits - 1)
    if lo &&& sign ≠ 0 then lo ||| ~~~mask else lo
  else lo

/-- `VariableRecovery::constant_signed`. -/
def constantSigned : Option Int :=
  match m.definingOp v with
  | some (_, o) =>
    if o.opcode = .constU64 then
      some (signedBits (m.valueType v).bits (BitVec.ofNat 64 o.immediateLow)).toInt
    else none
  | none => none

/-- `constant_value` of `directed_flow`, as `std::int64_t`. -/
def constantStorage : Option Int :=
  (moduleConstant m v).map BitVec.toInt

/-- What a recursion finds at a value: a stack register, a cast with whether it has one
operand, or the sum or difference of two values. -/
inductive StackNode where
  | register
  | cast (input : ValueId) (single : Bool)
  | move (subtract : Bool) (base amount : ValueId)
  | other

/-- The names of the stack registers. -/
def isStackName (name : Text) : Bool :=
  name = "rsp" || name = "esp" || name = "rbp" || name = "ebp"

/-- The names in small letters. -/
def isLowerStackName (name : Text) : Bool := isStackName (lower name)

def stackNode (isRegister : Text → Bool) (m : XairModule) (v : ValueId) : StackNode :=
  if isRegister (m.valueName v) then .register
  else
    match m.definingOp v with
    | none => .other
    | some (_, o) =>
      if keepsOffset o.opcode then
        match o.inputs with
        | a :: rest => .cast a rest.isEmpty
        | [] => .other
      else if isAddition o.opcode || isSubtraction o.opcode then
        match o.inputs with
        | a :: b :: _ => .move (isSubtraction o.opcode) a b
        | _ => .other
      else .other

/-- What a recursion answers: no offset, an overflow on the way, or an offset with the
register where it ended. -/
inductive OffsetResult where
  | nowhere
  | overflow
  | offset (root : ValueId) (value : Int)
  deriving DecidableEq

variable (subtract : Bool)

/-- `*base + (subtract ? -amount : amount)` of signed words. -/
def OffsetResult.shift (amount : Int) : OffsetResult → OffsetResult
  | .offset root base =>
    if subtract then
      if amount = int64Min then .overflow
      else if inInt64 (base + -amount) then .offset root (base + -amount) else .overflow
    else if inInt64 (base + amount) then .offset root (base + amount) else .overflow
  | result => result

/-- `ControlRecovery::stack_offset`, with the calls that are left before its depth ends. -/
def stackOffset (m : XairModule) : Nat → ValueId → OffsetResult
  | 0, _ => .nowhere
  | n + 1, v =>
    match stackNode isStackName m v with
    | .register => .offset v 0
    | .cast a _ => stackOffset m n a
    | .move subtract a b =>
      match constantI64 m b with
      | some amount => (stackOffset m n a).shift subtract amount
      | none => .nowhere
    | .other => .nowhere

/-- `stack_storage_offset`.  It looks for the base also where the amount is no constant. -/
def stackStorage (m : XairModule) : Nat → ValueId → OffsetResult
  | 0, _ => .nowhere
  | n + 1, v =>
    match stackNode isLowerStackName m v with
    | .register => .offset v 0
    | .cast a _ => stackStorage m n a
    | .move subtract a b =>
      match constantStorage m b, stackStorage m n a with
      | some amount, base => base.shift subtract amount
      | none, .overflow => .overflow
      | none, _ => .nowhere
    | .other => .nowhere

/-- Whether a sum or difference stays within the bounds. -/
def affineValid (offset constant : Int) : Bool :=
  if subtract then
    (0 ≤ constant && int64Min + constant ≤ offset) ||
      (constant < 0 && offset ≤ int64Max + constant)
  else
    (0 ≤ constant && offset ≤ int64Max - constant) ||
      (constant < 0 && int64Min - constant ≤ offset)

/-- An offset moved by a constant, where both are there and the result fits. -/
def affineMove (constant : Option Int) (base : Option (ValueId × Int)) : Option (ValueId × Int) :=
  match constant, base with
  | some constant, some (root, offset) =>
    if affineValid subtract offset constant then
      some (root, if subtract then offset - constant else offset + constant)
    else none
  | _, _ => none

/-- `VariableRecovery::affine_stack_impl`, with the values that are being looked at. -/
def affineStackFrom (m : XairModule) : Nat → List ValueId → ValueId → Option (ValueId × Int)
  | 0, _, _ => none
  | n + 1, active, v =>
    if m.valueCount ≤ v ∨ v ∈ active then none
    else
      match stackNode isLowerStackName m v with
      | .register => some (v, 0)
      | .cast a single => if single then affineStackFrom m n (v :: active) a else none
      | .move subtract a b =>
        match affineMove subtract (constantSigned m b) (affineStackFrom m n (v :: active) a) with
        | some result => some result
        | none =>
          if subtract then none
          else affineMove false (constantSigned m a) (affineStackFrom m n (v :: active) b)
      | .other => none

/-- `VariableRecovery::affine_stack`. -/
def affineStack : Option (ValueId × Int) :=
  affineStackFrom m 17 [] v

/-- One step of a chain, from the outside. -/
inductive ChainStep where
  | cast (single : Bool)
  | move (subtract : Bool) (amount : ValueId)

/-- The way from a value along first operands to a stack register, and what lies on it. -/
def stackChain (isRegister : Text → Bool) (m : XairModule) :
    Nat → ValueId → Option (ValueId × List ChainStep)
  | 0, _ => none
  | n + 1, v =>
    match stackNode isRegister m v with
    | .register => some (v, [])
    | .cast a single =>
      (stackChain isRegister m n a).map (fun chain => (chain.1, .cast single :: chain.2))
    | .move subtract a b =>
      (stackChain isRegister m n a).map (fun chain => (chain.1, .move subtract b :: chain.2))
    | .other => none

/-- The sum after one step. -/
def movedBy (base amount : Int) : Int :=
  if subtract then base - amount else base + amount

/-- The sum of a chain's constants, as they are read. -/
def chainTotal (read : ValueId → Option Int) : List ChainStep → Option Int
  | [] => some 0
  | .cast _ :: rest => chainTotal read rest
  | .move subtract b :: rest =>
    match chainTotal read rest, read b with
    | some base, some amount => some (movedBy subtract base amount)
    | _, _ => none

/-- All partial sums of a chain are signed words. -/
def SumsFit (read : ValueId → Option Int) : List ChainStep → Prop
  | [] => True
  | .cast _ :: rest => SumsFit read rest
  | .move subtract b :: rest =>
    SumsFit read rest ∧ ∀ base amount, chainTotal read rest = some base → read b = some amount →
      inInt64 (movedBy subtract base amount)

/-- All partial sums of a chain are signed words, and so is what is added instead of a
subtraction. -/
def ChainFits (read : ValueId → Option Int) : List ChainStep → Prop
  | [] => True
  | .cast _ :: rest => ChainFits read rest
  | .move subtract b :: rest =>
    ChainFits read rest ∧ ∀ base amount, chainTotal read rest = some base →
      read b = some amount → (subtract = true → amount ≠ int64Min) ∧
        inInt64 (movedBy subtract base amount)

/-- All casts of a chain have one operand. -/
def CastsSingle (chain : List ChainStep) : Prop := ChainStep.cast false ∉ chain

end Airece
