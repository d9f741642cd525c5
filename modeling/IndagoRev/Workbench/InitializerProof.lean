import IndagoRev.Workbench.Calculation
import IndagoRev.Workbench.X86Machine

/-!
# The proof of an initializer

A straight line of 32-bit code writes the bytes of a buffer in its frame and calls into it.
`recoveryNativeInitializer` follows the stores, the constants and the pointers of the line.
-/

namespace Indago

open StdText SecureHash

/-- A recovery, with the fields the proof reads. -/
structure InitializerRecovery where
  inputSize : Nat
  localBase : Int
  inputSha256 : Text

/-- What has been proved of an initializer. -/
structure InitializerProof where
  engine : Text := "XAIR"
  straightLine : Bool := true
  storeCount : Nat
  bufferEbpDisplacement : Int
  callOffset : Nat
  inputSha256 : Text

/-- What the line has done: its stores by offset, and what is in registers. -/
structure InitializerFacts where
  stores : List (Int × UInt8) := []
  constants : Nat → Option (BitVec 32) := fun _ => none
  pointers : Nat → Option Int := fun _ => none

inductive InitializerStep where
  | next (facts : InitializerFacts)
  | proved (proof : InitializerProof)

/-- `sha256_text`. -/
@[irreducible] def sha256Text (bytes : Bytes) : Text :=
  (Sha256.start.update bytes).finish.flatMap hexPair

/-- A register that the line may set. -/
def X86Register.isFree (r : X86Register) : Bool :=
  r.parent != x86Rbp && r.parent != x86Rsp && r.isPart 32

/-- A memory operand at a displacement from `ebp` alone. -/
def X86Memory.ofFrame (m : X86Memory) : Bool :=
  (match m.base with
    | some b => b.parent == x86Rbp
    | none => false) && m.index.isNone

variable (i : X86Inst)

/-- `mov r32, imm`. -/
def constantMove : Option (Nat × BitVec 32) :=
  match i.operand0.value, i.operand1.value with
  | .register r, .immediate imm =>
    if i.mnemonic = .mov ∧ i.flow = .normal ∧ r.isFree then some (r.parent, BitVec.ofInt 32 imm)
    else none
  | _, _ => none

/-- `mov byte [ebp + d], …`. -/
def byteStore : Option Int :=
  match i.operand0.value with
  | .memory m =>
    if i.mnemonic = .mov ∧ i.flow = .normal ∧ i.operand0.sizeBits = 8 ∧ m.ofFrame then
      some m.displacement
    else none
  | _ => none

variable (frame : Int)

/-- `lea r32, [ebp + d]`. -/
def framePointer (i : X86Inst) : Option (Nat × Int) :=
  match i.operand0.value, i.operand1.value with
  | .register r, .memory m =>
    if i.mnemonic = .lea ∧ r.isFree ∧ m.ofFrame ∧ m.displacement < 0 ∧
        -frame ≤ m.displacement then some (r.parent, m.displacement)
    else none
  | _, _ => none

variable (facts : InitializerFacts)

/-- `call r32`, through a pointer. -/
def pointerCall (i : X86Inst) : Option Int :=
  match i.operand0.value with
  | .register r => if i.flow = .indirectCall ∧ r.isPart 32 then facts.pointers r.parent else none
  | _ => none

/-- The byte that a store writes. -/
def storedByte (i : X86Inst) : Option UInt8 :=
  match i.operand1.value with
  | .immediate imm => some (lowByte (BitVec.ofInt 32 imm))
  | .register r => if r.isPart 8 then (facts.constants r.parent).map lowByte else none
  | _ => none

/-- The addresses of the stores follow each other. -/
def holeFree : Int → List (Int × UInt8) → Bool
  | _, [] => true
  | offset, (address, _) :: stores => address == offset && holeFree (offset + 1) stores

variable (recovery : InitializerRecovery)

/-- The checks at the call. -/
def proveBuffer (stores : List (Int × UInt8)) (pointer : Int)
    (offset : Nat) : Except String InitializerProof :=
  match stores with
  | [] => .error "Invoked native buffer differs from the Ghidra initializer range"
  | (first, _) :: _ =>
    if stores.length ≠ recovery.inputSize ∨ pointer ≠ first ∨ 4 - first ≠ recovery.localBase then
      .error "Invoked native buffer differs from the Ghidra initializer range"
    else if holeFree first stores = false then .error "Native initializer has a hole"
    else if sha256Text (stores.map Prod.snd) ≠ recovery.inputSha256 then
      .error "Native stores differ from reconstructed bytes"
    else
      .ok {
        storeCount := stores.length
        bufferEbpDisplacement := first
        callOffset := offset
        inputSha256 := recovery.inputSha256 }

/-- A store of the line. -/
def recordStore (i : X86Inst) (offset : Int) : Except String InitializerFacts :=
  if 0 ≤ offset ∨ offset < -frame ∨ offset ∈ facts.stores.map Prod.fst then
    .error "Initializer store is outside its frame or overwrites an earlier byte"
  else
    match storedByte facts i with
    | none => .error "Initializer byte has no exact constant definition"
    | some value => .ok { facts with
        stores := facts.stores.orderedInsert (fun a b => a.1 ≤ b.1) (offset, value) }

/-- One instruction of the line. -/
def initializerStep (offset : Nat) (i : X86Inst)
    (facts : InitializerFacts) : Except String InitializerStep :=
  if i.attributes.prefixed then
    .error "Prefixed initializer instruction is outside the flat 32-bit proof grammar"
  else if i.mnemonic = .nop ∧ i.flow = .normal then .ok (.next facts)
  else
    match constantMove i with
    | some (r, c) => .ok (.next { facts with
        constants := Function.update facts.constants r (some c)
        pointers := Function.update facts.pointers r none })
    | none =>
      match byteStore i with
      | some displacement => (recordStore frame facts i displacement).map .next
      | none =>
        match framePointer frame i with
        | some (r, p) => .ok (.next { facts with
            pointers := Function.update facts.pointers r (some p)
            constants := Function.update facts.constants r none })
        | none =>
          match pointerCall facts i with
          | some p => (proveBuffer recovery facts.stores p offset).map .proved
          | none =>
            .error "Unsupported initializer instruction, branch, call, or aliasing write"

/-- The line from an offset on.  Every instruction has a length, so the bound on offsets bounds
the steps. -/
def initializerRun (xair : X86Decoder) (bytes : Bytes) (frame : Int)
    (recovery : InitializerRecovery) : Nat → Nat → InitializerFacts → Except String InitializerProof
  | 0, _, _ => .error "No proven native transfer to the initialized buffer"
  | n + 1, offset, facts =>
    if bytes.length ≤ offset ∨ 16384 ≤ offset then
      .error "No proven native transfer to the initialized buffer"
    else
      match recoveryDecode xair bytes offset with
      | none => .error "Initializer decode failed"
      | some i =>
        match initializerStep frame recovery offset i facts with
        | .error e => .error e
        | .ok (.proved proof) => .ok proof
        | .ok (.next facts) => initializerRun xair bytes frame recovery n i.fallthrough facts

/-- The bytes of `push ebp` and `mov ebp, esp`. -/
def framePrologue (bytes : Bytes) : Bool :=
  decide (9 ≤ bytes.length) && bytes.take 1 == [0x55] &&
    ((bytes.drop 1).take 2 == [0x89, 0xe5] || (bytes.drop 1).take 2 == [0x8b, 0xec])

/-- `sub esp, imm`. -/
def frameAllocation : Option Int :=
  match i.operand0.value, i.operand1.value with
  | .register r, .immediate imm =>
    if i.mnemonic = .sub ∧ r.parent = x86Rsp ∧ r.isPart 32 then some imm else none
  | _, _ => none

/-- `recovery_native_initializer`. -/
def recoveryNativeInitializer (xair : X86Decoder) (bytes : Bytes) (recovery : InitializerRecovery) :
    Except String InitializerProof :=
  if framePrologue bytes = false then .error "Initializer requires an unambiguous EBP frame"
  else
    match recoveryDecode xair bytes 3 with
    | none => .error "Initializer stack allocation is unsupported"
    | some alloc =>
      match frameAllocation alloc with
      | none => .error "Initializer stack allocation is unsupported"
      | some frame =>
        if frame < 16 ∨ 65536 < frame then .error "Initializer frame bound exceeded"
        else initializerRun xair bytes frame recovery 16384 alloc.fallthrough {}

end Indago
