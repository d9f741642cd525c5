import IndagoRev.Workbench.Sha256

/-!
# Decoded 32-bit code

The decoder is XAIR's.  Its instructions are run on registers, which have parts, and on a flat
memory of bytes.  Of the prefixes, only those of addresses matter here.
-/

namespace Indago

open SecureHash

/-- `xair_x86_mnemonic`. -/
inductive X86Mnemonic where
  | push
  | mov
  | sub
  | nop
  | lea
  | call
  | other (code : Nat)
  deriving DecidableEq

/-- `xair_x86_flow`. -/
inductive X86Flow where
  | normal
  | conditionalJump
  | directJump
  | indirectJump
  | directCall
  | indirectCall
  | other (code : Nat)
  deriving DecidableEq

/-- The parents of `esp` and `ebp`. -/
def x86Rsp : Nat := 4

def x86Rbp : Nat := 5

/-- A register operand: a part of its parent. -/
structure X86Register where
  isGpr : Bool := true
  parent : Nat
  width : Nat
  bitOffset : Nat := 0
  deriving DecidableEq

/-- `reg`: a whole part of a general register. -/
def X86Register.isPart (r : X86Register) (width : Nat) : Bool :=
  r.isGpr && r.width == width && r.bitOffset == 0

/-- A memory operand. -/
structure X86Memory where
  base : Option X86Register := none
  index : Option X86Register := none
  scale : Nat := 1
  displacement : Int := 0
  deriving DecidableEq

inductive X86Value where
  | none
  | register (r : X86Register)
  | immediate (imm : Int)
  | memory (m : X86Memory)
  deriving DecidableEq

/-- `xair_x86_operand`. -/
structure X86Operand where
  value : X86Value := .none
  sizeBits : Nat := 0
  deriving DecidableEq

/-- The prefixes of an instruction. -/
structure X86Attributes where
  addressSize : Bool := false
  operandSize : Bool := false
  segment : Bool := false
  lock : Bool := false
  rep : Bool := false
  repne : Bool := false
  deriving DecidableEq

def X86Attributes.prefixed (a : X86Attributes) : Bool :=
  a.addressSize || a.operandSize || a.segment || a.lock || a.rep || a.repne

/-- `xair_x86_decoded_inst`, with its first two operands. -/
structure X86Inst where
  mnemonic : X86Mnemonic
  flow : X86Flow := .normal
  attributes : X86Attributes := {}
  operand0 : X86Operand := {}
  operand1 : X86Operand := {}
  length : Nat
  fallthrough : Nat
  error : Bool := false
  deriving DecidableEq

/-- `xair_x86_decode_instruction` on the bytes from an offset on. -/
abbrev X86Decoder := Bytes → Nat → Option X86Inst

/-- `recovery_decode`. -/
def recoveryDecode (xair : X86Decoder) (bytes : Bytes) (offset : Nat) : Option X86Inst :=
  if bytes.length ≤ offset then none
  else
    (xair (bytes.drop offset) offset).filter (fun i =>
      !i.error && decide (0 < i.length) && decide (i.fallthrough = offset + i.length))

def lowByte (v : BitVec 32) : UInt8 := UInt8.ofBitVec (v.setWidth 8)

/-- The registers by parent, and a flat memory.  Flags are left out: none is read. -/
structure X86State where
  regs : Nat → BitVec 32
  mem : BitVec 32 → UInt8
  segmentBase : BitVec 32 := 0
  eip : Nat := 0

namespace X86State

variable (s : X86State)

/-- The bits of a part of a register. -/
def partMask (r : X86Register) : BitVec 32 := ((1#32 <<< r.width) - 1#32) <<< r.bitOffset

def readRegister (r : X86Register) : BitVec 32 := (s.regs r.parent &&& partMask r) >>> r.bitOffset

/-- The other bits of the register stay. -/
def writeRegister (r : X86Register) (v : BitVec 32) : X86State :=
  let kept := s.regs r.parent &&& ~~~partMask r
  { s with regs := Function.update s.regs r.parent (kept ||| ((v <<< r.bitOffset) &&& partMask r)) }

def registerOr : Option X86Register → BitVec 32
  | none => 0
  | some r => s.regs r.parent

/-- The offset of a memory operand. -/
def offsetOf (a : X86Attributes) (m : X86Memory) : BitVec 32 :=
  let sum := s.registerOr m.base + s.registerOr m.index * BitVec.ofNat 32 m.scale +
    BitVec.ofInt 32 m.displacement
  if a.addressSize then (sum.setWidth 16).setWidth 32 else sum

/-- The address of a memory operand. -/
def addressOf (a : X86Attributes) (m : X86Memory) : BitVec 32 :=
  s.offsetOf a m + if a.segment then s.segmentBase else 0

/-- The bytes at an address, lowest first. -/
def loadBytes (mem : BitVec 32 → UInt8) : BitVec 32 → Nat → BitVec 32
  | _, 0 => 0
  | address, n + 1 =>
    (loadBytes mem (address + 1) n <<< 8) ||| (mem address).toBitVec.setWidth 32

def storeBytes (mem : BitVec 32 → UInt8) (address v : BitVec 32) : Nat → BitVec 32 → UInt8
  | 0 => mem
  | n + 1 => storeBytes (Function.update mem address (lowByte v)) (address + 1) (v >>> 8) n

/-- The value of an operand. -/
def read (a : X86Attributes) (o : X86Operand) : Option (BitVec 32) :=
  match o.value with
  | .register r => if r.isGpr then some (s.readRegister r) else none
  | .immediate imm => some (BitVec.ofInt 32 imm)
  | .memory m => some (loadBytes s.mem (s.addressOf a m) (o.sizeBits / 8))
  | .none => none

/-- A value is put where an operand is. -/
def write (a : X86Attributes) (o : X86Operand) (v : BitVec 32) : Option X86State :=
  match o.value with
  | .register r => if r.isGpr then some (s.writeRegister r v) else none
  | .memory m =>
    some { s with mem := storeBytes s.mem (s.addressOf a m) v (o.sizeBits / 8) }
  | _ => none

def push (v : BitVec 32) : X86State :=
  { s with
    regs := Function.update s.regs x86Rsp (s.regs x86Rsp - 4)
    mem := storeBytes s.mem (s.regs x86Rsp - 4) v 4 }

/-- What an instruction does to the registers and the memory. -/
def execute (i : X86Inst) : Option X86State :=
  match i.mnemonic with
  | .nop => some s
  | .mov => (s.read i.attributes i.operand1).bind (s.write i.attributes i.operand0)
  | .lea =>
    match i.operand1.value with
    | .memory m => s.write i.attributes i.operand0 (s.offsetOf i.attributes m)
    | _ => none
  | .sub =>
    (s.read i.attributes i.operand0).bind (fun l =>
      (s.read i.attributes i.operand1).bind (fun r => s.write i.attributes i.operand0 (l - r)))
  | .push => (s.read i.attributes i.operand0).map s.push
  | _ => none

/-- The instruction at `eip` is executed. -/
def step (xair : X86Decoder) (bytes : Bytes) : Option X86State :=
  (recoveryDecode xair bytes s.eip).bind (fun i =>
    (s.execute i).map (fun s => { s with eip := i.fallthrough }))

/-- A number of instructions. -/
def steps (xair : X86Decoder) (bytes : Bytes) : Nat → X86State → Option X86State
  | 0, s => some s
  | n + 1, s => (s.step xair bytes).bind (steps xair bytes n)

end X86State

section Parts

variable {s : X86State} {r : X86Register}

theorem isPart_eq {width : Nat} (h : r.isPart width = true) :
    r.isGpr = true ∧ r.width = width ∧ r.bitOffset = 0 := by
  unfold X86Register.isPart at h
  rw [Bool.and_eq_true, Bool.and_eq_true, beq_iff_eq, beq_iff_eq] at h
  exact ⟨h.1.1, h.1.2, h.2⟩

theorem partMask_whole (h : r.isPart 32 = true) : X86State.partMask r = BitVec.allOnes 32 := by
  obtain ⟨-, hwidth, hoffset⟩ := isPart_eq h
  unfold X86State.partMask
  rw [hwidth, hoffset]
  decide

theorem readRegister_whole (h : r.isPart 32 = true) : s.readRegister r = s.regs r.parent := by
  unfold X86State.readRegister
  rw [partMask_whole h, (isPart_eq h).2.2, BitVec.and_allOnes, BitVec.ushiftRight_zero]

theorem writeRegister_whole (h : r.isPart 32 = true) (v : BitVec 32) :
    s.writeRegister r v = { s with regs := Function.update s.regs r.parent v } := by
  have hvalue : (s.regs r.parent &&& ~~~BitVec.allOnes 32) |||
      ((v <<< 0) &&& BitVec.allOnes 32) = v := by
    rw [BitVec.not_allOnes, BitVec.and_zero, BitVec.zero_or, BitVec.shiftLeft_zero,
      BitVec.and_allOnes]
  unfold X86State.writeRegister
  rw [partMask_whole h, (isPart_eq h).2.2]
  dsimp only
  rw [hvalue]

theorem lowByte_readRegister (h : r.isPart 8 = true) :
    lowByte (s.readRegister r) = lowByte (s.regs r.parent) := by
  obtain ⟨-, hwidth, hoffset⟩ := isPart_eq h
  have hmask : X86State.partMask r = 255#32 := by
    unfold X86State.partMask
    rw [hwidth, hoffset]
    decide
  unfold lowByte X86State.readRegister
  rw [hmask, hoffset, BitVec.ushiftRight_zero]
  congr 1
  apply BitVec.eq_of_toNat_eq
  have hand : (s.regs r.parent).toNat &&& 255 = (s.regs r.parent).toNat % 2 ^ 8 :=
    Nat.and_two_pow_sub_one_eq_mod _ 8
  rw [BitVec.toNat_setWidth, BitVec.toNat_setWidth, BitVec.toNat_and]
  show ((s.regs r.parent).toNat &&& 255) % 2 ^ 8 = _
  rw [hand, Nat.mod_mod]

theorem displacement_ne {a b : Int} (ha : -65536 ≤ a) (ha0 : a < 0) (hb : -65536 ≤ b) (hb0 : b < 0)
    (hne : a ≠ b) (base : BitVec 32) : base + BitVec.ofInt 32 a ≠ base + BitVec.ofInt 32 b := by
  intro heq
  have hint : BitVec.ofInt 32 a = BitVec.ofInt 32 b := (BitVec.add_right_inj base).mp heq
  have hnat := congrArg BitVec.toNat hint
  rw [BitVec.toNat_ofInt, BitVec.toNat_ofInt] at hnat
  omega

end Parts

section Runs

variable {xair : X86Decoder} {bytes : Bytes} {s : X86State} {i : X86Inst} {offset : Nat}

theorem recoveryDecode_of_xair (hoffset : offset < bytes.length)
    (hxair : xair (bytes.drop offset) offset = some i) (hlength : 0 < i.length)
    (hnext : i.fallthrough = offset + i.length) (herror : i.error = false) :
    recoveryDecode xair bytes offset = some i := by
  unfold recoveryDecode
  rw [if_neg (Nat.not_le.mpr hoffset), hxair, Option.filter_some]
  simp [hlength, hnext, herror]

theorem step_of_execute {s' : X86State} (hdecode : recoveryDecode xair bytes s.eip = some i)
    (hexecute : s.execute i = some s') :
    s.step xair bytes = some { s' with eip := i.fallthrough } := by
  unfold X86State.step
  rw [hdecode, Option.bind_some, hexecute, Option.map_some]

theorem steps_add {m n : Nat} {t u : X86State} (hm : s.steps xair bytes m = some t)
    (hn : t.steps xair bytes n = some u) : s.steps xair bytes (m + n) = some u := by
  induction m generalizing s with
  | zero =>
    cases hm
    rw [Nat.zero_add]
    exact hn
  | succ m ih =>
    unfold X86State.steps at hm
    obtain ⟨s', hs, hm⟩ := Option.bind_eq_some_iff.mp hm
    rw [Nat.succ_add]
    unfold X86State.steps
    rw [hs, Option.bind_some]
    exact ih hm

end Runs

end Indago
