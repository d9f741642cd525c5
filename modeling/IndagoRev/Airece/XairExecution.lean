import IndagoRev.ByteMemory
import IndagoRev.FlowPaths
import IndagoRev.Airece.ExpressionValue

/-!
# Executions of XAIR code

What the operations do that read and write memory and those that change the width
of a value, and runs through the blocks of a function.  Memory is a value like any
other: a store makes a new one.  All other operations may give their results any
value, and a terminator may take either of its targets.

A module in strict SSA form defines every value in one place, and on every path to
a use.  In such a module the operations that define the values at hand hold of the
values that they have now, also around loops.
-/

namespace Airece

open StdText ByteMemory FlowPaths

/-- The values of a run: a word and a memory for each, of which its type says which
one counts. -/
structure Env where
  word : ValueId → Word
  memory : ValueId → Memory

/-- Two environments have the same value. -/
def Env.Agree (ρ ρ' : Env) (v : ValueId) : Prop :=
  ρ'.word v = ρ.word v ∧ ρ'.memory v = ρ.memory v

/-- The number of bytes that a word of some width takes. -/
def byteCount (bits : Nat) : Nat := (bits + 7) / 8

variable (memory : Memory)

/-- The word that a load reads. -/
def loadedWord (address : Word) (bits : Nat) : Word :=
  ⟨bits, BitVec.ofNat bits (read memory address.bits.toNat (byteCount bits))⟩

/-- The memory that a store leaves. -/
def storedMemory (address data : Word) : Memory :=
  write memory address.bits.toNat (byteCount data.width) data.bits.toNat

/-- What an operation says about the word and the memory of one of its results. -/
structure Result (m : XairModule) (ρ : Env) (o : XairOp) (r : ValueId) (w : Word)
    (memory : Memory) : Prop where
  load : o.opcode = .load → ∀ {before address rest}, o.inputs = before :: address :: rest →
    o.results.head? = some r →
    w = loadedWord (ρ.memory before) (ρ.word address) (m.valueType r).bits
  store : o.opcode = .store → ∀ {before address data rest},
    o.inputs = before :: address :: data :: rest →
    memory = storedMemory (ρ.memory before) (ρ.word address) (ρ.word data)
  cast : o.opcode ∈ castOpcodes → ∀ {a rest}, o.inputs = a :: rest →
    castWord o.opcode (m.valueType r).bits (ρ.word a) = some w
  extract : o.opcode = .extract → ∀ {a rest}, o.inputs = a :: rest →
    w = ⟨(m.valueType r).bits, ((ρ.word a).bits >>> o.immediateLow).setWidth _⟩

variable {o : XairOp}

theorem Result.congr {m : XairModule} {ρ ρ' : Env} {r : ValueId} {w : Word}
    {memory : Memory} (h : Result m ρ o r w memory) (hinputs : ∀ v ∈ o.inputs, ρ.Agree ρ' v) :
    Result m ρ' o r w memory where
  load := by
    intro hop before address rest hin hhead
    have hbefore := hinputs before (by simp [hin])
    have haddress := hinputs address (by simp [hin])
    rw [hbefore.2, haddress.1]
    exact h.load hop hin hhead
  store := by
    intro hop before address data rest hin
    have hbefore := hinputs before (by simp [hin])
    have haddress := hinputs address (by simp [hin])
    have hdata := hinputs data (by simp [hin])
    rw [hbefore.2, haddress.1, hdata.1]
    exact h.store hop hin
  cast := by
    intro hop a rest hin
    rw [(hinputs a (by simp [hin])).1]
    exact h.cast hop hin
  extract := by
    intro hop a rest hin
    rw [(hinputs a (by simp [hin])).1]
    exact h.extract hop hin

/-- What was stored with the width of the load at its address is loaded. -/
theorem loadedWord_stored {stored address data : Word} {bits : Nat}
    (haddress : stored.bits.toNat = address.bits.toNat) (hwidth : data.width = bits) :
    loadedWord (storedMemory memory stored data) address bits = data := by
  obtain ⟨n, x⟩ := data
  subst hwidth
  have hfit : x.toNat < 256 ^ byteCount n := by
    have hpow : (256 : Nat) ^ byteCount n = 2 ^ (8 * byteCount n) := by
      rw [Nat.pow_mul]
    have hle : 2 ^ n ≤ 2 ^ (8 * byteCount n) :=
      Nat.pow_le_pow_right (by omega) (by unfold byteCount; omega)
    have hlt := x.isLt
    omega
  have hread : read (write memory stored.bits.toNat (byteCount n) x.toNat) address.bits.toNat
      (byteCount n) = x.toNat := by
    rw [haddress, read_write_same, Nat.mod_eq_of_lt hfit]
  simp only [loadedWord, storedMemory, hread, BitVec.ofNat_toNat, BitVec.setWidth_eq]

theorem loadedWord_apart {memory : Memory} {stored address data : Word} {bits : Nat}
    (h : Apart stored.bits.toNat (byteCount data.width) address.bits.toNat (byteCount bits)) :
    loadedWord (storedMemory memory stored data) address bits = loadedWord memory address bits := by
  unfold loadedWord storedMemory
  rw [read_write_apart h]

/-- A part of a module: the blocks of a function, and those at which it starts. -/
structure Code where
  module : XairModule
  inside : BlockId → Bool
  isEntry : BlockId → Bool

namespace Code

variable (c : Code) (b : BlockId)

/-- A block at which the code starts. -/
def Entry : Prop := c.inside b = true ∧ c.isEntry b = true

/-- A transfer between two blocks, with the arguments it passes. -/
def Transfer (b t : BlockId) (args : List ValueId) : Prop :=
  c.inside b = true ∧ c.inside t = true ∧
    ∃ terminator, c.module.terminator b = some terminator ∧ (t, args) ∈ terminator.targets

/-- An edge of the flow graph. -/
def Edge (b t : BlockId) : Prop := ∃ args, c.Transfer b t args

variable (k : Nat)

/-- The operation at a position of a block. -/
def At (id : OpId) (o : XairOp) : Prop :=
  (c.module.blockOps b)[k]? = some id ∧ c.module.op id = some o

variable (v : ValueId)

/-- A value that a block has defined when `k` of its operations have run. -/
def DefinedBefore : Prop :=
  v ∈ c.module.blockParams b ∨ ∃ j, j < k ∧ ∃ id o, c.At b j id o ∧ v ∈ o.results

/-- A value that a block defines. -/
def DefinedIn : Prop :=
  c.DefinedBefore b (c.module.blockOps b).length v

/-- A value that is defined on every path to a place. -/
def Available : Prop :=
  Inherited c.Entry c.Edge c.DefinedIn b v ∨ c.DefinedBefore b k v

/-- Strict SSA form: values know the operation that defines them, every operation and
every parameter has one place, uses see definitions on every path, and transfers
pass as many arguments as there are parameters. -/
structure StrictSSA : Prop where
  definition : ∀ {b k id o r}, c.At b k id o → r ∈ o.results →
    c.module.valueDefinition r = some id
  parameter : ∀ {b p}, p ∈ c.module.blockParams b → c.module.valueDefinition p = none
  operation_place : ∀ {b b' : BlockId} {k k' : Nat} {id : OpId}, (c.module.blockOps b)[k]? = some id →
    (c.module.blockOps b')[k']? = some id → b = b' ∧ k = k'
  parameter_place : ∀ {b b' : BlockId} {p : ValueId}, p ∈ c.module.blockParams b → p ∈ c.module.blockParams b' → b = b'
  inputs : ∀ {b k id o v}, c.inside b = true → c.At b k id o → v ∈ o.inputs → c.Available b k v
  arguments : ∀ {b t args v}, c.Transfer b t args → v ∈ args →
    c.Available b (c.module.blockOps b).length v
  arity : ∀ {b t args}, c.Transfer b t args → (c.module.blockParams t).length = args.length

/-- A place of a run and the values there. -/
structure Place where
  block : BlockId
  position : Nat
  env : Env

/-- One operation runs. -/
structure Runs (s : Place) (id : OpId) (o : XairOp) (ρ : Env) : Prop where
  at_place : c.At s.block s.position id o
  results : ∀ r ∈ o.results, Result c.module s.env o r (ρ.word r) (ρ.memory r)
  others : ∀ v, v ∉ o.results → s.env.Agree ρ v

/-- A transfer hands its arguments over to the parameters of its target. -/
structure Transfers (s : Place) (t : BlockId) (args : List ValueId) (ρ : Env) : Prop where
  at_end : s.position = (c.module.blockOps s.block).length
  transfer : c.Transfer s.block t args
  parameters : ∀ p a, (p, a) ∈ (c.module.blockParams t).zip args →
    ρ.word p = s.env.word a ∧ ρ.memory p = s.env.memory a
  others : ∀ v, v ∉ c.module.blockParams t → s.env.Agree ρ v

/-- The places that runs of the code come to. -/
inductive Comes : Place → Prop
  | start {b : BlockId} {ρ : Env} : c.Entry b → Comes ⟨b, 0, ρ⟩
  | operation {s : Place} {id : OpId} {o : XairOp} {ρ : Env} :
      Comes s → c.Runs s id o ρ → Comes ⟨s.block, s.position + 1, ρ⟩
  | transfer {s : Place} {t : BlockId} {args : List ValueId} {ρ : Env} :
      Comes s → c.Transfers s t args ρ → Comes ⟨t, 0, ρ⟩

variable {c} {s : Place}

theorem Comes.reached (h : c.Comes s) : Reached c.Entry c.Edge s.block := by
  induction h with
  | start hentry => exact ⟨[], .start hentry⟩
  | operation _ _ ih => exact ih
  | transfer _ htransfer ih =>
    obtain ⟨path, hpath⟩ := ih
    exact ⟨_, .step hpath ⟨_, htransfer.transfer⟩⟩

theorem Comes.inside (h : c.Comes s) : c.inside s.block = true := by
  induction h with
  | start hentry => exact hentry.1
  | operation _ _ ih => exact ih
  | transfer _ htransfer _ => exact htransfer.transfer.2.1

variable {b : BlockId} {v : ValueId}

theorem DefinedBefore.mono {j k : Nat} (h : c.DefinedBefore b j v)
    (hjk : j ≤ k) : c.DefinedBefore b k v := by
  rcases h with hparam | ⟨i, hi, hresult⟩
  · exact Or.inl hparam
  · exact Or.inr ⟨i, by omega, hresult⟩

theorem Available.mono {j k : Nat} (h : c.Available b j v) (hjk : j ≤ k) : c.Available b k v := by
  rcases h with hin | hdef
  · exact Or.inl hin
  · exact Or.inr (hdef.mono hjk)

variable {id : OpId} {k : Nat}

theorem At.lt_length (h : c.At b k id o) : k < (c.module.blockOps b).length := by
  obtain ⟨hlt, -⟩ := List.getElem?_eq_some_iff.mp h.1
  exact hlt

theorem At.unique {id id' : OpId} {o o' : XairOp} (h : c.At b k id o)
    (h' : c.At b k id' o') : id = id' ∧ o = o' := by
  have hid : id = id' := by
    have hsame := h.1.symm.trans h'.1
    exact Option.some.inj hsame
  subst hid
  exact ⟨rfl, Option.some.inj (h.2.symm.trans h'.2)⟩

variable (hssa : c.StrictSSA)
include hssa

theorem StrictSSA.result_place {b b' : BlockId} {j j' : Nat} {id id' : OpId} {o o' : XairOp}
    (h : c.At b j id o) (hv : v ∈ o.results) (h' : c.At b' j' id' o')
    (hv' : v ∈ o'.results) : b = b' ∧ j = j' := by
  have hid : id = id' :=
    Option.some.inj ((hssa.definition h hv).symm.trans (hssa.definition h' hv'))
  subst hid
  exact hssa.operation_place h.1 h'.1

theorem StrictSSA.block_unique {b b' : BlockId} (h : c.DefinedIn b v)
    (h' : c.DefinedIn b' v) : b = b' := by
  rcases h with hparam | ⟨j, -, id, o, hat, hv⟩
  · rcases h' with hparam' | ⟨j', -, id', o', hat', hv'⟩
    · exact hssa.parameter_place hparam hparam'
    · have hnone := hssa.parameter hparam
      rw [hssa.definition hat' hv'] at hnone
      cases hnone
  · rcases h' with hparam' | ⟨j', -, id', o', hat', hv'⟩
    · have hnone := hssa.parameter hparam'
      rw [hssa.definition hat hv] at hnone
      cases hnone
    · exact (hssa.result_place hat hv hat' hv').1

theorem StrictSSA.not_definedIn (hreached : Reached c.Entry c.Edge b)
    (h : Inherited c.Entry c.Edge c.DefinedIn b v) : ¬ c.DefinedIn b v :=
  h.not_defs (fun _ hc hb => hssa.block_unique hc hb) hreached

theorem StrictSSA.not_result
    (hreached : Reached c.Entry c.Edge b) (hat : c.At b k id o) (h : c.Available b k v) :
    v ∉ o.results := by
  intro hv
  rcases h with hin | hparam | ⟨j, hj, id', o', hat', hv'⟩
  · refine hssa.not_definedIn hreached hin ?_
    exact Or.inr ⟨k, hat.lt_length, id, o, hat, hv⟩
  · have hnone := hssa.parameter hparam
    rw [hssa.definition hat hv] at hnone
    cases hnone
  · have hplace := hssa.result_place hat hv hat' hv'
    omega

variable {v w : ValueId}

/-- Where a value is defined by an operation, the inputs of that operation are
available. -/
theorem StrictSSA.inputs_of_definedBefore
    (hinside : c.inside b = true) (h : c.DefinedBefore b k v)
    (hdef : c.module.definingOp v = some (id, o)) (hw : w ∈ o.inputs) : c.Available b k w := by
  have hid : c.module.valueDefinition v = some id ∧ c.module.op id = some o := by
    unfold XairModule.definingOp at hdef
    rw [Option.bind_eq_some_iff] at hdef
    obtain ⟨id', hid', hop⟩ := hdef
    rw [Option.map_eq_some_iff] at hop
    obtain ⟨o', ho', heq⟩ := hop
    cases heq
    exact ⟨hid', ho'⟩
  rcases h with hparam | ⟨j, hj, id', o', hat, hv⟩
  · have hnone := hssa.parameter hparam
    rw [hid.1] at hnone
    cases hnone
  have hsame : id' = id := Option.some.inj ((hssa.definition hat hv).symm.trans hid.1)
  subst hsame
  have hop : o' = o := Option.some.inj (hat.2.symm.trans hid.2)
  subst hop
  exact (hssa.inputs hinside hat hw).mono (by omega)

omit hssa in
theorem inside_of_reached (h : Reached c.Entry c.Edge b) : c.inside b = true := by
  obtain ⟨path, hpath⟩ := h
  cases hpath with
  | start hentry => exact hentry.1
  | step _ hedge =>
    obtain ⟨_, htransfer⟩ := hedge
    exact htransfer.2.1

theorem StrictSSA.inputs_inherited (h : Inherited c.Entry c.Edge c.DefinedIn b v)
    (hdef : c.module.definingOp v = some (id, o)) (hw : w ∈ o.inputs) :
    Inherited c.Entry c.Edge c.DefinedIn b w := by
  refine h.trans ?_
  intro d hreached hd
  exact hssa.inputs_of_definedBefore (inside_of_reached hreached) hd hdef hw

theorem StrictSSA.inputs_available
    (hinside : c.inside b = true) (h : c.Available b k v)
    (hdef : c.module.definingOp v = some (id, o)) (hw : w ∈ o.inputs) : c.Available b k w := by
  rcases h with hin | hbefore
  · exact Or.inl (hssa.inputs_inherited hin hdef hw)
  · exact hssa.inputs_of_definedBefore hinside hbefore hdef hw

omit hssa

variable (c)

/-- An argument that every transfer to the block of a parameter passes for it. -/
def Copied (p a : ValueId) : Prop :=
  ∃ t, p ∈ c.module.blockParams t ∧ ¬ c.Entry t ∧
    ∀ b args x, c.Transfer b t args → (p, x) ∈ (c.module.blockParams t).zip args → x = a

/-- What holds at a place: every available value is what its operation makes of the
values that the inputs have now, and every available parameter has the value of what
is always passed for it. -/
structure Holds (s : Place) : Prop where
  computed : ∀ {v id o}, c.Available s.block s.position v →
    c.module.definingOp v = some (id, o) →
    Result c.module s.env o v (s.env.word v) (s.env.memory v)
  copied : ∀ {v a}, c.Available s.block s.position v → c.Copied v a →
    s.env.word v = s.env.word a ∧ s.env.memory v = s.env.memory a

variable {c}

include hssa

variable {args : List ValueId}

theorem StrictSSA.exists_argument {b t : BlockId} {p : ValueId}
    (h : c.Transfer b t args) (hparam : p ∈ c.module.blockParams t) :
    ∃ a, a ∈ args ∧ (p, a) ∈ (c.module.blockParams t).zip args := by
  have hlength := hssa.arity h
  obtain ⟨i, hi, hget⟩ := List.mem_iff_getElem.mp hparam
  have hi' : i < args.length := by omega
  refine ⟨args[i], List.getElem_mem hi', ?_⟩
  have hzip : i < ((c.module.blockParams t).zip args).length := by
    rw [List.length_zip]
    omega
  rw [List.mem_iff_getElem]
  exact ⟨i, hzip, by simp [hget]⟩

/-- What is always passed for a parameter is inherited by its block. -/
theorem StrictSSA.copied_inherited {t : BlockId} {p a : ValueId}
    (hparam : p ∈ c.module.blockParams t) (hcopied : c.Copied p a) :
    Inherited c.Entry c.Edge c.DefinedIn t a := by
  obtain ⟨t', hparam', hentry, hall⟩ := hcopied
  have hsame := hssa.parameter_place hparam hparam'
  subst hsame
  refine inherited_of_edges hentry ?_
  rintro b - ⟨args, htransfer⟩
  obtain ⟨x, hx, hpair⟩ := hssa.exists_argument htransfer hparam
  have harg := hall b args x htransfer hpair
  subst harg
  exact hssa.arguments htransfer hx

/-- With a parameter, what is always passed for it is available. -/
theorem StrictSSA.copied_available {p a : ValueId}
    (h : c.Available b k p) (hcopied : c.Copied p a) : c.Available b k a := by
  have hwhere := hcopied
  obtain ⟨t, hparam, -, -⟩ := hwhere
  have htarget := hssa.copied_inherited hparam hcopied
  have hparamIn : c.DefinedIn t p := Or.inl hparam
  rcases h with hin | hbefore
  · refine Or.inl (hin.trans ?_)
    intro d _ hd
    have hsame := hssa.block_unique hd hparamIn
    subst hsame
    exact Or.inl htarget
  · have hsame : b = t := by
      rcases hbefore with hparam' | ⟨j, hj, id, o, hat, hv⟩
      · exact hssa.parameter_place hparam' hparam
      · have hnone := hssa.parameter hparam
        rw [hssa.definition hat hv] at hnone
        cases hnone
    subst hsame
    exact Or.inl htarget

theorem StrictSSA.definingOp_parameter {p : ValueId}
    (h : p ∈ c.module.blockParams b) : c.module.definingOp p = none := by
  simp [XairModule.definingOp, hssa.parameter h]

/-- **An operation runs.**  What holds before it holds after it. -/
theorem StrictSSA.holds_operation {ρ : Env}
    (hreached : Reached c.Entry c.Edge s.block) (h : c.Holds s) (hruns : c.Runs s id o ρ) :
    c.Holds ⟨s.block, s.position + 1, ρ⟩ := by
  have hinside := inside_of_reached hreached
  -- what was available keeps its value
  have hkept : ∀ v, c.Available s.block s.position v → s.env.Agree ρ v := by
    intro v hv
    exact hruns.others v (hssa.not_result hreached hruns.at_place hv)
  -- what is available now was available, or is a result
  have hcases : ∀ v, c.Available s.block (s.position + 1) v →
      c.Available s.block s.position v ∨ v ∈ o.results := by
    rintro v (hin | hparam | ⟨j, hj, id', o', hat, hv⟩)
    · exact Or.inl (Or.inl hin)
    · exact Or.inl (Or.inr (Or.inl hparam))
    by_cases hlast : j = s.position
    · subst hlast
      obtain ⟨-, rfl⟩ := hat.unique hruns.at_place
      exact Or.inr hv
    · exact Or.inl (Or.inr (Or.inr ⟨j, by omega, id', o', hat, hv⟩))
  constructor
  · intro v id' o' hv hdef
    rcases hcases v hv with hold | hresult
    · have hinputs : ∀ w ∈ o'.inputs, s.env.Agree ρ w :=
        fun w hw => hkept w (hssa.inputs_available hinside hold hdef hw)
      rw [(hkept v hold).1, (hkept v hold).2]
      exact (h.computed hold hdef).congr hinputs
    have hsame : o' = o := by
      have hid := hssa.definition hruns.at_place hresult
      rw [XairModule.definingOp, hid, Option.bind_some, hruns.at_place.2] at hdef
      cases hdef
      rfl
    subst hsame
    have hinputs : ∀ w ∈ o'.inputs, s.env.Agree ρ w :=
      fun w hw => hkept w (hssa.inputs hinside hruns.at_place hw)
    exact (hruns.results v hresult).congr hinputs
  · intro v a hv hcopied
    rcases hcases v hv with hold | hresult
    · have hsource := hssa.copied_available hold hcopied
      obtain ⟨hword, hmemory⟩ := h.copied hold hcopied
      rw [(hkept v hold).1, (hkept v hold).2, (hkept a hsource).1, (hkept a hsource).2]
      exact ⟨hword, hmemory⟩
    obtain ⟨t, hparam, -, -⟩ := hcopied
    have hnone := hssa.parameter hparam
    rw [hssa.definition hruns.at_place hresult] at hnone
    cases hnone

/-- **A transfer.**  What holds at the end of a block holds at the beginning of the
next. -/
theorem StrictSSA.holds_transfer {t : BlockId} {ρ : Env}
    (hreached : Reached c.Entry c.Edge s.block) (h : c.Holds s)
    (htransfers : c.Transfers s t args ρ) : c.Holds ⟨t, 0, ρ⟩ := by
  have hedge : c.Edge s.block t := ⟨args, htransfers.transfer⟩
  have hreached' : Reached c.Entry c.Edge t := by
    obtain ⟨path, hpath⟩ := hreached
    exact ⟨_, .step hpath hedge⟩
  -- what the target inherits was available, and keeps its value
  have hbefore : ∀ v, Inherited c.Entry c.Edge c.DefinedIn t v →
      c.Available s.block s.position v := by
    intro v hv
    rw [htransfers.at_end]
    exact hv.before_edge hedge
  have hkept : ∀ v, Inherited c.Entry c.Edge c.DefinedIn t v → s.env.Agree ρ v := by
    intro v hv
    refine htransfers.others v ?_
    intro hparam
    exact hssa.not_definedIn hreached' hv (Or.inl hparam)
  have hcases : ∀ v, c.Available t 0 v →
      Inherited c.Entry c.Edge c.DefinedIn t v ∨ v ∈ c.module.blockParams t := by
    rintro v (hin | hparam | ⟨j, hj, -⟩)
    · exact Or.inl hin
    · exact Or.inr hparam
    · omega
  constructor
  · intro v id o hv hdef
    rcases hcases v hv with hin | hparam
    · have hinputs : ∀ w ∈ o.inputs, s.env.Agree ρ w :=
        fun w hw => hkept w (hssa.inputs_inherited hin hdef hw)
      rw [(hkept v hin).1, (hkept v hin).2]
      exact (h.computed (hbefore v hin) hdef).congr hinputs
    · rw [hssa.definingOp_parameter hparam] at hdef
      cases hdef
  · intro v a hv hcopied
    rcases hcases v hv with hin | hparam
    · have hsource : Inherited c.Entry c.Edge c.DefinedIn t a := by
        have havailable := hssa.copied_available (k := 0) (Or.inl hin) hcopied
        obtain ⟨t', hparam', -, -⟩ := id hcopied
        refine hin.trans ?_
        intro d _ hd
        have hsame := hssa.block_unique hd (Or.inl hparam' : c.DefinedIn t' v)
        subst hsame
        exact Or.inl (hssa.copied_inherited hparam' hcopied)
      obtain ⟨hword, hmemory⟩ := h.copied (hbefore v hin) hcopied
      rw [(hkept v hin).1, (hkept v hin).2, (hkept a hsource).1, (hkept a hsource).2]
      exact ⟨hword, hmemory⟩
    · have hsource := hssa.copied_inherited hparam hcopied
      -- the parameter gets what this transfer passes, and that is `a`
      obtain ⟨x, -, hpair⟩ := hssa.exists_argument htransfers.transfer hparam
      obtain ⟨t', hparam', -, hall⟩ := hcopied
      have hsame := hssa.parameter_place hparam hparam'
      subst hsame
      have harg := hall s.block args x htransfers.transfer hpair
      have hpassed := htransfers.parameters v x hpair
      rw [harg] at hpassed
      rw [(hkept a hsource).1, (hkept a hsource).2]
      exact hpassed

/-- **Every run.**  In strict SSA form, everything available at a place that a run
comes to is what its operation makes of the current values. -/
theorem StrictSSA.holds (h : c.Comes s) : c.Holds s := by
  induction h with
  | @start b ρ hentry =>
    -- nothing is inherited at an entry, and a parameter of it is never copied
    have honly : ∀ v, c.Available b 0 v → v ∈ c.module.blockParams b := by
      rintro v (hin | hparam | ⟨j, hj, -⟩)
      · obtain ⟨d, hd, -⟩ := hin [] (.start hentry)
        cases hd
      · exact hparam
      · omega
    constructor
    · intro v id o hv hdef
      rw [hssa.definingOp_parameter (honly v hv)] at hdef
      cases hdef
    intro v a hv hcopied
    obtain ⟨t, hparam, hnot, -⟩ := hcopied
    have hsame := hssa.parameter_place (honly v hv) hparam
    subst hsame
    exact absurd hentry hnot
  | operation hcomes hruns ih => exact hssa.holds_operation hcomes.reached ih hruns
  | transfer hcomes htransfers ih => exact hssa.holds_transfer hcomes.reached ih htransfers

end Code

end Airece
