import IndagoRev.Airece.CopyResolution

/-!
# Names that loads take over from stores

A load is shown under the name of a stored value when the walk back through the
stores before it finds one whose address is recognised as the load's.  Every store
that the walk passes must leave alone what the load reads, and the store it stops at
must have written just that: the walk checks neither.
-/

namespace Airece

open StdText ByteMemory FlowPaths List

/-- A word that is another one after extensions, truncations and address casts. -/
inductive WidthAdjusted (w : Word) : Word → Prop
  | same : WidthAdjusted w w
  | cast {x y : Word} {opcode : Opcode} {bits : Nat} :
      WidthAdjusted w x → castWord opcode bits x = some y → WidthAdjusted w y

theorem signExtend_zero (n bits : Nat) : (0#n).signExtend bits = (0 : BitVec bits) := by
  apply BitVec.eq_of_getLsbD_eq
  intro i hi
  simp [BitVec.getElem_signExtend, hi]

theorem WidthAdjusted.zero {w x : Word} (h : WidthAdjusted w x) (hw : w.bits.toNat = 0) :
    x.bits.toNat = 0 := by
  induction h with
  | same => exact hw
  | @cast x y opcode bits _ hcast ih =>
    obtain ⟨n, z⟩ := x
    have hz : z = 0#n := BitVec.eq_of_toNat_eq (by simpa using ih)
    subst hz
    unfold castWord at hcast
    split at hcast <;> simp at hcast
    all_goals
      obtain ⟨-, rfl⟩ := hcast
      simp [signExtend_zero]

namespace CompactFunction

variable {f : CompactFunction}

/-- A place in a run of a function in strict SSA form. -/
structure InRun (f : CompactFunction) (s : Code.Place) : Prop where
  ssa : f.code.StrictSSA
  entries : f.EntriesReturn f.isEntry
  comes : f.code.Comes s

variable {s : Code.Place}

/-- **Copies.**  `resolve_copy` leads to an available value that is the same now. -/
theorem InRun.resolveCopy (h : f.InRun s) {v : ValueId}
    (hv : f.code.Available s.block s.position v) :
    f.code.Available s.block s.position (f.resolveCopy v) ∧
      s.env.word (f.resolveCopy v) = s.env.word v ∧
      s.env.memory (f.resolveCopy v) = s.env.memory v := by
  by_cases hmoves : f.resolveCopy v = v
  · rw [hmoves]
    exact ⟨hv, rfl, rfl⟩
  · obtain ⟨b, hparam⟩ := f.param_of_resolveCopy v hmoves
    exact f.copiesSound_of_return f.isEntry h.ssa h.entries s h.comes b v hparam hv hmoves

variable (f) in
/-- The operations that the loop of `resolve_identity` looks through. -/
def identityOpsFrom : Nat → List ValueId → ValueId → List XairOp
  | 0, _, _ => []
  | n + 1, seen, v =>
    if v = invalidId ∨ seen.contains v then []
    else
      match f.module.definingOp (f.resolveCopy v) with
      | none => []
      | some (_, o) =>
        match o.inputs with
        | [] => []
        | input :: _ =>
          if keepsIdentity o.opcode then o :: identityOpsFrom n (v :: seen) input else []

variable (f) in
/-- The operations that `resolve_identity` looks through. -/
def identityOps (v : ValueId) : List XairOp := f.identityOpsFrom (f.module.ops.length + 2) [] v

/-- Every extraction among some operations takes the low bits. -/
def LowExtracts (ops : List XairOp) : Prop :=
  ∀ o ∈ ops, o.opcode = .extract → o.immediateLow = 0

/-- **Identities.**  A value is what `resolve_identity` finds, with its width
adjusted. -/
theorem InRun.resolveIdentity (h : f.InRun s) {v : ValueId}
    (hv : f.code.Available s.block s.position v) (hlow : LowExtracts (f.identityOps v)) :
    f.code.Available s.block s.position (f.resolveIdentity v) ∧
      WidthAdjusted (s.env.word (f.resolveIdentity v)) (s.env.word v) := by
  have hfrom : ∀ n seen v, f.code.Available s.block s.position v →
      LowExtracts (f.identityOpsFrom n seen v) →
      f.code.Available s.block s.position (f.resolveIdentityFrom n seen v) ∧
        WidthAdjusted (s.env.word (f.resolveIdentityFrom n seen v)) (s.env.word v) := by
    intro n
    induction n with
    | zero => exact fun seen v hv _ => ⟨hv, .same⟩
    | succ n ih =>
      intro seen v hv hlow
      obtain ⟨havailable, hword, -⟩ := h.resolveCopy hv
      have hcopy : f.code.Available s.block s.position (f.resolveCopy v) ∧
          WidthAdjusted (s.env.word (f.resolveCopy v)) (s.env.word v) := by
        rw [hword]
        exact ⟨havailable, .same⟩
      unfold resolveIdentityFrom
      unfold identityOpsFrom at hlow
      split
      · exact ⟨hv, .same⟩
      next hgo =>
        rw [if_neg hgo] at hlow
        simp only
        split
        · exact hcopy
        next id o hdef =>
          rw [hdef] at hlow
          simp only at hlow
          split
          · exact hcopy
          next input rest hinputs =>
            rw [hinputs] at hlow
            simp only at hlow
            split
            · next hkeeps =>
                rw [if_pos hkeeps] at hlow
                have hinput := h.ssa.inputs_available h.comes.inside havailable hdef
                  (by simp [hinputs] : input ∈ o.inputs)
                obtain ⟨hfound, hadjusted⟩ := ih (v :: seen) input hinput
                  (fun o' ho' => hlow o' (mem_cons_of_mem _ ho'))
                refine ⟨hfound, ?_⟩
                have hresult := (h.ssa.holds h.comes).computed havailable hdef
                rw [← hword]
                by_cases hextract : o.opcode = .extract
                · -- the low bits are what a cast keeps
                  have hzero := hlow o mem_cons_self hextract
                  have hvalue := hresult.extract hextract hinputs
                  rw [hzero] at hvalue
                  have hcast : castWord .addrToInt
                      (f.module.valueType (f.resolveCopy v)).bits (s.env.word input) =
                        some (s.env.word (f.resolveCopy v)) := by
                    rw [hvalue]
                    simp [castWord, code]
                  exact hadjusted.cast hcast
                · have hcast : o.opcode ∈ castOpcodes := by
                    simp only [keepsIdentity, Bool.or_eq_true, beq_iff_eq] at hkeeps
                    simp only [castOpcodes, mem_cons, not_mem_nil, or_false]
                    tauto
                  exact hadjusted.cast (hresult.cast hcast hinputs)
            · exact hcopy
  exact hfrom _ _ v hv hlow

/-- A store that the walk comes to: its address, its data, and whether the walk stops
at it. -/
structure WalkedStore where
  target : ValueId
  data : ValueId
  found : Bool

variable (f) in
/-- The stores that the loop of `stored_value` comes to. -/
def walkFrom (names : ValueId → Option Text) (address : ValueId) :
    Nat → List ValueId → ValueId → List WalkedStore
  | 0, _, _ => []
  | n + 1, seen, memory =>
    if seen.contains memory then []
    else
      match f.module.definingOp (f.resolveCopy memory) with
      | none => []
      | some (_, o) =>
        if o.opcode = .store then
          match o.inputs with
          | previous :: target :: data :: _ =>
            if f.sameStorageAddress names target address then [⟨target, data, true⟩]
            else ⟨target, data, false⟩ ::
              walkFrom names address n (memory :: seen) previous
          | _ => []
        else []

variable (f) in
/-- The stores that `stored_value` comes to on its way from a load. -/
def walk (fw : ForwardedLoad) : List WalkedStore :=
  f.walkFrom fw.names fw.address 128 [] fw.memory

/-- Stores that fit a load of some width from an address: those that are passed write
elsewhere, and the one that is found writes the same bytes. -/
structure StoresFit (ρ : Env) (address : ValueId) (bits : Nat) (stores : List WalkedStore) :
    Prop where
  passed : ∀ w ∈ stores, w.found = false →
    Apart (ρ.word w.target).bits.toNat (byteCount (ρ.word w.data).width)
      (ρ.word address).bits.toNat (byteCount bits)
  found : ∀ w ∈ stores, w.found = true →
    (ρ.word w.target).bits.toNat = (ρ.word address).bits.toNat ∧ (ρ.word w.data).width = bits

/-- **The walk.**  Where the stores fit, the load reads the value that the walk
finds. -/
theorem InRun.storedValueFrom (h : f.InRun s) {names : ValueId → Option Text}
    {address : ValueId} {bits : Nat} {data : ValueId} (n : Nat) :
    ∀ seen memory, f.code.Available s.block s.position memory →
      StoresFit s.env address bits (f.walkFrom names address n seen memory) →
      f.storedValueFrom names address n seen memory = some data →
      f.code.Available s.block s.position data ∧
        loadedWord (s.env.memory memory) (s.env.word address) bits = s.env.word data := by
  induction n with
  | zero =>
    intro seen memory _ _ hfound
    cases hfound
  | succ n ih =>
    intro seen memory havailable hfit hfound
    unfold CompactFunction.storedValueFrom at hfound
    unfold walkFrom at hfit
    split at hfound
    · cases hfound
    next hseen =>
      rw [if_neg hseen] at hfit
      obtain ⟨hresolved, -, hmemory⟩ := h.resolveCopy havailable
      split at hfound
      · cases hfound
      next id o hdef =>
        rw [hdef] at hfit
        simp only at hfit
        split at hfound
        · next hstore =>
            rw [if_pos hstore] at hfit
            split at hfound
            · next previous target value rest hinputs =>
                rw [hinputs] at hfit
                simp only at hfit
                have hinput : ∀ w, w ∈ o.inputs → f.code.Available s.block s.position w :=
                  fun w hw => h.ssa.inputs_available h.comes.inside hresolved hdef hw
                have hwritten : s.env.memory memory = storedMemory (s.env.memory previous)
                    (s.env.word target) (s.env.word value) := by
                  rw [← hmemory]
                  exact ((h.ssa.holds h.comes).computed hresolved hdef).store hstore hinputs
                split at hfound
                · next hsame =>
                    cases hfound
                    rw [if_pos hsame] at hfit
                    obtain ⟨haddress, hwidth⟩ := hfit.found _ mem_cons_self rfl
                    refine ⟨hinput _ (by simp [hinputs]), ?_⟩
                    rw [hwritten]
                    exact loadedWord_stored _ haddress hwidth
                · next hother =>
                    rw [if_neg hother] at hfit
                    have hapart := hfit.passed _ mem_cons_self rfl
                    have hrest := ih (memory :: seen) previous
                      (hinput _ (by simp [hinputs]))
                      ⟨fun w hw => hfit.passed w (mem_cons_of_mem _ hw),
                        fun w hw => hfit.found w (mem_cons_of_mem _ hw)⟩ hfound
                    refine ⟨hrest.1, ?_⟩
                    rw [hwritten, loadedWord_apart hapart]
                    exact hrest.2
            · cases hfound
        · cases hfound

variable (f) in
/-- What a load that took a name over is. -/
structure TakesOver (fw : ForwardedLoad) (o : XairOp) : Prop where
  op : f.module.op fw.load = some o
  load : o.opcode = .load
  inputs : ∃ rest, o.inputs = fw.memory :: fw.address :: rest
  results : ∃ rest, o.results = fw.result :: rest
  source : f.storedValue fw.names fw.memory fw.address = some fw.source
  carrier : fw.carrier = f.resolveIdentity fw.source
  named : ∃ name, fw.names fw.carrier = some name ∧ isAddressName name = false

theorem takesOver_nameLoad {l : LoadNames} (h : ∀ fw ∈ l.forwarded, ∃ o, f.TakesOver fw o)
    (operation : OpId) : ∀ fw ∈ (f.nameLoad l operation).forwarded, ∃ o, f.TakesOver fw o := by
  have hbyAddress : ∀ byAddress : LoadNames, byAddress.forwarded = l.forwarded →
      ∀ fw ∈ byAddress.forwarded, ∃ o, f.TakesOver fw o :=
    fun _ hsame fw hfw => h fw (hsame ▸ hfw)
  unfold nameLoad
  split
  · exact h
  next o hop =>
    split
    · next hload =>
        split
        · next memory address rest result rest' hinputs hresults =>
            simp only
            split
            · exact hbyAddress _ (by split <;> [split <;> rfl; rfl])
            next source hsource =>
              split
              · exact hbyAddress _ (by split <;> [split <;> rfl; rfl])
              next name hname =>
                split
                · exact hbyAddress _ (by split <;> [split <;> rfl; rfl])
                next hplain =>
                  intro fw hfw
                  rcases mem_append.mp hfw with hold | hnew
                  · exact h fw hold
                  rw [mem_singleton.mp hnew]
                  refine ⟨o, hop, hload, ⟨rest, hinputs⟩, ⟨rest', hresults⟩, hsource,
                    rfl, name, hname, ?_⟩
                  simpa using fun haddress => hplain (Or.inr haddress)
        · exact h
    · exact h

variable (f) in
/-- Every load that took a name over found a stored value, and the name is that of
the value's identity. -/
theorem takesOver_of_forwarded {fw : ForwardedLoad} (h : fw ∈ f.loadNames.forwarded) :
    ∃ o, f.TakesOver fw o := by
  have hfold : ∀ (ops : List OpId) (l : LoadNames),
      (∀ fw ∈ l.forwarded, ∃ o, f.TakesOver fw o) →
      ∀ fw ∈ (ops.foldl f.nameLoad l).forwarded, ∃ o, f.TakesOver fw o := by
    intro ops
    induction ops with
    | nil => exact fun l hl => hl
    | cons operation rest ih => exact fun l hl => ih _ (takesOver_nameLoad hl operation)
  exact hfold _ _ (fun fw hfw => by simp at hfw) fw h

variable (f) in
/-- **Names of loads.**  Whenever a load that took a name over runs, the value it
reads is the one that carries the name, with its width adjusted. -/
def ForwardingSound : Prop :=
  ∀ fw ∈ f.loadNames.forwarded, ∀ (s : Code.Place) (o : XairOp) (ρ : Env), f.code.Comes s →
    f.code.Runs s fw.load o ρ → WidthAdjusted (ρ.word fw.carrier) (ρ.word fw.result)

/-- **Names of loads.**  In a function in strict SSA form whose copies lead from its
entry parameters back to themselves, a load that took a name over reads the value that carries the
name, with its width adjusted, whenever the stores that were walked fit it and
every extraction below the stored value takes the low bits. -/
theorem forwarded_load_sound (hssa : f.code.StrictSSA) (hentries : f.EntriesReturn f.isEntry)
    {fw : ForwardedLoad} (hfw : fw ∈ f.loadNames.forwarded) {s : Code.Place} {o : XairOp}
    {ρ : Env} (hcomes : f.code.Comes s) (hruns : f.code.Runs s fw.load o ρ)
    (hfit : StoresFit s.env fw.address (f.module.valueType fw.result).bits (f.walk fw))
    (hlow : LowExtracts (f.identityOps fw.source)) :
    WidthAdjusted (ρ.word fw.carrier) (ρ.word fw.result) := by
  have hrun : f.InRun s := ⟨hssa, hentries, hcomes⟩
  obtain ⟨o', htakes⟩ := f.takesOver_of_forwarded hfw
  have hop : o' = o := Option.some.inj (htakes.op.symm.trans hruns.at_place.2)
  subst hop
  obtain ⟨rest, hinputs⟩ := htakes.inputs
  obtain ⟨rest', hresults⟩ := htakes.results
  have hinput : ∀ w ∈ o'.inputs, f.code.Available s.block s.position w :=
    fun w hw => hssa.inputs hcomes.inside hruns.at_place hw
  obtain ⟨hsource, hread⟩ := hrun.storedValueFrom 128 [] fw.memory
    (hinput _ (by simp [hinputs])) hfit htakes.source
  obtain ⟨hcarrier, hadjusted⟩ := hrun.resolveIdentity hsource hlow
  rw [← htakes.carrier] at hcarrier hadjusted
  -- the load reads what is stored, and the carrier keeps its value
  have hloaded := (hruns.results fw.result (by simp [hresults])).load htakes.load hinputs
    (by simp [hresults])
  have hkept := hruns.others _ (hssa.not_result hcomes.reached hruns.at_place hcarrier)
  rw [hloaded, hkept.1]
  have hvalue : loadedWord (s.env.memory fw.memory) (s.env.word fw.address)
      (f.code.module.valueType fw.result).bits = s.env.word fw.source := hread
  rw [hvalue]
  exact hadjusted

end CompactFunction

/-- A function that stores `x` at `p` and then `y` at `q`, and loads from `p`. -/
def spillFunction : CompactFunction where
  module :=
    { values :=
        [{ type := { kind := .mem }, name := "mem" },
         { type := { kind := .addr, bits := 64 }, name := "p" },
         { type := { kind := .addr, bits := 64 }, name := "q" },
         { type := { kind := .int, bits := 64 } },
         { type := { kind := .int, bits := 64 } },
         { type := { kind := .mem }, definition := some 0 },
         { type := { kind := .mem }, definition := some 1 },
         { type := { kind := .int, bits := 64 }, definition := some 2 }]
      ops :=
        [{ opcode := .store, inputs := [0, 1, 3], results := [5] },
         { opcode := .store, inputs := [5, 2, 4], results := [6] },
         { opcode := .load, inputs := [6, 1], results := [7] }]
      blocks :=
        [{ ops := [0, 1, 2], params := [0, 1, 2, 3, 4], terminator := { kind := .ret } }]
      opcodeName := fun _ => "op" }
  blocks := [0]
  isEntry b := b == 0
  variableNames v := if v = 3 then some "x" else if v = 4 then some "y" else none
  returnValues _ := false

/-- The load takes the name of `x`. -/
def spillLoad : CompactFunction.ForwardedLoad where
  load := 2
  memory := 6
  address := 1
  result := 7
  source := 3
  carrier := 3
  names := spillFunction.propagatedNames

variable (a b : Nat)

/-- The values at the beginning, for addresses `a` and `b`: `x` is 0 and `y` is 1. -/
def spillStart : Env where
  word v :=
    if v = 1 then ⟨64, BitVec.ofNat 64 a⟩ else if v = 2 then ⟨64, BitVec.ofNat 64 b⟩
    else if v = 3 then ⟨64, 0⟩ else if v = 4 then ⟨64, 1⟩ else ⟨0, 0⟩
  memory _ _ := 0

/-- An environment with another memory at a value. -/
def Env.setMemory (ρ : Env) (v : ValueId) (memory : Memory) : Env :=
  { ρ with memory := Function.update ρ.memory v memory }

/-- An environment with another word at a value. -/
def Env.setWord (ρ : Env) (v : ValueId) (w : Word) : Env :=
  { ρ with word := Function.update ρ.word v w }

/-- After the first store. -/
def spillFirst : Env :=
  (spillStart a b).setMemory 5 (storedMemory ((spillStart a b).memory 0)
    ((spillStart a b).word 1) ((spillStart a b).word 3))

/-- After the second store. -/
def spillSecond : Env :=
  (spillFirst a b).setMemory 6 (storedMemory ((spillFirst a b).memory 5)
    ((spillFirst a b).word 2) ((spillFirst a b).word 4))

/-- After the load. -/
def spillEnd : Env :=
  (spillSecond a b).setWord 7 (loadedWord ((spillSecond a b).memory 6)
    ((spillSecond a b).word 1) 64)

variable {o : XairOp} {id : OpId}

theorem runs_store {c : Code} {s : Code.Place} {r before address data : ValueId}
    (hat : c.At s.block s.position id o) (hop : o.opcode = .store)
    (hinputs : o.inputs = [before, address, data]) (hresults : o.results = [r]) :
    c.Runs s id o (s.env.setMemory r (storedMemory (s.env.memory before) (s.env.word address)
      (s.env.word data))) where
  at_place := hat
  results := by
    intro v hv
    rw [hresults, mem_singleton] at hv
    subst hv
    constructor
    · intro h
      rw [hop] at h
      cases h
    · intro _ before' address' data' rest h
      rw [hinputs] at h
      cases h
      simp [Env.setMemory]
    · intro h
      rw [hop] at h
      simp [castOpcodes] at h
    · intro h
      rw [hop] at h
      cases h
  others := by
    intro v hv
    have hne : v ≠ r := by
      rintro rfl
      simp [hresults] at hv
    exact ⟨rfl, Function.update_of_ne hne _ _⟩

theorem runs_load {c : Code} {s : Code.Place} {r before address : ValueId}
    (hat : c.At s.block s.position id o) (hop : o.opcode = .load)
    (hinputs : o.inputs = [before, address]) (hresults : o.results = [r]) :
    c.Runs s id o (s.env.setWord r (loadedWord (s.env.memory before) (s.env.word address)
      (c.module.valueType r).bits)) where
  at_place := hat
  results := by
    intro v hv
    rw [hresults, mem_singleton] at hv
    subst hv
    constructor
    · intro _ before' address' rest h _
      rw [hinputs] at h
      cases h
      simp [Env.setWord]
    · intro h
      rw [hop] at h
      cases h
    · intro h
      rw [hop] at h
      simp [castOpcodes] at h
    · intro h
      rw [hop] at h
      cases h
  others := by
    intro v hv
    have hne : v ≠ r := by
      rintro rfl
      simp [hresults] at hv
    exact ⟨Function.update_of_ne hne _ _, rfl⟩

theorem spill_comes : spillFunction.code.Comes ⟨0, 2, spillSecond a b⟩ := by
  have hstart : spillFunction.code.Comes ⟨0, 0, spillStart a b⟩ := .start ⟨rfl, rfl⟩
  have hfirst : spillFunction.code.Comes ⟨0, 1, spillFirst a b⟩ :=
    hstart.operation (runs_store ⟨rfl, rfl⟩ rfl rfl rfl)
  exact hfirst.operation (runs_store ⟨rfl, rfl⟩ rfl rfl rfl)

theorem spill_runs : spillFunction.code.Runs ⟨0, 2, spillSecond a b⟩ 2
      { opcode := .load, inputs := [6, 1], results := [7] } (spillEnd a b) :=
  runs_load ⟨rfl, rfl⟩ rfl rfl rfl

theorem spill_forwarded : spillLoad ∈ spillFunction.loadNames.forwarded := by
  have hall : spillFunction.loadNames.forwarded = [spillLoad] := rfl
  rw [hall]
  exact mem_singleton_self _

/-- Where `p` and `q` are the same address, the load reads `y`, which is 1, under the
name of `x`, which is 0. -/
theorem spill_aliased : ¬ spillFunction.ForwardingSound := by
  intro h
  have hadjusted := h spillLoad spill_forwarded _ _ _ (spill_comes 0 0) (spill_runs 0 0)
  have hread : (spillEnd 0 0).word 7 = ⟨64, 1⟩ :=
    @loadedWord_stored _ ⟨64, 0⟩ ⟨64, 0⟩ ⟨64, 1⟩ 64 rfl rfl
  have hzero := hadjusted.zero rfl
  rw [show spillLoad.result = 7 from rfl, hread] at hzero
  revert hzero
  decide

theorem spill_at {b : BlockId} {k : Nat} (h : spillFunction.code.At b k id o) : b = 0 ∧
      ((k = 0 ∧ id = 0 ∧ o = { opcode := .store, inputs := [0, 1, 3], results := [5] }) ∨
        (k = 1 ∧ id = 1 ∧ o = { opcode := .store, inputs := [5, 2, 4], results := [6] }) ∨
        (k = 2 ∧ id = 2 ∧ o = { opcode := .load, inputs := [6, 1], results := [7] })) := by
  obtain ⟨hid, hop⟩ := h
  match b, k, hid with
  | 0, 0, hid =>
    cases hid
    cases hop
    exact ⟨rfl, Or.inl ⟨rfl, rfl, rfl⟩⟩
  | 0, 1, hid =>
    cases hid
    cases hop
    exact ⟨rfl, Or.inr (Or.inl ⟨rfl, rfl, rfl⟩)⟩
  | 0, 2, hid =>
    cases hid
    cases hop
    exact ⟨rfl, Or.inr (Or.inr ⟨rfl, rfl, rfl⟩)⟩
  | 0, k + 3, hid => cases hid
  | b + 1, k, hid => cases hid

theorem spill_transfer {b t : BlockId} {args : List ValueId}
    (h : spillFunction.code.Transfer b t args) : False := by
  obtain ⟨hb, ht, terminator, hterm, htarget⟩ := h
  have hzero : b = 0 := by simpa [CompactFunction.code, spillFunction] using hb
  have htzero : t = 0 := by simpa [CompactFunction.code, spillFunction] using ht
  subst hzero htzero
  cases hterm
  simp [Terminator.targets, invalidId] at htarget

theorem spill_param {b : BlockId} {p : ValueId}
    (h : p ∈ spillFunction.code.module.blockParams b) : b = 0 ∧ p ∈ [0, 1, 2, 3, 4] := by
  match b, h with
  | 0, h => exact ⟨rfl, h⟩
  | b + 1, h => cases h

theorem spill_strictSSA : spillFunction.code.StrictSSA where
  definition := by
    intro b k id o r hat hr
    obtain ⟨-, ⟨-, rfl, rfl⟩ | ⟨-, rfl, rfl⟩ | ⟨-, rfl, rfl⟩⟩ := spill_at hat <;>
      (rw [mem_singleton.mp hr]; rfl)
  parameter := by
    intro b p hp
    obtain ⟨-, hp⟩ := spill_param hp
    simp only [mem_cons, not_mem_nil, or_false] at hp
    rcases hp with rfl | rfl | rfl | rfl | rfl <;> rfl
  operation_place := by
    intro b b' k k' id h h'
    have hop : ∃ o, spillFunction.module.op id = some o := by
      match b, k, h with
      | 0, 0, h => cases h; exact ⟨_, rfl⟩
      | 0, 1, h => cases h; exact ⟨_, rfl⟩
      | 0, 2, h => cases h; exact ⟨_, rfl⟩
      | 0, k + 3, h => cases h
      | b + 1, k, h => cases h
    obtain ⟨o, hop⟩ := hop
    obtain ⟨rfl, hk⟩ := spill_at ⟨h, hop⟩
    obtain ⟨rfl, hk'⟩ := spill_at ⟨h', hop⟩
    refine ⟨rfl, ?_⟩
    rcases hk with ⟨rfl, rfl, -⟩ | ⟨rfl, rfl, -⟩ | ⟨rfl, rfl, -⟩ <;>
      rcases hk' with ⟨rfl, hid, -⟩ | ⟨rfl, hid, -⟩ | ⟨rfl, hid, -⟩ <;>
      first | rfl | cases hid
  parameter_place := by
    intro b b' p h h'
    rw [(spill_param h).1, (spill_param h').1]
  inputs := by
    intro b k id o v _ hat hv
    have hparam : ∀ k v, v ∈ [0, 1, 2, 3, 4] → spillFunction.code.Available 0 k v :=
      fun k v hv => Or.inr (Or.inl hv)
    obtain ⟨rfl, ⟨rfl, rfl, rfl⟩ | ⟨rfl, rfl, rfl⟩ | ⟨rfl, rfl, rfl⟩⟩ := spill_at hat
    · exact hparam 0 v (by revert v; decide)
    · by_cases h : v = 5
      · subst h
        exact Or.inr (Or.inr ⟨0, by omega, 0, _, ⟨rfl, rfl⟩, mem_singleton_self _⟩)
      · exact hparam 1 v (by simp at hv ⊢; tauto)
    by_cases h : v = 6
    · subst h
      exact Or.inr (Or.inr ⟨1, by omega, 1, _, ⟨rfl, rfl⟩, mem_singleton_self _⟩)
    · exact hparam 2 v (by simp at hv ⊢; tauto)
  arguments := fun h _ => (spill_transfer h).elim
  arity := fun h => (spill_transfer h).elim

/-- Where `q` is 8 bytes away from `p`, the load reads `x`. -/
theorem forwarded_load_sound_apart :
    WidthAdjusted ((spillEnd 0 8).word 3) ((spillEnd 0 8).word 7) := by
  have hentries : spillFunction.EntriesReturn spillFunction.isEntry := by
    intro _ _ _ _ _ hsingle
    obtain ⟨⟨_, _, _, htransfer, _⟩, _⟩ := hsingle
    exact (spill_transfer htransfer).elim
  have hwalk : spillFunction.walk spillLoad = [⟨2, 4, false⟩, ⟨1, 3, true⟩] := rfl
  refine CompactFunction.forwarded_load_sound spill_strictSSA hentries spill_forwarded
    (spill_comes 0 8) (spill_runs 0 8) ?_ ?_
  · rw [hwalk]
    constructor
    · intro w hw hnot
      simp only [mem_cons, not_mem_nil, or_false] at hw
      rcases hw with rfl | rfl
      · show Apart 8 8 0 8
        intro i hi j hj
        omega
      · cases hnot
    · intro w hw hfound
      simp only [mem_cons, not_mem_nil, or_false] at hw
      rcases hw with rfl | rfl
      · cases hfound
      · exact ⟨rfl, rfl⟩
  · intro o ho
    have hnone : spillFunction.identityOps spillLoad.source = [] := rfl
    rw [hnone] at ho
    cases ho

end Airece
