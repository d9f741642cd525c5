import IndagoRev.Airece.AddressIdentity
import IndagoRev.Airece.ControlAccounting

/-!
# What a recovered induction promises

`induction_step` asks whether the sum that a back edge passes depends on the parameter, not
whether it is the parameter that the constant is added to, and the last back edge and the
last edge into the loop decide.  Where every back edge passes the parameter with one
constant added to it, with the same constant in all, and the edges into the loop pass one
value, the parameter takes the recovered step in every iteration.
-/

namespace Airece.ControlRecovery

open StdText Wrapping List

variable {m : XairModule} {A : Arithmetic} {ρ : ValueId → Word} {p : ValueId}

/-- A value that is the parameter, or a cast of it that loses nothing of its width. -/
inductive Kept (m : XairModule) (p : ValueId) : ValueId → Prop
  | self : Kept m p p
  | cast {v a : ValueId} {id : OpId} {o : XairOp} {rest : List ValueId}
      (hop : m.definingOp v = some (id, o)) (hcast : isStepCast o.opcode = true)
      (hlow : o.opcode = .extract → o.immediateLow = 0) (hin : o.inputs = a :: rest)
      (hwide : (m.valueType p).bits ≤ (m.valueType v).bits) (hkept : Kept m p a) : Kept m p v

/-- A constant that is not both wide and negative. -/
def ReadDirectly (m : XairModule) (b : ValueId) : Prop :=
  (m.valueType b).bits ≤ 64 ∨ ∀ c, constantI64 m b = some c → 0 ≤ c

/-- A value that is the parameter with one constant added to it, and casts of that. -/
inductive MovedOnce (m : XairModule) (p : ValueId) : ValueId → Int → Prop
  | add {v a b : ValueId} {id : OpId} {o : XairOp} {rest : List ValueId} {c : Int}
      (hop : m.definingOp v = some (id, o)) (hadd : o.opcode = .add)
      (hin : o.inputs = a :: b :: rest) (hkept : Kept m p a) (hc : constantI64 m b = some c)
      (hread : ReadDirectly m b) : MovedOnce m p v c
  | addSecond {v a b : ValueId} {id : OpId} {o : XairOp} {rest : List ValueId} {c : Int}
      (hop : m.definingOp v = some (id, o)) (hadd : o.opcode = .add)
      (hin : o.inputs = a :: b :: rest) (hkept : Kept m p b) (hc : constantI64 m a = some c)
      (hread : ReadDirectly m a) : MovedOnce m p v c
  | sub {v a b : ValueId} {id : OpId} {o : XairOp} {rest : List ValueId} {c : Int}
      (hop : m.definingOp v = some (id, o)) (hsub : o.opcode = .sub)
      (hin : o.inputs = a :: b :: rest) (hkept : Kept m p a) (hc : constantI64 m b = some c)
      (hread : ReadDirectly m b) : MovedOnce m p v (-c)
  | cast {v a : ValueId} {id : OpId} {o : XairOp} {rest : List ValueId} {c : Int}
      (hop : m.definingOp v = some (id, o)) (hcast : isStepCast o.opcode = true)
      (hlow : o.opcode = .extract → o.immediateLow = 0) (hin : o.inputs = a :: rest)
      (hwide : (m.valueType p).bits ≤ (m.valueType v).bits) (hmoved : MovedOnce m p a c) :
      MovedOnce m p v c

/-- What the extractions of a module compute. -/
def ExtractsHold (m : XairModule) (ρ : ValueId → Word) : Prop :=
  ∀ {v a id o rest}, m.definingOp v = some (id, o) → o.opcode = .extract → o.inputs = a :: rest →
    ρ v = ⟨(m.valueType v).bits, ((ρ a).bits >>> o.immediateLow).setWidth _⟩

/-- Two words agree in their lower bits, up to a number that is added to the second one. -/
def Ahead (w : Nat) (x y : Word) (c : Int) : Prop :=
  (x.bits.toNat : Int) % 2 ^ w = (y.bits.toNat + c) % 2 ^ w

variable {w : Nat}

theorem Ahead.trans {x y z : Word} {c d : Int} (h : Ahead w x y c) (h' : Ahead w y z d) :
    Ahead w x z (d + c) := by
  unfold Ahead at h h' ⊢
  rw [h, Int.add_emod, h', ← Int.add_emod, Int.add_assoc]

theorem ahead_refl (w : Nat) (x : Word) : Ahead w x x 0 := by
  unfold Ahead
  rw [Int.add_zero]

/-- Words that a form describes agree with its first word in the bits that it keeps. -/
theorem ahead_of_describes {x y : Word} {signed : Bool} {bits : Nat}
    (hy : w ≤ y.width) (hx : w ≤ bits)
    (h : ((Form.base y.width 0).cast signed bits).Describes y.bits.toNat x.bits) :
    Ahead w x y 0 := by
  have hlt : (y.bits.toNat : Int) < 2 ^ y.width := by exact_mod_cast y.bits.isLt
  have hvalue : (Form.base y.width 0).value y.bits.toNat = y.bits.toNat := by
    rw [Form.value, Int.add_zero, Int.emod_eq_of_lt (Int.natCast_nonneg _) hlt]
  unfold Ahead
  rw [h.2, Form.value_cast, Form.emod_pow_emod hx, hvalue, Int.add_zero]
  split
  · rfl
  · exact Form.extended_emod hy signed _

variable {rest : List ValueId} {o : XairOp} {id : OpId}

theorem ahead_of_cast (hρ : Valuation m A ρ) (hextracts : ExtractsHold m ρ) {v a : ValueId}
    (hop : m.definingOp v = some (id, o)) (hcast : isStepCast o.opcode = true)
    (hlow : o.opcode = .extract → o.immediateLow = 0) (hin : o.inputs = a :: rest)
    (hv : w ≤ (m.valueType v).bits) (ha : w ≤ (m.valueType a).bits) : Ahead w (ρ v) (ρ a) 0 := by
  have hwidth : w ≤ (ρ a).width := by rwa [hρ.width]
  have hbase := Form.describes_base (ρ a).bits
  by_cases hextract : o.opcode = .extract
  · have hvalue := hextracts hop hextract hin
    rw [hvalue, hlow hextract]
    rw [BitVec.ushiftRight_zero]
    exact ahead_of_describes hwidth hv (hbase.setWidth _)
  have hkeeps : keepsOffset o.opcode = true ∧ o.opcode ∈ castOpcodes := by
    simp only [isStepCast, Bool.or_eq_true, beq_iff_eq] at hcast
    obtain ((h | h) | h) | h := hcast
    · rw [h]
      decide
    · rw [h]
      decide
    · rw [h]
      decide
    · exact absurd h hextract
  exact ahead_of_describes hwidth hv
    (describes_castWord hkeeps.1 hbase (hρ.cast hop hkeeps.2 hin))

variable {v : ValueId}

/-- What is kept has at least the width of the parameter, and agrees with it there. -/
theorem Kept.ahead (hρ : Valuation m A ρ) (hextracts : ExtractsHold m ρ)
    (h : Kept m p v) : (m.valueType p).bits ≤ (m.valueType v).bits ∧
      Ahead (m.valueType p).bits (ρ v) (ρ p) 0 := by
  induction h with
  | self => exact ⟨Nat.le_refl _, ahead_refl _ _⟩
  | cast hop hcast hlow hin hwide _ ih =>
    exact ⟨hwide, (ahead_of_cast hρ hextracts hop hcast hlow hin hwide ih.1).trans ih.2⟩

variable {c : Int}

/-- A constant that is read directly has the word of the number that is read. -/
theorem constantI64_emod (hρ : Valuation m A ρ) {b : ValueId}
    (hc : constantI64 m b = some c) (hread : ReadDirectly m b) :
    ((ρ b).bits.toNat : Int) % 2 ^ (ρ b).width = c % 2 ^ (ρ b).width := by
  have hsmall : (m.valueType b).bits ≤ 64 ∨ 0 ≤ c := hread.imp_right (fun h => h c hc)
  unfold constantI64 at hc
  cases hdef : m.definingOp b with
  | none => simp [hdef] at hc
  | some found =>
    obtain ⟨id, o⟩ := found
    simp only [hdef] at hc
    split at hc
    · rename_i hop
      injection hc with hc
      obtain ⟨hnat, hword⟩ := word_of_constant hρ hdef hop
      refine hword c ?_
      rw [← hc]
      rcases hsmall with hnarrow | hpositive
      · -- the sign of the number is above the width
        have hextended := Form.extended_emod hnarrow true (o.immediateLow : Int)
        rw [Form.extended, if_pos rfl] at hextended
        rw [BitVec.toInt_eq_toNat_bmod, hnat]
        exact hextended.symm
      · rw [toInt_of_nonneg hnat (by rw [hc]; exact hpositive)]
    · cases hc

variable {v a b : ValueId}

theorem ahead_of_add (hA : Modular A) (hρ : Valuation m A ρ) (hsums : SumsTyped m)
    (hop : m.definingOp v = some (id, o)) (hadd : o.opcode = .add)
    (hin : o.inputs = a :: b :: rest) (hw : w ≤ (m.valueType a).bits) :
    (∀ c, constantI64 m b = some c → ReadDirectly m b → Ahead w (ρ v) (ρ a) c) ∧
      ∀ c, constantI64 m a = some c → ReadDirectly m a → Ahead w (ρ v) (ρ b) c := by
  have hsame : (ρ a).width = (ρ b).width := by
    rw [hρ.width, hρ.width]
    exact hsums hop (by rw [hadd]; rfl) hin
  have hvalue := hρ.binary hop (show o.opcode.infixOp = some .add by rw [hadd]; rfl) hin
  have hwidth : w ≤ (ρ a).width := by rwa [hρ.width]
  have hdescribed : ∀ {x y : Word} {c : Int}, w ≤ y.width →
      ((Form.base y.width 0).move c).Describes y.bits.toNat x.bits → Ahead w x y c := by
    intro x y c hy h
    have hlt : (y.bits.toNat : Int) < 2 ^ y.width := by exact_mod_cast y.bits.isLt
    unfold Ahead
    rw [h.2, Form.move, Form.value, Int.zero_add, Form.emod_pow_emod hy]
  rw [hvalue]
  constructor
  · intro c hc hread
    exact hdescribed hwidth (hA.describes_add hsame (Form.describes_base (ρ a).bits)
      (constantI64_emod hρ hc hread)).1
  · intro c hc hread
    exact hdescribed (hsame ▸ hwidth) (hA.describes_add hsame.symm
      (Form.describes_base (ρ b).bits) (constantI64_emod hρ hc hread)).2

theorem ahead_of_sub (hA : Modular A) (hρ : Valuation m A ρ) (hsums : SumsTyped m)
    (hop : m.definingOp v = some (id, o)) (hsub : o.opcode = .sub)
    (hin : o.inputs = a :: b :: rest) (hw : w ≤ (m.valueType a).bits)
    (hc : constantI64 m b = some c) (hread : ReadDirectly m b) : Ahead w (ρ v) (ρ a) (-c) := by
  have hsame : (ρ a).width = (ρ b).width := by
    rw [hρ.width, hρ.width]
    exact hsums hop (by rw [hsub]; rfl) hin
  have hvalue := hρ.binary hop (show o.opcode.infixOp = some .sub by rw [hsub]; rfl) hin
  have hwidth : w ≤ (ρ a).width := by rwa [hρ.width]
  have hform := hA.describes_sub hsame (Form.describes_base (ρ a).bits)
    (constantI64_emod hρ hc hread)
  unfold Ahead
  rw [hvalue, hform.2, Form.move, Form.value, Int.zero_add, Form.emod_pow_emod hwidth]

theorem width_of_sum (hA : Modular A) (hρ : Valuation m A ρ) (hsums : SumsTyped m)
    (hop : m.definingOp v = some (id, o)) (hsum : o.opcode = .add ∨ o.opcode = .sub)
    (hin : o.inputs = a :: b :: rest) :
    (m.valueType v).bits = (m.valueType a).bits ∧ (m.valueType v).bits = (m.valueType b).bits := by
  have hsame : (m.valueType a).bits = (m.valueType b).bits :=
    hsums hop (by rcases hsum with h | h <;> rw [h] <;> rfl) hin
  have hresult : ∀ {x y : Word}, x.width = y.width → (A.binary .add x y).width = x.width ∧
      (A.binary .sub x y).width = x.width := by
    intro x y hxy
    obtain ⟨n, x⟩ := x
    obtain ⟨k, y⟩ := y
    dsimp only at hxy
    subst hxy
    have hadd : A.binary .add ⟨n, x⟩ ⟨n, y⟩ = ⟨n, x + y⟩ := hA.add x y
    have hsub : A.binary .sub ⟨n, x⟩ ⟨n, y⟩ = ⟨n, x - y⟩ := hA.sub x y
    rw [hadd, hsub]
    exact ⟨rfl, rfl⟩
  have hboth := @hresult (ρ a) (ρ b) (by rw [hρ.width, hρ.width, hsame])
  have hwidth : (m.valueType v).bits = (m.valueType a).bits := by
    rw [← hρ.width v, ← hρ.width a]
    rcases hsum with h | h
    · rw [hρ.binary hop (show o.opcode.infixOp = some .add by rw [h]; rfl) hin]
      exact hboth.1
    · rw [hρ.binary hop (show o.opcode.infixOp = some .sub by rw [h]; rfl) hin]
      exact hboth.2
  exact ⟨hwidth, hwidth.trans hsame⟩

/-- **Moved once.**  In every execution the value is the parameter plus the constant, modulo
two to the width of the parameter. -/
theorem MovedOnce.ahead (hA : Modular A) (hρ : Valuation m A ρ) (hextracts : ExtractsHold m ρ)
    (hsums : SumsTyped m) (h : MovedOnce m p v c) :
    (m.valueType p).bits ≤ (m.valueType v).bits ∧ Ahead (m.valueType p).bits (ρ v) (ρ p) c := by
  induction h with
  | @add v a b id o rest c hop hadd hin hkept hc hread =>
    obtain ⟨hwide, hsame⟩ := hkept.ahead hρ hextracts
    have hwidth := (width_of_sum hA hρ hsums hop (.inl hadd) hin).1
    have hmoved := ((ahead_of_add hA hρ hsums hop hadd hin hwide).1 c hc hread).trans hsame
    rw [Int.zero_add] at hmoved
    exact ⟨hwidth ▸ hwide, hmoved⟩
  | @addSecond v a b id o rest c hop hadd hin hkept hc hread =>
    obtain ⟨hwide, hsame⟩ := hkept.ahead hρ hextracts
    obtain ⟨hfirst, hwidth⟩ := width_of_sum hA hρ hsums hop (.inl hadd) hin
    have hwide' : (m.valueType p).bits ≤ (m.valueType a).bits := by
      rw [← hfirst, hwidth]
      exact hwide
    have hmoved := ((ahead_of_add hA hρ hsums hop hadd hin hwide').2 c hc hread).trans hsame
    rw [Int.zero_add] at hmoved
    exact ⟨hwidth ▸ hwide, hmoved⟩
  | @sub v a b id o rest c hop hsub hin hkept hc hread =>
    obtain ⟨hwide, hsame⟩ := hkept.ahead hρ hextracts
    have hwidth := (width_of_sum hA hρ hsums hop (.inr hsub) hin).1
    have hmoved := (ahead_of_sub hA hρ hsums hop hsub hin hwide hc hread).trans hsame
    rw [Int.zero_add] at hmoved
    exact ⟨hwidth ▸ hwide, hmoved⟩
  | cast hop hcast hlow hin hwide _ ih =>
    have hmoved := (ahead_of_cast hρ hextracts hop hcast hlow hin hwide ih.1).trans ih.2
    rw [Int.add_zero] at hmoved
    exact ⟨hwide, hmoved⟩

theorem constantI64_of_kept (hp : m.definingOp p = none) (h : Kept m p v) :
    constantI64 m v = none := by
  unfold constantI64
  cases h with
  | self => rw [hp]
  | cast hop hcast _ _ _ _ =>
    rw [hop]
    dsimp only
    rw [if_neg]
    intro hconst
    rw [hconst] at hcast
    cases hcast

theorem nonzero_eq {c step : Int} (h : nonzero c = some step) : step = c := by
  unfold nonzero at h
  split at h
  · cases h
  · exact (Option.some.inj h).symm

/-- The step that is recovered from a value that is moved once is what it is moved by. -/
theorem MovedOnce.step (hp : m.definingOp p = none) {v : ValueId} {c : Int}
    (h : MovedOnce m p v c) : ∀ n step, inductionStep m p n v = some step → step = c := by
  induction h with
  | @add v a b id o rest c hop hadd hin hkept hc _ =>
    intro n step hstep
    cases n with
    | zero => cases hstep
    | succ n =>
      have hnocast : isStepCast .add = false := rfl
      simp only [inductionStep, hop, hnocast, stepOf, hadd, hin, true_or, if_true, hc] at hstep
      have hnone := constantI64_of_kept hp hkept
      by_cases hdepends : dependsOn m p 16 a = true
      · simp only [if_pos hdepends, reduceCtorEq, if_false] at hstep
        exact nonzero_eq hstep
      · simp [hdepends, hnone] at hstep
  | @addSecond v a b id o rest c hop hadd hin hkept hc _ =>
    intro n step hstep
    cases n with
    | zero => cases hstep
    | succ n =>
      have hnocast : isStepCast .add = false := rfl
      have hnone := constantI64_of_kept hp hkept
      simp only [inductionStep, hop, hnocast, stepOf, hadd, hin, true_or, if_true, hc, hnone,
        ite_self, true_and] at hstep
      by_cases hdepends : dependsOn m p 16 b = true
      · simp only [if_pos hdepends] at hstep
        exact nonzero_eq hstep
      · simp [hdepends] at hstep
  | @sub v a b id o rest c hop hsub hin hkept hc _ =>
    intro n step hstep
    cases n with
    | zero => cases hstep
    | succ n =>
      have hnocast : isStepCast .sub = false := rfl
      simp only [inductionStep, hop, hnocast, stepOf, hsub, hin, or_true, if_true, hc] at hstep
      by_cases hdepends : dependsOn m p 16 a = true
      · simp only [if_pos hdepends] at hstep
        exact nonzero_eq hstep
      · simp [hdepends] at hstep
  | @cast v a id o rest c hop hcast hlow hin _ _ ih =>
    intro n step hstep
    cases n with
    | zero => cases hstep
    | succ n =>
      simp only [inductionStep, hop, hcast, hin] at hstep
      exact ih n step hstep

variable {block : NodeId → Option BlockId} {loop : LoopRecord} {target : BlockId}
  {backEdges : List (NodeId × NodeId)} {edges : List EdgeRecord}

/-- What the terminator of a node passes for a parameter of a block. -/
def passedBy (m : XairModule) (block : NodeId → Option BlockId) (target : BlockId) (p : ValueId)
    (source : NodeId) : List ValueId :=
  match (block source).bind m.terminator with
  | none => []
  | some t =>
    t.targets.flatMap (fun arm =>
      if arm.1 = target then
        (((m.blockParams target).zip arm.2).filter (fun slot => slot.1 = p)).map Prod.snd
      else [])

/-- What the back edges of a loop pass for a parameter of its header. -/
def passedBack (m : XairModule) (block : NodeId → Option BlockId)
    (backEdges : List (NodeId × NodeId)) (loop : LoopRecord) (target : BlockId) (p : ValueId) :
    List ValueId :=
  (backEdges.filter (fun e => e.2 == loop.header && loop.members.contains e.1)).flatMap
    (fun e => passedBy m block target p e.1)

/-- What the edges into a loop pass for a parameter of its header. -/
def passedIn (m : XairModule) (block : NodeId → Option BlockId) (edges : List EdgeRecord)
    (loop : LoopRecord) (target : BlockId) (p : ValueId) : List ValueId :=
  (edges.filter (fun e =>
    e.edge.dst == loop.header && !loop.members.contains e.edge.src)).flatMap
    (fun e => passedBy m block target p e.edge.src)

theorem mem_passedBy {source : NodeId} {i : Nat} {a : ValueId}
    (hparam : (m.blockParams target)[i]? = some p)
    (h : edgeArgument m block source target i = some a) : a ∈ passedBy m block target p source := by
  unfold edgeArgument at h
  unfold passedBy
  cases hterm : (block source).bind m.terminator with
  | none =>
    rw [hterm] at h
    cases h
  | some t =>
    rw [hterm] at h
    dsimp only at h ⊢
    obtain ⟨hfound, _⟩ := Option.filter_eq_some_iff.mp h
    have harm : ∀ args : List ValueId, args[i]? = some a →
        a ∈ (((m.blockParams target).zip args).filter (fun slot => slot.1 = p)).map Prod.snd := by
      intro args hargs
      refine mem_map.mpr ⟨(p, a), mem_filter.mpr ⟨?_, by simp⟩, rfl⟩
      exact mem_of_getElem? (by rw [getElem?_zip_eq_some]; exact ⟨hparam, hargs⟩)
    refine mem_flatMap.mpr ?_
    split at hfound
    · rename_i b htrue
      split at htrue
      · rename_i htarget
        refine ⟨(t.trueTarget, t.trueArgs), by simp [Terminator.targets], ?_⟩
        rw [if_pos htarget]
        exact harm _ (htrue.trans hfound)
      · cases htrue
    · split at hfound
      · rename_i htarget
        refine ⟨(t.falseTarget, t.falseArgs), by simp [Terminator.targets], ?_⟩
        rw [if_pos htarget]
        exact harm _ hfound
      · cases hfound

theorem backArguments_subset {i : Nat} (hparam : (m.blockParams target)[i]? = some p) :
    backArguments m block backEdges loop target i ⊆ passedBack m block backEdges loop target p := by
  intro a ha
  obtain ⟨e, he, hargument⟩ := mem_filterMap.mp ha
  exact mem_flatMap.mpr ⟨e, he, mem_passedBy hparam hargument⟩

theorem entryArguments_subset {i : Nat} (hparam : (m.blockParams target)[i]? = some p) :
    entryArguments m block edges loop target i ⊆ passedIn m block edges loop target p := by
  intro a ha
  obtain ⟨e, he, hargument⟩ := mem_filterMap.mp ha
  exact mem_flatMap.mpr ⟨e, he, mem_passedBy hparam hargument⟩

theorem definingOp_of_findLoad (n : Nat) {v loaded : ValueId} (h : findLoad m n v = some loaded) :
    m.definingOp loaded ≠ none := by
  induction n generalizing v with
  | zero => cases h
  | succ n ih =>
    unfold findLoad at h
    cases hop : m.definingOp v with
    | none => simp [hop] at h
    | some found =>
      obtain ⟨id, o⟩ := found
      simp only [hop] at h
      split at h
      · cases h
        rw [hop]
        exact Option.some_ne_none _
      · split at h
        · exact ih h
        · cases h

theorem variable_of_storedInduction {left right : ValueId} {comparison : LoopComparison}
    {found : ControlInduction}
    (h : recoverStoredInduction m block loop left right comparison = some found) :
    m.definingOp found.variable ≠ none := by
  have hside : ∀ {expression bound found},
      storedInduction m block loop expression bound comparison = some found →
        m.definingOp found.variable ≠ none := by
    intro expression bound found h
    unfold storedInduction at h
    split at h
    · cases h
    rename_i loaded hloaded
    split at h
    · cases h
    · obtain ⟨step, _, heq⟩ := Option.map_eq_some_iff.mp h
      cases heq
      exact definingOp_of_findLoad 12 hloaded
  unfold recoverStoredInduction at h
  split at h
  · rename_i first hfirst
    cases h
    exact hside hfirst
  · exact hside h

/-- A recovered parameter takes its step from a value that a back edge passes, and its initial
value from one that an edge into the loop passes. -/
theorem recoverInduction_spec {condition : ValueId} (hblock : block loop.header = some target)
    (hrecovered : (recoverInduction m block backEdges edges loop condition).recovered = true)
    (hparam : m.definingOp
      (recoverInduction m block backEdges edges loop condition).variable = none) :
    (∃ update ∈ passedBack m block backEdges loop target
        (recoverInduction m block backEdges edges loop condition).variable,
      inductionStep m (recoverInduction m block backEdges edges loop condition).variable
        (m.valueCount + 1) update =
          some (recoverInduction m block backEdges edges loop condition).step) ∧
      ((recoverInduction m block backEdges edges loop condition).initial ≠ invalidId →
        (recoverInduction m block backEdges edges loop condition).initial ∈
          passedIn m block edges loop target
            (recoverInduction m block backEdges edges loop condition).variable) := by
  generalize hresult : recoverInduction m block backEdges edges loop condition = found
    at hrecovered hparam ⊢
  unfold recoverInduction at hresult
  rw [hblock] at hresult
  dsimp only at hresult
  split at hresult
  · subst hresult
    cases hrecovered
  split at hresult
  · subst hresult
    cases hrecovered
  rename_i left right comparison _
  split at hresult
  · rename_i result hfound
    subst hresult
    obtain ⟨slot, hslot, hsome⟩ := exists_of_findSome?_eq_some hfound
    have hindex : (m.blockParams target)[slot.2]? = some slot.1 :=
      mem_zipIdx_iff_getElem?.mp hslot
    unfold parameterInduction at hsome
    dsimp only at hsome
    split at hsome
    · cases hsome
    split at hsome
    · cases hsome
    rename_i update hupdate
    obtain ⟨step, hstep, heq⟩ := Option.map_eq_some_iff.mp hsome
    subst heq
    refine ⟨⟨update, backArguments_subset hindex (mem_of_getLast? hupdate), hstep⟩, ?_⟩
    dsimp only
    intro hset
    cases hlast : (entryArguments m block edges loop target slot.2).getLast? with
    | none =>
      rw [hlast] at hset
      exact absurd rfl hset
    | some initial =>
      exact entryArguments_subset hindex (mem_of_getLast? hlast)
  · cases hstored : recoverStoredInduction m block loop left right comparison with
    | none =>
      rw [hstored] at hresult
      subst hresult
      cases hrecovered
    | some stored =>
      rw [hstored] at hresult
      cases hresult
      exact absurd hparam (variable_of_storedInduction hstored)

/-- Every back edge passes the parameter with one constant added, with the same constant in
all, and the edges into the loop pass one value. -/
structure Counts (m : XairModule) (p : ValueId) (backs entries : List ValueId) : Prop where
  moved : ∀ a ∈ backs, ∃ c, MovedOnce m p a c
  alike : ∀ a ∈ backs, ∀ a' ∈ backs, ∀ c c', MovedOnce m p a c → MovedOnce m p a' c' →
    c % 2 ^ (m.valueType p).bits = c' % 2 ^ (m.valueType p).bits
  entered : ∀ a ∈ entries, ∀ a' ∈ entries, a = a' ∨ m.valueType a = m.valueType a' ∧
    ∃ c, constantI64 m a = some c ∧ constantI64 m a' = some c

/-- The words of all values at some time of an execution. -/
structure Executes (m : XairModule) (A : Arithmetic) (ρ : ValueId → Word) : Prop where
  valuation : Valuation m A ρ
  extracts : ExtractsHold m ρ

/-- The iterations of a loop: it starts with the word that an edge into the loop passes for the
parameter, and goes on with the words that back edges pass. -/
inductive Iteration (m : XairModule) (A : Arithmetic) (p : ValueId) (backs entries : List ValueId) :
    Word → Nat → (ValueId → Word) → Prop
  | enter {σ ρ : ValueId → Word} {a : ValueId} (hσ : Executes m A σ) (hρ : Executes m A ρ)
      (ha : a ∈ entries) (hp : ρ p = σ a) : Iteration m A p backs entries (σ a) 0 ρ
  | again {start : Word} {n : Nat} {ρ ρ' : ValueId → Word} {a : ValueId}
      (hloop : Iteration m A p backs entries start n ρ) (hρ : Executes m A ρ') (ha : a ∈ backs)
      (hp : ρ' p = ρ a) : Iteration m A p backs entries start (n + 1) ρ'

variable {backs entries : List ValueId} {start : Word} {n : Nat}

theorem Iteration.executes (h : Iteration m A p backs entries start n ρ) : Executes m A ρ := by
  cases h with
  | enter _ hρ _ _ => exact hρ
  | again _ hρ _ _ => exact hρ

/-- **One iteration.**  The step of one back edge is the step of all of them. -/
theorem Counts.ahead (hA : Modular A) (hsums : SumsTyped m) (hcounts : Counts m p backs entries)
    (hp : m.definingOp p = none) {update : ValueId} (hupdate : update ∈ backs) {k : Nat}
    {step : Int} (hstep : inductionStep m p k update = some step) (hρ : Executes m A ρ)
    {a : ValueId} (ha : a ∈ backs) : Ahead (m.valueType p).bits (ρ a) (ρ p) step := by
  obtain ⟨c, hmoved⟩ := hcounts.moved update hupdate
  obtain ⟨c', hmoved'⟩ := hcounts.moved a ha
  have hsame := hcounts.alike update hupdate a ha c c' hmoved hmoved'
  have hahead := (hmoved'.ahead hA hρ.valuation hρ.extracts hsums).2
  rw [hmoved.step hp k step hstep]
  unfold Ahead at hahead ⊢
  rw [hahead, Int.add_emod, ← hsame, ← Int.add_emod]

/-- **All iterations.**  After some iterations the parameter is that many steps ahead. -/
theorem Iteration.ahead {step : Int} (hstep : ∀ ρ, Executes m A ρ → ∀ a ∈ backs,
      Ahead w (ρ a) (ρ p) step) (h : Iteration m A p backs entries start n ρ) :
    Ahead w (ρ p) start (n * step) := by
  induction h with
  | enter _ _ _ hp =>
    rw [hp]
    simpa using ahead_refl w _
  | @again start n ρ ρ' a hloop hρ ha hp ih =>
    rw [hp]
    have hnext := (hstep ρ hloop.executes a ha).trans ih
    have hsteps : (n : Int) * step + step = (n + 1 : Nat) * step := by
      push_cast
      rw [Int.add_mul, Int.one_mul]
    rwa [hsteps] at hnext

theorem Counts.word_entered (hcounts : Counts m p backs entries) (hρ : Valuation m A ρ)
    {a a' : ValueId} (ha : a ∈ entries) (ha' : a' ∈ entries) : ρ a = ρ a' := by
  have hread : ∀ {v : ValueId} {c : Int}, constantI64 m v = some c →
      ρ v = ⟨(m.valueType v).bits, BitVec.ofNat _ (BitVec.ofInt 64 c).toNat⟩ := by
    intro v c hc
    unfold constantI64 at hc
    cases hdef : m.definingOp v with
    | none => simp [hdef] at hc
    | some found =>
      obtain ⟨id, o⟩ := found
      simp only [hdef] at hc
      split at hc
      · rename_i hop
        injection hc with hc
        obtain ⟨hlow, hword⟩ := hρ.constant hdef (.inl hop)
        have hnat : (BitVec.ofInt 64 c).toNat = o.immediateLow := by
          rw [← hc, BitVec.ofInt_toInt, BitVec.toNat_ofNat, Nat.mod_eq_of_lt hlow]
        rw [hword, hnat, constantWord, if_pos hop]
      · cases hc
  rcases hcounts.entered a ha a' ha' with rfl | ⟨htype, c, hc, hc'⟩
  · rfl
  · rw [hread hc, hread hc', htype]

/-- A region with an induction is that of a loop. -/
def FromLoop (cfg : ControlCfg) (m : XairModule) (nodeSet : List NodeId)
    (analysis : Option FunctionAnalysis) (region : ControlRegion) : Prop :=
  region.induction.recovered = true → ∃ loop ∈ loopsOf analysis, region.header = loop.header ∧
    ∃ condition, region.induction =
      recoverInduction m cfg.block (backEdgesOf analysis) (cfg.flowEdges nodeSet) loop condition

variable {cfg : ControlCfg} {options : ControlOptions} {nodeSet : List NodeId}
  {analysis : Option FunctionAnalysis}

variable {region : ControlRegion}

theorem fromLoop_addRegion {view : ControlView}
    (hview : ∀ r ∈ view.regions, FromLoop cfg m nodeSet analysis r)
    (hregion : FromLoop cfg m nodeSet analysis region) :
    ∀ r ∈ (addRegion options view region).regions, FromLoop cfg m nodeSet analysis r := by
  unfold addRegion
  split
  · exact hview
  intro r hr
  rcases mem_append.mp hr with hr | hr
  · exact hview r hr
  · rw [mem_singleton.mp hr]
    exact hregion

theorem fromLoop_plain (h : region.induction = {}) : FromLoop cfg m nodeSet analysis region := by
  intro hrecovered
  rw [h] at hrecovered
  cases hrecovered

theorem fromLoop_loopRegion {loop : LoopRecord} (hloop : loop ∈ loopsOf analysis) :
    FromLoop cfg m nodeSet analysis (loopRegion cfg m nodeSet analysis loop) :=
  fun _ => ⟨loop, hloop, (loopRegion_spec loop).1, _, rfl⟩

theorem fromLoop_switchRegion (node : NodeId) :
    FromLoop cfg m nodeSet analysis (switchRegion cfg nodeSet analysis node) := by
  refine fromLoop_plain ?_
  unfold switchRegion
  dsimp only
  split <;> rfl

theorem fromLoop_branchRegion (node : NodeId) (first second : EdgeRecord) :
    FromLoop cfg m nodeSet analysis (branchRegion cfg m analysis node first second) := by
  refine fromLoop_plain ?_
  unfold branchRegion
  dsimp only
  split
  · rfl
  · split <;> rfl

theorem fromLoop_sequencePass (n : Nat) {s : Building} {nodes : List NodeId}
    (hs : ∀ r ∈ s.view.regions, FromLoop cfg m nodeSet analysis r) :
    ∀ r ∈ (sequencePass cfg options nodeSet analysis n s nodes).view.regions,
      FromLoop cfg m nodeSet analysis r := by
  induction n generalizing s nodes with
  | zero => exact hs
  | succ n ih =>
    cases nodes with
    | nil => exact hs
    | cons node rest =>
      unfold sequencePass
      dsimp only
      split
      · exact ih hs
      · exact ih (fromLoop_addRegion hs (fromLoop_plain rfl))

theorem fromLoop_branchAt {s : Building} (node : NodeId)
    (hs : ∀ r ∈ s.view.regions, FromLoop cfg m nodeSet analysis r) :
    ∀ r ∈ (branchAt cfg m options nodeSet analysis s node).view.regions,
      FromLoop cfg m nodeSet analysis r := by
  unfold branchAt
  dsimp only
  split
  · exact hs
  split
  · exact fromLoop_addRegion hs (fromLoop_switchRegion node)
  split
  · split
    · exact hs
    · exact fromLoop_addRegion hs (fromLoop_branchRegion node _ _)
  · exact hs

theorem fromLoop_regionView {start : ControlView} (hstart : start.regions = []) :
    ∀ r ∈ (regionView cfg m options nodeSet analysis start).regions,
      FromLoop cfg m nodeSet analysis r := by
  have hfirst : ∀ r ∈ start.regions, FromLoop cfg m nodeSet analysis r := by
    rw [hstart]
    exact fun r hr => nomatch hr
  have hloops : ∀ r ∈ (loopPass cfg m options nodeSet analysis { view := start }).view.regions,
      FromLoop cfg m nodeSet analysis r :=
    List.foldlRecOn (motive := fun s : Building =>
      ∀ r ∈ s.view.regions, FromLoop cfg m nodeSet analysis r) _ _ hfirst
      (fun s hs loop hloop => fromLoop_addRegion hs (fromLoop_loopRegion hloop))
  have hbranches := List.foldlRecOn (motive := fun s : Building =>
      ∀ r ∈ s.view.regions, FromLoop cfg m nodeSet analysis r)
    start.blockOrder (branchAt cfg m options nodeSet analysis) hloops
    (fun s hs node _ => fromLoop_branchAt node hs)
  have hsequences := @fromLoop_sequencePass m cfg options nodeSet analysis
    start.blockOrder.length _ start.blockOrder hbranches
  unfold regionView
  dsimp only
  refine List.foldlRecOn (motive := fun v : ControlView =>
    ∀ r ∈ v.regions, FromLoop cfg m nodeSet analysis r) _ _ ?_ ?_
  · split
    · exact fromLoop_addRegion hsequences (fromLoop_plain rfl)
    · exact hsequences
  intro view hview node _
  unfold leftoverAt
  split
  · exact hview
  · exact fromLoop_addRegion hview (fromLoop_plain rfl)

theorem fromLoop_build {function : FunctionId} {f : ControlFunction}
    (hf : cfg.functions[function]? = some f) : ∀ r ∈ (build cfg m options function).regions,
      FromLoop cfg m (cfg.nodeSet f) (cfg.analysis function) r := by
  unfold build
  rw [hf]
  dsimp only
  split
  · exact fun r hr => nomatch hr
  · rw [(transferred_foldl _ _).regions]
    exact fromLoop_regionView rfl

/-- **Induction.**  A region with a recovered induction over a parameter of its header is that
of a loop.  If the back edges of this loop pass the parameter with one constant added, with
the same one in all, and the edges into it pass one value, then in every iteration of every
execution each back edge passes the parameter plus the recovered step, the parameter has
taken the step as often as there were iterations, and the recovered initial value is what
each edge into the loop passes. -/
theorem recovered_induction (cfg : ControlCfg) (m : XairModule) (options : ControlOptions)
    (function : FunctionId) (A : Arithmetic) (hA : Modular A) (hsums : SumsTyped m)
    (hparams : ∀ b, ∀ p ∈ m.blockParams b, m.definingOp p = none)
    (region : ControlRegion) (hregion : region ∈ (build cfg m options function).regions)
    (hrecovered : region.induction.recovered = true) (target : BlockId)
    (htarget : cfg.block region.header = some target) (p : ValueId)
    (hp : p ∈ m.blockParams target) (hvariable : region.induction.variable = p) :
    ∃ loop ∈ loopsOf (cfg.analysis function), loop.header = region.header ∧
      (let backs := passedBack m cfg.block (backEdgesOf (cfg.analysis function)) loop target p
       let entries := passedIn m cfg.block (cfg.flowEdges (functionNodes cfg function)) loop target p
       Counts m p backs entries → ∀ start n ρ, Iteration m A p backs entries start n ρ →
        (∀ a ∈ backs, Ahead (m.valueType p).bits (ρ a) (ρ p) region.induction.step) ∧
        Ahead (m.valueType p).bits (ρ p) start (n * region.induction.step) ∧
        (region.induction.initial ≠ invalidId →
          ∀ σ, Executes m A σ → ∀ a ∈ entries, σ a = σ region.induction.initial)) := by
  have hundefined := hparams target p hp
  cases hf : cfg.functions[function]? with
  | none =>
    unfold build at hregion
    rw [hf] at hregion
    cases hregion
  | some f =>
    obtain ⟨loop, hloop, hheader, condition, hinduction⟩ :=
      fromLoop_build hf region hregion hrecovered
    have hnodes : functionNodes cfg function = cfg.nodeSet f := by
      unfold functionNodes
      rw [hf]
      dsimp only
      rw [if_neg]
      intro hempty
      unfold build at hregion
      rw [hf] at hregion
      dsimp only at hregion
      rw [if_pos hempty] at hregion
      cases hregion
    refine ⟨loop, hloop, hheader.symm, ?_⟩
    dsimp only
    rw [hnodes]
    intro hcounts start n ρ hiteration
    rw [hheader] at htarget
    rw [hinduction] at hrecovered hvariable ⊢
    obtain ⟨⟨update, hupdate, hstep⟩, hinitial⟩ := recoverInduction_spec htarget hrecovered
      (hvariable ▸ hundefined)
    rw [hvariable] at hupdate hstep hinitial
    have hone : ∀ ρ, Executes m A ρ → ∀ a ∈ passedBack m cfg.block
        (backEdgesOf (cfg.analysis function)) loop target p, Ahead (m.valueType p).bits (ρ a)
          (ρ p) _ := fun ρ hρ a ha => hcounts.ahead hA hsums hundefined hupdate hstep hρ ha
    exact ⟨hone ρ hiteration.executes, hiteration.ahead hone,
      fun hset σ hσ a ha => hcounts.word_entered hσ.valuation ha (hinitial hset)⟩

/-- The loop that goes on with `v0 + 1`. -/
def countModule : XairModule :=
  { loopModule with
    ops := loopModule.ops.set 3 { opcode := .add, inputs := [0, 3], results := [4] } }

/-- The words of the values when `v0` is zero, where the loop counts. -/
def countWords : List Word := [⟨64, 0⟩, ⟨64, 2⟩, ⟨64, 0⟩, ⟨64, 1⟩, ⟨64, 1⟩, ⟨64, 10⟩, ⟨1, 1⟩, ⟨64, 0⟩]

theorem extractsHold_of_none (h : ∀ v < m.valueCount, ∀ d ∈ m.definingOp v, d.2.opcode ≠ .extract) :
    ExtractsHold m ρ := by
  intro v a id o rest hop hextract
  exact absurd hextract (h v (lt_of_definingOp hop) (id, o) hop)

theorem executes_countWords : Executes countModule wrapping (wordOf countWords) :=
  ⟨valuation_of_words rfl (by decide) (by decide), extractsHold_of_none (by decide)⟩

/-- The words of the values of the other loop in its first two iterations. -/
def doubleWords (first : Bool) : List Word :=
  if first then [⟨64, 0⟩, ⟨64, 2⟩, ⟨64, 0⟩, ⟨64, 1⟩, ⟨64, 1⟩, ⟨64, 10⟩, ⟨1, 1⟩, ⟨64, 0⟩]
  else [⟨64, 1⟩, ⟨64, 2⟩, ⟨64, 2⟩, ⟨64, 1⟩, ⟨64, 3⟩, ⟨64, 10⟩, ⟨1, 1⟩, ⟨64, 0⟩]

theorem executes_doubleWords (first : Bool) :
    Executes loopModule wrapping (wordOf (doubleWords first)) := by
  cases first <;>
  exact ⟨valuation_of_words rfl (by decide) (by decide), extractsHold_of_none (by decide)⟩

/-- The loop of the counter. -/
def countedLoop : LoopRecord := { header := 1, members := [1] }

theorem passed_count (m : XairModule) (h : m = loopModule ∨ m = countModule) :
    passedBack m loopCfg.block (backEdgesOf (loopCfg.analysis 0)) countedLoop 1 0 = [4] ∧
      passedIn m loopCfg.block (loopCfg.flowEdges (functionNodes loopCfg 0)) countedLoop 1 0 =
        [7] := by
  rcases h with rfl | rfl <;> decide

/-- A loop that adds twice as much in each iteration is said to count by one: in its second
iteration it passes three for one. -/
theorem doubled_parameter_differs :
    (∃ region ∈ (build loopCfg loopModule {} 0).regions, region.header = 1 ∧
      region.induction.recovered = true ∧ region.induction.variable = 0 ∧
      region.induction.step = 1) ∧
    Iteration loopModule wrapping 0 [4] [7] (wordOf (doubleWords true) 7) 1
      (wordOf (doubleWords false)) ∧
    passedBack loopModule loopCfg.block (backEdgesOf (loopCfg.analysis 0)) countedLoop 1 0 = [4] ∧
    Modular wrapping ∧
    ¬ Ahead 64 (wordOf (doubleWords false) 4) (wordOf (doubleWords false) 0) 1 := by
  refine ⟨by decide, ?_, (passed_count loopModule (.inl rfl)).1, modular_wrapping, by unfold Ahead; decide⟩
  have hfirst : Iteration loopModule wrapping 0 [4] [7] (wordOf (doubleWords true) 7) 0
      (wordOf (doubleWords true)) :=
    .enter (executes_doubleWords true) (executes_doubleWords true) mem_cons_self rfl
  exact .again hfirst (executes_doubleWords false) mem_cons_self rfl

theorem sumsTyped_countModule : SumsTyped countModule := by
  intro v id o a b rest h hmoves hin
  have hall : ∀ v < 8, ∀ d ∈ countModule.definingOp v,
      (isAddition d.2.opcode || isSubtraction d.2.opcode) = true → ∀ a ∈ d.2.inputs[0]?,
        ∀ b ∈ d.2.inputs[1]?, (countModule.valueType a).bits = (countModule.valueType b).bits := by
    decide
  exact hall v (lt_of_definingOp h) _ h hmoves a (by simp [hin]) b (by simp [hin])

/-- The counter passes its parameter plus one. -/
theorem counted_loop_steps : Ahead 64 (wordOf countWords 4) (wordOf countWords 0) 1 := by
  have hregion : ∃ region ∈ (build loopCfg countModule {} 0).regions, region.header = 1 ∧
      region.induction.recovered = true ∧ region.induction.variable = 0 ∧
      region.induction.step = 1 := by
    decide
  obtain ⟨region, hmem, hheader, hrecovered, hvariable, hstep⟩ := hregion
  have hparams : ∀ b, ∀ p ∈ countModule.blockParams b, countModule.definingOp p = none := by
    intro b p hp
    match b, hp with
    | 0, hp => cases hp
    | 1, hp =>
      rw [mem_singleton.mp hp]
      rfl
    | 2, hp => cases hp
    | b + 3, hp => cases hp
  obtain ⟨loop, hloop, _, hcounts⟩ := recovered_induction loopCfg countModule {} 0 wrapping
    modular_wrapping sumsTyped_countModule hparams region hmem hrecovered 1 (by rw [hheader]; rfl)
    0 mem_cons_self hvariable
  have hsame : loop = countedLoop := mem_singleton.mp hloop
  obtain ⟨hback, hin⟩ := passed_count countModule (.inr rfl)
  rw [hsame, hback, hin] at hcounts
  have hmoved : MovedOnce countModule 0 4 1 :=
    .add rfl rfl rfl .self rfl (.inl (by decide))
  have hamount : ∀ c, MovedOnce countModule 0 4 c → 1 = c :=
    fun c hc => hc.step rfl 9 1 (by decide)
  have hone := hcounts ⟨?_, ?_, ?_⟩ (wordOf countWords 7) 0 (wordOf countWords)
    (.enter executes_countWords executes_countWords mem_cons_self rfl)
  · have hback := hone.1 4 mem_cons_self
    rwa [hstep] at hback
  · intro a ha
    rw [mem_singleton.mp ha]
    exact ⟨1, hmoved⟩
  · intro a ha a' ha' c c' hc hc'
    rw [mem_singleton.mp ha] at hc
    rw [mem_singleton.mp ha'] at hc'
    rw [← hamount c hc, ← hamount c' hc']
  · intro a ha a' ha'
    rw [mem_singleton.mp ha, mem_singleton.mp ha']
    exact Or.inl rfl

end Airece.ControlRecovery
