import IndagoRev.Airece.ExpressionValue

/-!
# Assignments that are written out

A list of words, one for each value of a module, is an assignment of the module if the
operation of every value holds for it, which can be looked up.
-/

namespace Airece

/-- What a flag of a subtraction says about its word. -/
def FlagHolds (m : XairModule) (A : Arithmetic) (ρ : ValueId → Word) (v : ValueId)
    (o : XairOp) (flag : Opcode) (op : InfixOp) : Prop :=
  o.opcode = flag → ∀ f ∈ o.inputs[0]?, ∀ d ∈ m.definingOp f, d.2.opcode = .flagsSub →
    ∀ a ∈ d.2.inputs[0]?, ∀ b ∈ d.2.inputs[1]?, ρ v = A.binary op (ρ a) (ρ b)

instance (m : XairModule) (A : Arithmetic) (ρ : ValueId → Word) (v : ValueId) (o : XairOp)
    (flag : Opcode) (op : InfixOp) : Decidable (FlagHolds m A ρ v o flag op) := by
  unfold FlagHolds
  infer_instance

/-- What the operation of a value says about its word. -/
def DefinitionHolds (m : XairModule) (A : Arithmetic) (ρ : ValueId → Word) (v : ValueId)
    (o : XairOp) : Prop :=
  ((o.opcode = .constU64 ∨ o.opcode = .constWide) →
    o.immediateLow < 2 ^ 64 ∧ ρ v = constantWord o (m.valueType v)) ∧
  (∀ op ∈ o.opcode.infixOp, ∀ a ∈ o.inputs[0]?, ∀ b ∈ o.inputs[1]?, ρ v = A.binary op (ρ a) (ρ b)) ∧
  (o.opcode = .eq ∨ o.opcode = .ne ∨ o.opcode = .xor →
    ∀ a ∈ o.inputs[0]?, ∀ b ∈ o.inputs[1]?, (ρ a).width = (ρ b).width) ∧
  (o.opcode = .select → ∀ c ∈ o.inputs[0]?, ∀ a ∈ o.inputs[1]?, ∀ b ∈ o.inputs[2]?,
    ρ v = if (ρ c).isTrue then ρ a else ρ b) ∧
  (o.opcode ∈ castOpcodes → ∀ a ∈ o.inputs[0]?,
    castWord o.opcode (m.valueType v).bits (ρ a) = some (ρ v)) ∧
  FlagHolds m A ρ v o .flagZf .eq ∧ FlagHolds m A ρ v o .flagCf .ult

instance (m : XairModule) (A : Arithmetic) (ρ : ValueId → Word) (v : ValueId) (o : XairOp) :
    Decidable (DefinitionHolds m A ρ v o) := by
  unfold DefinitionHolds
  infer_instance

/-- The assignment of a list of words. -/
def wordOf (words : List Word) (v : ValueId) : Word := words.getD v ⟨0, 0⟩

theorem lt_of_definingOp {m : XairModule} {v : ValueId} {d : OpId × XairOp}
    (h : m.definingOp v = some d) : v < m.valueCount := by
  by_contra hv
  have hnone : m.values[v]? = none := List.getElem?_eq_none (Nat.le_of_not_lt hv)
  simp [XairModule.definingOp, XairModule.valueDefinition, hnone] at h

theorem valuation_of_words {m : XairModule} {A : Arithmetic} {words : List Word}
    (hlength : words.length = m.valueCount)
    (hwidth : ∀ v < m.valueCount, (wordOf words v).width = (m.valueType v).bits)
    (hholds : ∀ v < m.valueCount, ∀ d ∈ m.definingOp v,
      DefinitionHolds m A (wordOf words) v d.2) : Valuation m A (wordOf words) where
  width v := by
    by_cases hv : v < m.valueCount
    · exact hwidth v hv
    · have hnone : m.values[v]? = none := List.getElem?_eq_none (Nat.le_of_not_lt hv)
      have hword : words[v]? = none :=
        List.getElem?_eq_none (hlength ▸ Nat.le_of_not_lt hv)
      simp [wordOf, XairModule.valueType, hnone, hword]
  constant h hop := (hholds _ (lt_of_definingOp h) _ h).1 hop
  binary h hop hin :=
    (hholds _ (lt_of_definingOp h) _ h).2.1 _ hop _ (by simp [hin]) _ (by simp [hin])
  sameWidth h hop hin :=
    (hholds _ (lt_of_definingOp h) _ h).2.2.1 hop _ (by simp [hin]) _ (by simp [hin])
  select h hop hin :=
    (hholds _ (lt_of_definingOp h) _ h).2.2.2.1 hop _ (by simp [hin]) _ (by simp [hin]) _
      (by simp [hin])
  cast h hop hin := (hholds _ (lt_of_definingOp h) _ h).2.2.2.2.1 hop _ (by simp [hin])
  zeroFlag h hop hin hf hop' hin' :=
    (hholds _ (lt_of_definingOp h) _ h).2.2.2.2.2.1 hop _ (by simp [hin]) _ hf hop' _
      (by simp [hin']) _ (by simp [hin'])
  carryFlag h hop hin hf hop' hin' :=
    (hholds _ (lt_of_definingOp h) _ h).2.2.2.2.2.2 hop _ (by simp [hin]) _ hf hop' _
      (by simp [hin']) _ (by simp [hin'])

/-- Sums, differences and products of words, wrapping around. -/
def wrapping : Arithmetic where
  apply op l r :=
    match op with
    | .add => ⟨l.width, l.bits + r.bits.setWidth l.width⟩
    | .sub => ⟨l.width, l.bits - r.bits.setWidth l.width⟩
    | .mul => ⟨l.width, l.bits * r.bits.setWidth l.width⟩
    | _ => ⟨l.width, l.bits ^^^ r.bits.setWidth l.width⟩
  apply_xor x y := by rw [BitVec.setWidth_eq]

end Airece
