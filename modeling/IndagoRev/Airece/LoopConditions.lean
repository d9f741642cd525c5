import IndagoRev.Airece.ConcreteValues
import IndagoRev.Airece.LoopInduction

/-!
# What a recovered comparison says

`comparison_operands` strips constants of one bit from a condition without looking at
what they are.  Every layer that negates turns the recovered comparison around, so it
means the condition exactly if an even number of layers does.
-/

namespace Airece.ControlRecovery

open StdText

/-- The operator that a comparison names. -/
def LoopComparison.operator : LoopComparison → InfixOp
  | eq => .eq
  | ne => .ne
  | ult => .ult
  | ule => .ule
  | slt => .slt
  | sle => .sle

variable (comparison : LoopComparison)

/-- The comparison holds between two words. -/
def LoopComparison.Holds (left right : Word) : Prop :=
  comparison.operator.compare left right = some true

instance (comparison : LoopComparison) (left right : Word) :
    Decidable (comparison.Holds left right) := inferInstanceAs (Decidable (_ = _))

/-- The bit of a constant. -/
def constantBit (m : XairModule) (v : ValueId) : Bool :=
  match constantI64 m v with
  | some c => c % 2 == 1
  | none => false

/-- Whether a layer negates: an equality with false, or an inequality or an exclusive or
with true. -/
def layerNegates (m : XairModule) (o : XairOp) : Bool :=
  match o.inputs with
  | a :: b :: _ =>
    let bit := constantBit m (if isBooleanConstant m b then b else a)
    if o.opcode = .eq then !bit else bit
  | _ => false

/-- How many of the layers that are stripped from a condition negate. -/
def negations (m : XairModule) : Nat → ValueId → Nat
  | 0, _ => 0
  | n + 1, condition =>
    match m.definingOp condition with
    | none => 0
    | some (_, o) =>
      match wrappedOperand m o with
      | some inner => negations m n inner + (layerNegates m o).toNat
      | none => 0

variable {m : XairModule} {A : Arithmetic} {ρ : ValueId → Word}

theorem isTrue_ofBool (b : Bool) : (Word.ofBool b).isTrue = b := by
  cases b <;> decide

theorem word_of_parity (n : Nat) : (⟨1, BitVec.ofNat 1 n⟩ : Word) = Word.ofBool (n % 2 == 1) := by
  have hlow : BitVec.ofNat 1 n = BitVec.ofNat 1 (n % 2) := by
    apply BitVec.eq_of_toNat_eq
    rw [BitVec.toNat_ofNat, BitVec.toNat_ofNat]
    omega
  rw [hlow]
  rcases Nat.mod_two_eq_zero_or_one n with h | h
  · rw [h]
    rfl
  · rw [h]
    rfl

theorem binary_ofBool (A : Arithmetic) (x k : Bool) :
    A.binary .eq (Word.ofBool x) (Word.ofBool k) = Word.ofBool (x == k) ∧
      A.binary .ne (Word.ofBool x) (Word.ofBool k) = Word.ofBool (x != k) ∧
      A.binary .xor (Word.ofBool x) (Word.ofBool k) = Word.ofBool (x != k) := by
  refine ⟨?_, ?_, ?_⟩
  · cases x <;> cases k <;> rfl
  · cases x <;> cases k <;> rfl
  · have hxor : A.binary .xor (Word.ofBool x) (Word.ofBool k) =
        ⟨1, BitVec.ofBool x ^^^ BitVec.ofBool k⟩ := A.apply_xor _ _
    rw [hxor]
    cases x <;> cases k <;> rfl

theorem word_of_booleanConstant (hρ : Valuation m A ρ) {v : ValueId}
    (h : isBooleanConstant m v = true) : ρ v = Word.ofBool (constantBit m v) := by
  simp only [isBooleanConstant, Bool.and_eq_true, beq_iff_eq] at h
  obtain ⟨hsome, hbits⟩ := h
  obtain ⟨c, hc⟩ := Option.isSome_iff_exists.mp hsome
  rw [constantBit, hc]
  unfold constantI64 at hc
  split at hc
  · rename_i id o hdef
    split at hc
    · rename_i hop
      injection hc with hc
      obtain ⟨hlow, hword⟩ := hρ.constant hdef (.inl hop)
      rw [hword, constantWord, if_pos hop, hbits]
      have hparity : c % 2 = (o.immediateLow : Int) % 2 := by
        rw [← hc, BitVec.toInt_eq_toNat_cond, BitVec.toNat_ofNat, Nat.mod_eq_of_lt hlow]
        split
        · rfl
        · rw [show ((2 ^ 64 : Nat) : Int) = 2 * 9223372036854775808 from rfl]
          omega
      rw [word_of_parity]
      dsimp only
      rw [hparity]
      congr 1
      rcases Nat.mod_two_eq_zero_or_one o.immediateLow with heven | hodd
      · have hint : (o.immediateLow : Int) % 2 = 0 := by omega
        rw [heven, hint]
        rfl
      · have hint : (o.immediateLow : Int) % 2 = 1 := by omega
        rw [hodd, hint]
        rfl
    · cases hc
  · cases hc

theorem word_of_layer (hρ : Valuation m A ρ) {v inner : ValueId} {id : OpId} {o : XairOp}
    (hdef : m.definingOp v = some (id, o)) (hinner : wrappedOperand m o = some inner) {x : Bool}
    (hx : ρ inner = Word.ofBool x) : ρ v = Word.ofBool (x ^^ layerNegates m o) := by
  unfold wrappedOperand at hinner
  split at hinner
  · rename_i hop
    split at hinner
    · rename_i a b rest hin
      have hnegates : layerNegates m o =
          let bit := constantBit m (if isBooleanConstant m b then b else a)
          if o.opcode = .eq then !bit else bit := by rw [layerNegates, hin]
      rw [hnegates]
      split at hinner
      · rename_i hb
        injection hinner with hinner
        subst hinner
        have hconstant := word_of_booleanConstant hρ hb
        rw [if_pos hb]
        generalize constantBit m b = k at hconstant
        obtain ⟨heq, hne, hxor⟩ := binary_ofBool A x k
        obtain hop | hop | hop := hop
        · have hvalue := hρ.binary hdef (show o.opcode.infixOp = some .eq by rw [hop]; rfl) hin
          rw [hvalue, hx, hconstant, heq, if_pos hop]
          cases x <;> cases k <;> rfl
        · have hvalue := hρ.binary hdef (show o.opcode.infixOp = some .ne by rw [hop]; rfl) hin
          rw [hvalue, hx, hconstant, hne, if_neg (by rw [hop]; decide)]
        · have hvalue := hρ.binary hdef (show o.opcode.infixOp = some .xor by rw [hop]; rfl) hin
          rw [hvalue, hx, hconstant, hxor, if_neg (by rw [hop]; decide)]
      · split at hinner
        · rename_i hb ha
          injection hinner with hinner
          subst hinner
          have hconstant := word_of_booleanConstant hρ ha
          rw [if_neg hb]
          generalize constantBit m a = k at hconstant
          obtain ⟨heq, hne, hxor⟩ := binary_ofBool A k x
          obtain hop | hop | hop := hop
          · have hvalue := hρ.binary hdef (show o.opcode.infixOp = some .eq by rw [hop]; rfl) hin
            rw [hvalue, hx, hconstant, heq, if_pos hop]
            cases x <;> cases k <;> rfl
          · have hvalue := hρ.binary hdef (show o.opcode.infixOp = some .ne by rw [hop]; rfl) hin
            rw [hvalue, hx, hconstant, hne, if_neg (by rw [hop]; decide)]
            cases x <;> cases k <;> rfl
          · have hvalue := hρ.binary hdef (show o.opcode.infixOp = some .xor by rw [hop]; rfl) hin
            rw [hvalue, hx, hconstant, hxor, if_neg (by rw [hop]; decide)]
            cases x <;> cases k <;> rfl
        · cases hinner
    · cases hinner
  · cases hinner

variable {comparison : LoopComparison}

/-- What is not wrapped means the comparison that is read from it. -/
theorem word_of_operands (hρ : Valuation m A ρ) {v left right : ValueId} {id : OpId} {o : XairOp}
    (hdef : m.definingOp v = some (id, o)) (h : operandsOf m o = some (left, right, comparison)) :
    ρ v = A.binary comparison.operator (ρ left) (ρ right) := by
  unfold operandsOf at h
  split at h
  · rename_i found hfound
    split at h
    · rename_i a b rest hin
      simp only [Option.some.injEq, Prod.mk.injEq] at h
      obtain ⟨rfl, rfl, rfl⟩ := h
      refine hρ.binary hdef ?_ hin
      unfold directComparison at hfound
      split at hfound <;> cases hfound <;> rename_i hop <;> rw [hop] <;> rfl
    · cases h
  · split at h
    · rename_i found f rest hfound hin
      split at h
      · rename_i id' flags hflags
        split at h
        · rename_i hsub
          split at h
          · rename_i a b rest' hin'
            simp only [Option.some.injEq, Prod.mk.injEq] at h
            obtain ⟨rfl, rfl, rfl⟩ := h
            unfold flagComparison at hfound
            split at hfound
            · rename_i hop
              cases hfound
              exact hρ.zeroFlag hdef hop hin hflags hsub hin'
            · rename_i hop
              cases hfound
              exact hρ.carryFlag hdef hop hin hflags hsub hin'
            · cases hfound
          · cases h
        · cases h
      · cases h
    · cases h

theorem LoopComparison.compare_some (l r : Word) :
    ∃ b, comparison.operator.compare l r = some b := by
  cases comparison <;> exact ⟨_, rfl⟩

/-- A condition is its comparison, negated as often as its layers say. -/
theorem word_of_comparison (hρ : Valuation m A ρ) {n : Nat} {condition left right : ValueId}
    (h : comparisonOperands m n condition = some (left, right, comparison)) :
    ρ condition = Word.ofBool (decide (comparison.Holds (ρ left) (ρ right)) ^^
      decide (negations m n condition % 2 = 1)) := by
  induction n generalizing condition with
  | zero => cases h
  | succ n ih =>
    unfold comparisonOperands at h
    cases hdef : m.definingOp condition with
    | none => simp [hdef] at h
    | some d =>
      obtain ⟨id, o⟩ := d
      simp only [hdef] at h
      cases hinner : wrappedOperand m o with
      | some inner =>
        simp only [hinner] at h
        have hcount : negations m (n + 1) condition =
            negations m n inner + (layerNegates m o).toNat := by
          simp only [negations, hdef, hinner]
        rw [word_of_layer hρ hdef hinner (ih h), hcount]
        congr 1
        cases layerNegates m o with
        | false => simp
        | true =>
          rcases Nat.mod_two_eq_zero_or_one (negations m n inner) with heven | hodd
          · have hnext : (negations m n inner + 1) % 2 = 1 := by omega
            simp [heven, hnext]
          · have hnext : (negations m n inner + 1) % 2 = 0 := by omega
            simp [hodd, hnext]
      | none =>
        simp only [hinner] at h
        have hcount : negations m (n + 1) condition = 0 := by
          simp only [negations, hdef, hinner]
        obtain ⟨b, hb⟩ := comparison.compare_some (ρ left) (ρ right)
        rw [word_of_operands hρ hdef h, Arithmetic.binary, hb, hcount]
        simp [LoopComparison.Holds, hb]

/-- The recovered comparison means the condition exactly if an even number of the stripped
layers negates. -/
theorem comparison_denotes_iff (m : XairModule) (A : Arithmetic) (ρ : ValueId → Word)
    (hρ : Valuation m A ρ) (n : Nat) (condition left right : ValueId) (comparison : LoopComparison)
    (h : comparisonOperands m n condition = some (left, right, comparison)) :
    ((ρ condition).isTrue = true ↔ comparison.Holds (ρ left) (ρ right)) ↔
      negations m n condition % 2 = 0 := by
  rw [word_of_comparison hρ h, isTrue_ofBool]
  rcases Nat.mod_two_eq_zero_or_one (negations m n condition) with heven | hodd
  · simp [heven]
  · by_cases hholds : comparison.Holds (ρ left) (ρ right)
    · simp [hodd, hholds]
    · simp [hodd, hholds]

/-- The negation of `v0 < v1`, once as an exclusive or with true and once undone again. -/
def negatedModule : XairModule where
  values :=
    [{ type := { kind := .int, bits := 64 } }, { type := { kind := .int, bits := 64 } },
     { type := { kind := .int, bits := 1 }, definition := some 0 },
     { type := { kind := .int, bits := 1 }, definition := some 1 },
     { type := { kind := .int, bits := 1 }, definition := some 2 },
     { type := { kind := .int, bits := 1 }, definition := some 3 }]
  ops :=
    [{ opcode := .ult, inputs := [0, 1], results := [2] },
     { opcode := .constU64, results := [3], immediateLow := 1 },
     { opcode := .xor, inputs := [2, 3], results := [4] },
     { opcode := .ne, inputs := [3, 4], results := [5] }]
  blocks := []
  opcodeName := fun _ => []

/-- Its words where `v0` is 3 and `v1` is 5. -/
def negatedWords : List Word :=
  [⟨64, 3⟩, ⟨64, 5⟩, ⟨1, 1⟩, ⟨1, 1⟩, ⟨1, 0⟩, ⟨1, 1⟩]

theorem valuation_negatedWords : Valuation negatedModule wrapping (wordOf negatedWords) :=
  valuation_of_words rfl (by decide) (by decide)

/-- The negation is false, and the comparison that is read from it holds. -/
theorem negated_comparison_differs : comparisonOperands negatedModule 7 4 = some (0, 1, .ult) ∧
      Valuation negatedModule wrapping (wordOf negatedWords) ∧
      (wordOf negatedWords 4).isTrue = false ∧
      LoopComparison.ult.Holds (wordOf negatedWords 0) (wordOf negatedWords 1) :=
  ⟨by decide, valuation_negatedWords, by decide, by decide⟩

/-- Two layers that negate. -/
theorem twice_negated_comparison : ((wordOf negatedWords 5).isTrue = true ↔
        LoopComparison.ult.Holds (wordOf negatedWords 0) (wordOf negatedWords 1)) ↔
      negations negatedModule 7 5 % 2 = 0 :=
  comparison_denotes_iff negatedModule wrapping (wordOf negatedWords) valuation_negatedWords 7 5 0 1
    .ult (by decide)

end Airece.ControlRecovery
