import IndagoRev.Airece.ExpressionView

/-!
# Invariants of renderings

What holds of every name and every constant and is kept by each form of text
holds of every rendering.  Only an inlined load is a form with a condition of its
own: it is there because the root is a load, or because `load_is_safe` allowed it.
-/

namespace Airece

open StdText

/-- A property of renderings that every form of text keeps, a load apart. -/
structure ShownClosed (P : Shown → Prop) : Prop where
  leaf : ∀ v text, P (.leaf v text)
  word : ∀ text, P (.word text)
  binary : ∀ op l r, P l → P r → P (.binary op l r)
  negated : ∀ e, P e → P (.negated e)
  zeroTest : ∀ e, P e → P (.zeroTest e)
  cast : ∀ opcode type name e, P e → P (.cast opcode type name e)
  select : ∀ c a b, P c → P a → P b → P (.select c a b)
  function : ∀ name args, (∀ a ∈ args, P a) → P (.function name args)
  apply : ∀ callee args, P callee → (∀ a ∈ args, P a) → P (.apply callee args)

section
variable {ctx : RenderContext} {P : Shown → Prop} {operand : Operand}

/-- A name without arguments, as a malformed operation is shown. -/
theorem ShownClosed.malformed (hP : ShownClosed P) (name : Text) : P (.function name []) :=
  hP.function name [] (by simp)

theorem ShownClosed.unary (hP : ShownClosed P) (name : Text) {e : Shown} (h : P e) :
    P (.function name [e]) := by
  refine hP.function name [e] ?_
  intro a ha
  rw [List.mem_singleton.mp ha]
  exact h

theorem renderOperands_closed (hoperand : ∀ w s, P (operand w s).1) (inputs : List ValueId) :
    ∀ s, ∀ a ∈ (renderOperands operand inputs s).1, P a := by
  induction inputs with
  | nil =>
    intro s a ha
    cases ha
  | cons v rest ih =>
    intro s a ha
    rcases List.mem_cons.mp ha with rfl | ha
    · exact hoperand v s
    · exact ih _ a ha

theorem renderBinary_closed (hP : ShownClosed P) (hoperand : ∀ w s, P (operand w s).1)
    (inputs : List ValueId) (op : InfixOp) (s : RenderState) :
    P (renderBinary operand inputs op s).1 := by
  unfold renderBinary
  split
  · exact hP.binary _ _ _ (hoperand _ _) (hoperand _ _)
  · exact hP.malformed _

theorem renderComparison_closed (hP : ShownClosed P) (hoperand : ∀ w s, P (operand w s).1)
    (inputs : List ValueId) (opcode : Opcode) (s : RenderState) :
    P (renderComparison ctx operand inputs opcode s).1 := by
  unfold renderComparison
  split
  · exact hP.malformed _
  split
  · split
    · exact hP.negated _ (hoperand _ _)
    · exact hoperand _ _
  · exact renderBinary_closed hP hoperand _ _ _

theorem renderFlag_closed (hP : ShownClosed P) (hoperand : ∀ w s, P (operand w s).1)
    (flag : Opcode) (flags : ValueId) (s : RenderState) :
    P (renderFlag ctx operand flag flags s).1 := by
  have hleaf : P (leaf ctx flags) := hP.leaf _ _
  unfold renderFlag
  simp only
  split
  · exact hP.unary _ hleaf
  next id o hdef =>
    split
    · exact hP.unary _ hleaf
    split
    · exact renderBinary_closed hP hoperand _ _ _
    split
    · exact renderBinary_closed hP hoperand _ _ _
    -- the arithmetic whose flag is shown
    generalize harithmetic : ite (o.opcode = .flagsLogic) _ _ = arithmetic
    have hshown : P arithmetic.1 := by
      rw [← harithmetic]
      split
      · split
        · exact hoperand _ _
        · exact hleaf
      · exact renderBinary_closed hP hoperand _ _ _
    split
    · exact hP.zeroTest _ hshown
    · exact hP.unary _ hshown

theorem renderCall_closed (hP : ShownClosed P) (hoperand : ∀ w s, P (operand w s).1)
    (inputs : List ValueId) (a : OpAttributes) (s : RenderState) :
    P (renderCall ctx operand inputs a s).1 := by
  unfold renderCall
  simp only
  split
  · exact hP.function _ _ (renderOperands_closed hoperand _ _)
  split
  · exact hP.function _ _ (renderOperands_closed hoperand _ _)
  · split
    · exact hP.apply _ _ (hoperand _ _) (renderOperands_closed hoperand _ _)
    · exact hP.function _ _ (renderOperands_closed hoperand _ _)

/-- **Operations.**  `render_operation` keeps a closed property, if a load that it
shows may be shown. -/
theorem renderOperation_closed (hP : ShownClosed P) (hoperand : ∀ w s, P (operand w s).1)
    {v : ValueId} {id : OpId} {o : XairOp}
    (hload : o.opcode = .load → ∀ bits e, P e → P (.load id bits e)) (s : RenderState) :
    P (renderOperation ctx operand v id o s).1 := by
  have hargs : ∀ name inputs s, P (.function name (renderOperands operand inputs s).1) :=
    fun name inputs s => hP.function _ _ (renderOperands_closed hoperand inputs s)
  unfold renderOperation
  simp only
  split
  all_goals first
    | exact hP.word _
    | exact renderBinary_closed hP hoperand _ _ _
    | exact renderComparison_closed hP hoperand _ _ _
    | exact renderCall_closed hP hoperand _ _ _
    | exact hP.unary _ (hP.word _)
    | exact hargs _ _ _
    | split
  all_goals first
    | exact hP.malformed _
    | exact renderBinary_closed hP hoperand _ _ _
    | exact renderFlag_closed hP hoperand _ _ _
    | exact hP.unary _ (hoperand _ _)
    | exact hP.select _ _ _ (hoperand _ _) (hoperand _ _) (hoperand _ _)
    | exact hload ‹_› _ _ (hoperand _ _)
    | exact hargs _ _ _
    | split
  all_goals first
    | exact hP.negated _ (hoperand _ _)
    | exact hP.cast _ _ _ _ (hoperand _ _)
    | exact hoperand _ _

/-- **Operands.**  Below the root, `render_value` keeps a closed property that
every load allowed by `load_is_safe` keeps. -/
theorem renderValue_closed (hP : ShownClosed P) {horizon : OpId}
    (hload : ∀ id bits e, ctx.module.loadIsSafe id horizon = true → P e → P (.load id bits e))
    (n : Nat) : ∀ v depth s, P (renderValue ctx n v horizon depth false s).1 := by
  induction n with
  | zero =>
    intro v depth s
    exact hP.leaf _ _
  | succ n ih =>
    intro v depth s
    rw [renderValue, renderValueWith]
    simp only
    split
    · exact hP.unary _ (hP.word _)
    split
    · exact hP.leaf _ _
    next id hid =>
      split
      · exact hP.leaf _ _
      next o ho =>
        split
        · exact hP.leaf _ _
        split
        · exact hP.leaf _ _
        next hallowed =>
          refine renderOperation_closed hP (fun w s => ih w _ s) ?_ _
          intro hop bits e he
          refine hload id bits e ?_ he
          simp only [canExpand, Bool.false_eq_true, if_false] at hallowed
          split at hallowed
          · simp at hallowed
          · simp [mayExpand, hop] at hallowed
            exact hallowed.2

/-- **The root.**  The root rendering of a value keeps a closed property that the
root operation and every load allowed below it keep. -/
theorem renderRoot_closed (hP : ShownClosed P) {v : ValueId}
    (hroot : ∀ id o bits e, ctx.module.valueDefinition v = some id → ctx.module.op id = some o →
      o.opcode = .load → P e → P (.load id bits e)) (hload : ∀ id bits e, ctx.module.loadIsSafe id
      ((ctx.module.valueDefinition v).getD invalidId) = true → P e → P (.load id bits e)) :
    P (renderRoot ctx v).1 := by
  unfold renderRoot
  rw [renderValue, renderValueWith]
  simp only
  split
  · exact hP.unary _ (hP.word _)
  split
  · exact hP.leaf _ _
  next id hid =>
    split
    · exact hP.leaf _ _
    next o ho =>
      split
      · exact hP.leaf _ _
      split
      · exact hP.leaf _ _
      refine renderOperation_closed hP
        (fun w s => renderValue_closed hP hload _ w _ s) ?_ _
      intro hop bits e he
      exact hroot id o bits e hid ho hop he

end

end Airece
