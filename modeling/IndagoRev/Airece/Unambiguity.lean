import IndagoRev.Airece.ExpressionValue

/-!
# Unambiguous expression text

Which value trees have the same text.  The text of a tree of leaves, constants,
infix operators, conditionals and casts is the text of one expression, whose value
is the value of the tree; so trees with the same text have the same value, unless
a conditional is the condition of another one: those are printed without
parentheses and read as if the conditionals were nested the other way.
-/

namespace Airece

open StdText List

/-- A rendering made of leaves, constants, infix operators, conditionals and casts
only. -/
def Shown.IsTree : Shown → Prop
  | .leaf _ _ | .word _ => True
  | .binary _ l r => l.IsTree ∧ r.IsTree
  | .cast _ _ _ e => e.IsTree
  | .select c a b => c.IsTree ∧ a.IsTree ∧ b.IsTree
  | _ => False

/-- The leaves of such a rendering: values with the names they are shown by. -/
def Shown.leaves : Shown → List (ValueId × Text)
  | .leaf v text => [(v, text)]
  | .binary _ l r => l.leaves ++ r.leaves
  | .cast _ _ _ e => e.leaves
  | .select c a b => c.leaves ++ (a.leaves ++ b.leaves)
  | _ => []

-- The equations of the recursions, once for all proofs below.
section
attribute [local simp] Shown.IsTree Shown.leaves
end

/-- Whether a rendering is a conditional. -/
def Shown.isSelect : Shown → Bool
  | .select _ _ _ => true
  | _ => false

/-- No conditional is the condition of another one. -/
def Shown.Flat : Shown → Prop
  | .binary _ l r => l.Flat ∧ r.Flat
  | .cast _ _ _ e => e.Flat
  | .select c a b => c.isSelect = false ∧ c.Flat ∧ a.Flat ∧ b.Flat
  | _ => True

/-- The expression of such a rendering. -/
def Shown.expr : Shown → Expr InfixOp
  | .leaf _ text | .word text => .word text
  | .binary op l r => .binary op l.expr r.expr
  | .cast _ _ name e => .call (.word name) e.expr
  | .select c a b => .select c.expr a.expr b.expr
  | _ => .word []

/-- The meaning of expression text under an assignment of words to the names of
leaves. -/
def treeMeaning (name : Opcode → Text) (A : Arithmetic) (leaf : Text → Word) : Meaning where
  name t := (constantOf t).getD (leaf t)
  arithmetic := A.apply
  function f args :=
    match args, castOf name f with
    | [w], some (opcode, bits) => (castWord opcode bits w).getD ⟨0, 0#0⟩
    | _, _ => ⟨0, 0#0⟩
  apply w _ := w

/-- A leaf whose name is a word of the language and no constant, with the value
that its name is assigned. -/
def LeafNamed (leaf : Text → Word) (ρ : ValueId → Word) (l : ValueId × Text) : Prop :=
  IsName infixOps l.2 ∧ constantOf l.2 = none ∧ ρ l.1 = leaf l.2

variable {s : Shown}

theorem Shown.isText_expr (htree : s.IsTree) (hwords : s.Words) : s.rendered.IsText s.expr := by
  induction s using Shown.IsTree.induct with
  | case1 v text => exact isText_word hwords
  | case2 text => exact isText_word hwords
  | case3 op l r ihl ihr =>
    have hl := ihl htree.1 hwords.1
    have hr := ihr htree.2 hwords.2
    refine ⟨⟨hl.1, hr.1⟩, ?_, rfl⟩
    rw [Shown.rendered, parenthesize_eq hl, parenthesize_eq hr]
    simp [Shown.expr, Expr.text, Expr.tokens, spaced, Token.text, infixOps]
  | case4 opcode type name e ih => exact isText_call hwords.1 (ih htree hwords.2)
  | case5 c a b ihc iha ihb =>
    have hc := ihc htree.1 hwords.1
    have ha := iha htree.2.1 hwords.2.1
    have hb := ihb htree.2.2 hwords.2.2
    refine ⟨⟨hc.1, ha.1, hb.1⟩, ?_, rfl⟩
    rw [Shown.rendered, parenthesize_eq hc, parenthesize_eq ha, parenthesize_eq hb]
    simp [Shown.expr, Expr.text, Expr.tokens, Token.text, precedenceSelect]
  | case6 s h1 h2 h3 h4 h5 =>
    cases s <;> simp_all [Shown.IsTree]

/-- Without a conditional as a condition, the expression of a tree is read as it
is. -/
theorem Shown.norm_expr (htree : s.IsTree) (hflat : s.Flat) : s.expr.norm = s.expr := by
  induction s using Shown.IsTree.induct with
  | case1 v text => rfl
  | case2 text => rfl
  | case3 op l r ihl ihr =>
    rw [Shown.expr, Expr.norm, ihl htree.1 hflat.1, ihr htree.2 hflat.2]
  | case4 opcode type name e ih =>
    rw [Shown.expr, Expr.norm, ih htree hflat]
    rfl
  | case5 c a b ihc iha ihb =>
    rw [Shown.expr, Expr.norm, ihc htree.1 hflat.2.1, iha htree.2.1 hflat.2.2.1,
      ihb htree.2.2 hflat.2.2.2]
    have hplain := hflat.1
    cases c <;> first | rfl | simp [Shown.isSelect] at hplain
  | case6 s h1 h2 h3 h4 h5 =>
    cases s <;> simp_all [Shown.IsTree]

theorem values_expr (I : Meaning) (s : Shown) : values I s.expr = [value I s.expr] := by
  cases s <;> rfl

section
variable {ctx : RenderContext} {A : Arithmetic} {ρ : ValueId → Word} {leaf : Text → Word}

/-- A rendering that shows a value: if it is a tree whose leaves have the values
of their names, its words are words of the language and its expression has the
value. -/
def Shows (ctx : RenderContext) (A : Arithmetic) (ρ : ValueId → Word) (leaf : Text → Word)
    (v : ValueId) (s : Shown) : Prop :=
  s.IsTree → (∀ l ∈ s.leaves, LeafNamed leaf ρ l) →
    s.Words ∧ value (treeMeaning ctx.module.opcodeName A leaf) s.expr = ρ v

variable {v : ValueId}

theorem shows_of_not_tree (h : ¬ s.IsTree) : Shows ctx A ρ leaf v s :=
  fun htree => absurd htree h

/-- A rendering shows every value that equals the one it shows. -/
theorem Shows.of_eq {v w : ValueId} (h : Shows ctx A ρ leaf w s) (heq : ρ v = ρ w) :
    Shows ctx A ρ leaf v s := by
  intro htree hleaves
  rw [heq]
  exact h htree hleaves

theorem shows_leaf (v : ValueId) : Shows ctx A ρ leaf v (Airece.leaf ctx v) := by
  intro _ hleaves
  obtain ⟨hname, hconstant, hvalue⟩ := hleaves (v, leafText ctx v) (by simp [Airece.leaf, Shown.leaves])
  refine ⟨hname, ?_⟩
  show (constantOf (leafText ctx v)).getD (leaf (leafText ctx v)) = ρ v
  rw [hconstant, hvalue]
  rfl

variable {o : XairOp} {id : OpId}

theorem shows_constant (hρ : Valuation ctx.module A ρ)
    (hdef : ctx.module.definingOp v = some (id, o))
    (hop : o.opcode = .constU64 ∨ o.opcode = .constWide) :
    Shows ctx A ρ leaf v (.word (constantText o (ctx.module.valueType v))) := by
  intro _ _
  obtain ⟨hlow, hvalue⟩ := hρ.constant hdef hop
  refine ⟨isName_constantText o _, ?_⟩
  show (constantOf _).getD _ = ρ v
  rw [constantOf_constantText _ hop hlow, hvalue]
  rfl

/-- Operands that are shown. -/
def OperandShows (ctx : RenderContext) (A : Arithmetic) (ρ : ValueId → Word) (leaf : Text → Word)
    (operand : Operand) : Prop :=
  ∀ w s, Shows ctx A ρ leaf w (operand w s).1

variable {operand : Operand} {inputs : List ValueId}

theorem renderBinary_shows (hoperand : OperandShows ctx A ρ leaf operand) {op : InfixOp}
    (h : ∀ a b rest, inputs = a :: b :: rest → ρ v = A.binary op (ρ a) (ρ b)) (s : RenderState) :
    Shows ctx A ρ leaf v (renderBinary operand inputs op s).1 := by
  unfold renderBinary
  split
  · next a b rest =>
      rintro ⟨hltree, hrtree⟩ hleaves
      obtain ⟨hlwords, hlvalue⟩ := hoperand a s hltree
        (fun l hl => hleaves l (mem_append_left _ hl))
      obtain ⟨hrwords, hrvalue⟩ := hoperand b (operand a s).2 hrtree
        (fun l hl => hleaves l (mem_append_right _ hl))
      refine ⟨⟨hlwords, hrwords⟩, ?_⟩
      rw [h a b rest rfl, ← hlvalue, ← hrvalue]
      rfl
  · exact shows_of_not_tree (by simp [Shown.IsTree])

variable {c : Bool}

theorem value_of_constantBoolean (hρ : Valuation ctx.module A ρ)
    (h : ctx.module.constantBoolean v = some c) : ρ v = Word.ofBool c := by
  unfold XairModule.constantBoolean at h
  split at h
  · cases h
  next hbits =>
    have hone : (ctx.module.valueType v).bits = 1 := by simpa using hbits
    split at h
    · next id o hdef =>
        split at h
        · next hop =>
            obtain ⟨-, hvalue⟩ := hρ.constant hdef (Or.inl hop)
            have hc : (o.immediateLow % 2 == 1) = c := by simpa using h
            rw [hvalue, constantWord, if_pos hop, hone, ← hc]
            have hmod : BitVec.ofNat 1 o.immediateLow = BitVec.ofNat 1 (o.immediateLow % 2) := by
              apply BitVec.eq_of_toNat_eq
              simp
            rw [hmod]
            rcases Nat.mod_two_eq_zero_or_one o.immediateLow with h2 | h2 <;> rw [h2] <;> rfl
        · cases h
    · cases h

/-- The boolean constant among two inputs is one of them, and the other input is
the other one. -/
theorem inputs_of_booleanOperand (hρ : Valuation ctx.module A ρ)
    {e : ValueId} (h : booleanOperand ctx inputs = some (c, e)) :
    ∃ a b rest, inputs = a :: b :: rest ∧
      (e = a ∧ ρ b = Word.ofBool c ∨ e = b ∧ ρ a = Word.ofBool c) := by
  unfold booleanOperand at h
  split at h
  · next a b rest =>
      refine ⟨a, b, rest, rfl, ?_⟩
      split at h
      · next hb =>
          cases h
          exact Or.inl ⟨rfl, value_of_constantBoolean hρ hb⟩
      rw [Option.map_eq_some_iff] at h
      obtain ⟨c', hc', heq⟩ := h
      cases heq
      exact Or.inr ⟨rfl, value_of_constantBoolean hρ hc'⟩
  · cases h

/-- An operation that compares a truth value with the constant that changes
nothing has the value of the other operand. -/
theorem value_of_neutral (hρ : Valuation ctx.module A ρ)
    (hdef : ctx.module.definingOp v = some (id, o)) {e : ValueId}
    (hconst : booleanOperand ctx o.inputs = some (c, e))
    (hop : o.opcode = .eq ∧ c = true ∨ o.opcode = .ne ∧ c = false ∨
      o.opcode = .xor ∧ c = false) : ρ v = ρ e := by
  obtain ⟨a, b, rest, hinputs, hside⟩ := inputs_of_booleanOperand hρ hconst
  have hwidth : (ρ a).width = (ρ b).width := by
    refine hρ.sameWidth hdef ?_ hinputs
    rcases hop with h | h | h
    · exact Or.inl h.1
    · exact Or.inr (Or.inl h.1)
    · exact Or.inr (Or.inr h.1)
  have hone : (ρ e).width = 1 := by
    rcases hside with ⟨rfl, hb⟩ | ⟨rfl, ha⟩
    · rw [hwidth, hb]
      rfl
    · rw [← hwidth, ha]
      rfl
  obtain ⟨t, ht⟩ := Word.exists_ofBool hone
  rcases hop with ⟨hop, rfl⟩ | ⟨hop, rfl⟩ | ⟨hop, rfl⟩
  · have hvalue : ρ v = A.binary .eq (ρ a) (ρ b) := hρ.binary hdef (by rw [hop]; rfl) hinputs
    rw [hvalue, ht]
    rcases hside with ⟨rfl, hb⟩ | ⟨rfl, ha⟩
    · rw [ht, hb, Arithmetic.binary, (Word.ofBool_eq_true t).1]
    · rw [ht, ha, Arithmetic.binary, (Word.ofBool_eq_true t).2]
  · have hvalue : ρ v = A.binary .ne (ρ a) (ρ b) := hρ.binary hdef (by rw [hop]; rfl) hinputs
    rw [hvalue, ht]
    rcases hside with ⟨rfl, hb⟩ | ⟨rfl, ha⟩
    · rw [ht, hb, Arithmetic.binary, (Word.ofBool_ne_false t).1]
    · rw [ht, ha, Arithmetic.binary, (Word.ofBool_ne_false t).2]
  · have hvalue : ρ v = A.binary .xor (ρ a) (ρ b) := hρ.binary hdef (by rw [hop]; rfl) hinputs
    rw [hvalue, ht]
    rcases hside with ⟨rfl, hb⟩ | ⟨rfl, ha⟩
    · rw [ht, hb]
      show A.apply .xor _ _ = _
      rw [Word.ofBool, Word.ofBool, A.apply_xor]
      cases t <;> rfl
    rw [ht, ha]
    show A.apply .xor _ _ = _
    rw [Word.ofBool, Word.ofBool, A.apply_xor]
    cases t <;> rfl

theorem renderComparison_shows (hρ : Valuation ctx.module A ρ)
    (hoperand : OperandShows ctx A ρ leaf operand) (hdef : ctx.module.definingOp v = some (id, o))
    (hop : o.opcode.infixOp = some (comparisonOp o.opcode)) (s : RenderState) :
    Shows ctx A ρ leaf v (renderComparison ctx operand o.inputs o.opcode s).1 := by
  unfold renderComparison
  split
  · exact shows_of_not_tree (by simp [Shown.IsTree])
  split
  · next constant other hconst =>
      split at hconst
      · next heq =>
          split
          · exact shows_of_not_tree (by simp [Shown.IsTree])
          next hsame =>
            refine (hoperand other s).of_eq (value_of_neutral hρ hdef hconst ?_)
            rcases heq with heq | heq
            · refine Or.inl ⟨heq, ?_⟩
              rw [heq] at hsame
              simpa using hsame
            refine Or.inr (Or.inl ⟨heq, ?_⟩)
            rw [heq] at hsame
            cases constant with
            | false => rfl
            | true => exact absurd (by decide) hsame
      · cases hconst
  · exact renderBinary_shows hoperand (fun a b rest hinputs => hρ.binary hdef hop hinputs) s

theorem castWord_same {opcode : Opcode} {bits : Nat} {w r : Word} (hwidth : w.width = bits)
    (h : castWord opcode bits w = some r) : r = w := by
  obtain ⟨width, x⟩ := w
  subst hwidth
  unfold castWord at h
  split at h <;> simp_all

/-- A truncation to the width that a word had before it was extended gives the word
back. -/
theorem castWord_extended {opcode : Opcode} {wide : Nat} {w x r : Word}
    (hop : opcode = .zext ∨ opcode = .sext) (hextended : castWord opcode wide w = some x)
    (h : castWord .trunc w.width x = some r) : r = w := by
  obtain ⟨n, bits⟩ := w
  rcases hop with rfl | rfl
  · simp only [castWord, Option.ite_none_right_eq_some, Option.some.injEq] at hextended h
    obtain ⟨hwide, rfl⟩ := hextended
    obtain ⟨-, rfl⟩ := h
    have hback : (bits.setWidth wide).setWidth n = bits := by
      apply BitVec.eq_of_getLsbD_eq
      intro i hi
      have hin : i < wide := Nat.lt_of_lt_of_le hi hwide
      simp [hi, hin]
    simp only [hback]
  · simp only [castWord, Option.ite_none_right_eq_some, Option.some.injEq] at hextended h
    obtain ⟨hwide, rfl⟩ := hextended
    obtain ⟨-, rfl⟩ := h
    have hback : (bits.signExtend wide).setWidth n = bits := by
      apply BitVec.eq_of_getLsbD_eq
      intro i hi
      have hin : i < wide := Nat.lt_of_lt_of_le hi hwide
      simp [hi, hin, BitVec.getElem_signExtend]
    simp only [hback]

variable {rest : List ValueId}

/-- A cast that changes nothing has the value of the input that it is printed
as. -/
theorem value_of_castIdentity (hρ : Valuation ctx.module A ρ)
    (hdef : ctx.module.definingOp v = some (id, o)) (hop : o.opcode ∈ castOpcodes)
    {input inner : ValueId} (hinputs : o.inputs = input :: rest)
    (h : castIdentity ctx.module o.opcode (ctx.module.valueType v) input = some inner) :
    ρ v = ρ inner := by
  have hcast := hρ.cast hdef hop hinputs
  unfold castIdentity at h
  split at h
  · next hsame =>
      cases h
      refine castWord_same ?_ hcast
      rw [hρ.width, hsame]
  split at h
  · next htrunc =>
      split at h
      · next id' o' hdef' =>
          split at h
          · next hext =>
              split at h
              · next w hinputs' =>
                  split at h
                  · next hsame =>
                      cases h
                      have hext' : o'.opcode ∈ castOpcodes := by
                        rcases hext with h | h <;> simp [h, castOpcodes]
                      have hinner := hρ.cast hdef' hext' hinputs'
                      rw [htrunc, ← hsame, ← hρ.width] at hcast
                      exact castWord_extended hext hinner hcast
                  · cases h
              · cases h
          · cases h
      · cases h
  · cases h

theorem renderFlag_shows (hρ : Valuation ctx.module A ρ)
    (hoperand : OperandShows ctx A ρ leaf operand)
    (hdef : ctx.module.definingOp v = some (id, o)) {flags : ValueId}
    (hinputs : o.inputs = flags :: rest) (s : RenderState) :
    Shows ctx A ρ leaf v (renderFlag ctx operand o.opcode flags s).1 := by
  unfold renderFlag
  split
  · exact shows_of_not_tree (by simp [Shown.IsTree])
  next id' o' hdef' =>
    split
    · exact shows_of_not_tree (by simp [Shown.IsTree])
    split
    · next hzero =>
        refine renderBinary_shows hoperand ?_ _
        intro a b rest' hpair
        exact hρ.zeroFlag hdef hzero.2.2 hinputs hdef' hzero.1 hpair
    split
    · next hcarry =>
        refine renderBinary_shows hoperand ?_ _
        intro a b rest' hpair
        exact hρ.carryFlag hdef hcarry.2.2 hinputs hdef' hcarry.1 hpair
    · simp only
      split <;> exact shows_of_not_tree (by simp [Shown.IsTree])

theorem shows_cast (hnames : CastNames ctx.module.opcodeName) (hρ : Valuation ctx.module A ρ)
    (hdef : ctx.module.definingOp v = some (id, o)) (hop : o.opcode ∈ castOpcodes) {input : ValueId}
    (hinputs : o.inputs = input :: rest) {e : Shown} (he : Shows ctx A ρ leaf input e) :
    Shows ctx A ρ leaf v (.cast o.opcode (ctx.module.valueType v)
      (typedName ctx.module o.opcode (ctx.module.valueType v)) e) := by
  intro htree hleaves
  obtain ⟨hwords, hvalue⟩ := he htree hleaves
  refine ⟨⟨isName_typedName hnames hop _, hwords⟩, ?_⟩
  have hcall : value (treeMeaning ctx.module.opcodeName A leaf) (.call
      (.word (typedName ctx.module o.opcode (ctx.module.valueType v))) e.expr) =
        (treeMeaning ctx.module.opcodeName A leaf).function
          (typedName ctx.module o.opcode (ctx.module.valueType v))
          (values (treeMeaning ctx.module.opcodeName A leaf) e.expr) := rfl
  rw [Shown.expr, hcall, values_expr, hvalue]
  simp only [treeMeaning, castOf_typedName hnames hop, hρ.cast hdef hop hinputs, Option.getD_some]

theorem shows_function (v : ValueId) (name : Text) (args : List Shown) :
    Shows ctx A ρ leaf v (.function name args) :=
  shows_of_not_tree (by simp [Shown.IsTree])

theorem shows_load (v : ValueId) (id : OpId) (bits : Nat) (e : Shown) :
    Shows ctx A ρ leaf v (.load id bits e) :=
  shows_of_not_tree (by simp [Shown.IsTree])

theorem not_isTree_renderCall (ctx : RenderContext) (operand : Operand) (inputs : List ValueId)
    (a : OpAttributes) (s : RenderState) : ¬ (renderCall ctx operand inputs a s).1.IsTree := by
  unfold renderCall
  simp only
  split
  · simp [Shown.IsTree]
  · split
    · simp [Shown.IsTree]
    · split <;> simp [Shown.IsTree]

/-- **Operations.**  An operation over operands that are shown is shown. -/
theorem renderOperation_shows (hnames : CastNames ctx.module.opcodeName)
    (hρ : Valuation ctx.module A ρ) (hoperand : OperandShows ctx A ρ leaf operand)
    (hdef : ctx.module.definingOp v = some (id, o)) (s : RenderState) :
    Shows ctx A ρ leaf v (renderOperation ctx operand v id o s).1 := by
  have hbinary : ∀ {op : InfixOp} (s : RenderState), o.opcode.infixOp = some op →
      Shows ctx A ρ leaf v (renderBinary operand o.inputs op s).1 :=
    fun s hop => renderBinary_shows hoperand (fun _ _ _ hin => hρ.binary hdef hop hin) s
  have hcompare : ∀ s : RenderState, o.opcode.infixOp = some (comparisonOp o.opcode) →
      Shows ctx A ρ leaf v (renderComparison ctx operand o.inputs o.opcode s).1 :=
    fun s hop => renderComparison_shows hρ hoperand hdef hop s
  have hconstant : o.opcode = .constU64 ∨ o.opcode = .constWide →
      Shows ctx A ρ leaf v (.word (constantText o (ctx.module.valueType v))) :=
    shows_constant hρ hdef
  have hsame : o.opcode ∈ castOpcodes → ∀ s : RenderState, ∀ input rest inner,
      o.inputs = input :: rest →
      castIdentity ctx.module o.opcode (ctx.module.valueType v) input = some inner →
      Shows ctx A ρ leaf v (operand inner s).1 :=
    fun hop s _ _ inner hinputs hsame =>
      (hoperand inner s).of_eq (value_of_castIdentity hρ hdef hop hinputs hsame)
  have hcast : o.opcode ∈ castOpcodes → ∀ s : RenderState, ∀ input rest,
      o.inputs = input :: rest →
      Shows ctx A ρ leaf v (.cast o.opcode (ctx.module.valueType v)
        (typedName ctx.module o.opcode (ctx.module.valueType v)) (operand input s).1) :=
    fun hop s input _ hinputs => shows_cast hnames hρ hdef hop hinputs (hoperand input s)
  have hflag : ∀ s : RenderState, ∀ flags rest, o.inputs = flags :: rest →
      Shows ctx A ρ leaf v (renderFlag ctx operand o.opcode flags s).1 :=
    fun s flags rest hin => renderFlag_shows hρ hoperand hdef hin s
  have hxor : o.opcode = .xor → ∀ s : RenderState, ∀ constant other,
      (if (ctx.module.valueType v).bits = 1 then booleanOperand ctx o.inputs else none) =
        some (constant, other) →
      Shows ctx A ρ leaf v (if constant = true
        then (Shown.negated (operand other s).1, (operand other s).2)
        else operand other s).1 := by
    intro hop s constant other hconst
    split at hconst
    · split
      · exact shows_of_not_tree (by simp [Shown.IsTree])
      · next hfalse =>
          refine (hoperand other s).of_eq (value_of_neutral hρ hdef hconst ?_)
          exact Or.inr (Or.inr ⟨hop, by simpa using hfalse⟩)
    · cases hconst
  have hselect : o.opcode = .select → ∀ c a b rest, o.inputs = c :: a :: b :: rest →
      ∀ s₁ s₂ s₃ : RenderState, Shows ctx A ρ leaf v
        (.select (operand c s₁).1 (operand a s₂).1 (operand b s₃).1) := by
    rintro hop c a b rest hinputs s₁ s₂ s₃ ⟨hctree, hatree, hbtree⟩ hleaves
    obtain ⟨hcwords, hcvalue⟩ := hoperand c s₁ hctree
      (fun l hl => hleaves l (mem_append_left _ hl))
    obtain ⟨hawords, havalue⟩ := hoperand a s₂ hatree
      (fun l hl => hleaves l (mem_append_right _ (mem_append_left _ hl)))
    obtain ⟨hbwords, hbvalue⟩ := hoperand b s₃ hbtree
      (fun l hl => hleaves l (mem_append_right _ (mem_append_right _ hl)))
    refine ⟨⟨hcwords, hawords, hbwords⟩, ?_⟩
    rw [hρ.select hdef hop hinputs, ← hcvalue, ← havalue, ← hbvalue]
    rfl
  unfold renderOperation
  simp only
  split
  -- the forms of text, those that are no trees last
  all_goals first
    | exact hconstant (Or.inl ‹_›)
    | exact hconstant (Or.inr ‹_›)
    | exact hbinary _ (by rw [‹o.opcode = _›]; rfl)
    | exact hcompare _ (by rw [‹o.opcode = _›]; rfl)
    | exact shows_of_not_tree (not_isTree_renderCall ctx operand o.inputs o.attributes _)
    | exact shows_function _ _ _
    | split
  all_goals first
    | exact hselect ‹_› _ _ _ _ ‹_› _ _ _
    | exact hflag _ _ _ ‹_›
    | exact shows_function _ _ _
    | exact shows_load _ _ _ _
    | exact hxor ‹_› _ _ _ ‹_›
    | exact hbinary _ (by rw [‹o.opcode = _›]; rfl)
    | split
  all_goals first
    | exact hsame (by rw [‹o.opcode = _›]; decide) _ _ _ _ ‹_› ‹_›
    | exact hcast (by rw [‹o.opcode = _›]; decide) _ _ _ ‹_›

/-- **Values.**  What `render_value` returns shows the value. -/
theorem renderValue_shows (hnames : CastNames ctx.module.opcodeName)
    (hρ : Valuation ctx.module A ρ) (n : Nat) : ∀ v horizon depth root s,
      Shows ctx A ρ leaf v (renderValue ctx n v horizon depth root s).1 := by
  induction n with
  | zero =>
    intro v horizon depth root s
    exact shows_leaf v
  | succ n ih =>
    intro v horizon depth root s
    rw [renderValue, renderValueWith]
    simp only
    split
    · exact shows_of_not_tree (by simp [Shown.IsTree])
    split
    · exact shows_leaf v
    next id hid =>
      split
      · exact shows_leaf v
      next o ho =>
        have hdef : ctx.module.definingOp v = some (id, o) := by
          simp [XairModule.definingOp, hid, ho]
        split
        · exact shows_leaf v
        · split
          · exact shows_leaf v
          · exact renderOperation_shows hnames hρ (fun w s => ih w horizon _ _ s) hdef _

end

/-- **Unambiguous text.**  Two values that evaluate equally: whatever the
arithmetic operators mean and whatever words the names of the leaves are assigned,
valuations of the two modules that give every shown leaf the word of its name
agree on the two values. -/
def EvaluateEqually (ctx₁ : RenderContext) (v₁ : ValueId) (ctx₂ : RenderContext) (v₂ : ValueId) :
    Prop :=
  ∀ (A : Arithmetic) (leaf : Text → Word) (ρ₁ ρ₂ : ValueId → Word),
    Valuation ctx₁.module A ρ₁ → Valuation ctx₂.module A ρ₂ →
    (∀ l ∈ (renderRoot ctx₁ v₁).1.leaves, LeafNamed leaf ρ₁ l) →
    (∀ l ∈ (renderRoot ctx₂ v₂).1.leaves, LeafNamed leaf ρ₂ l) → ρ₁ v₁ = ρ₂ v₂

/-- A value that is printed without truncation as a tree. -/
structure PrintedTree (ctx : RenderContext) (v : ValueId) : Prop where
  value : v < ctx.module.valueCount
  complete : (buildNamed ctx v).truncated = false
  tree : (renderRoot ctx v).1.IsTree

/-- **Same text, same value.**  Two trees without a conditional as the condition of
another that are printed as the same text evaluate equally. -/
theorem evaluateEqually_of_text_eq {ctx₁ ctx₂ : RenderContext} {v₁ v₂ : ValueId}
    (hopcodes : ctx₂.module.opcodeName = ctx₁.module.opcodeName)
    (hnames : CastNames ctx₁.module.opcodeName) (h₁ : PrintedTree ctx₁ v₁)
    (h₂ : PrintedTree ctx₂ v₂) (hflat₁ : (renderRoot ctx₁ v₁).1.Flat)
    (hflat₂ : (renderRoot ctx₂ v₂).1.Flat)
    (htext : (buildNamed ctx₁ v₁).text = (buildNamed ctx₂ v₂).text) :
    EvaluateEqually ctx₁ v₁ ctx₂ v₂ := by
  intro A leaf ρ₁ ρ₂ hρ₁ hρ₂ hleaves₁ hleaves₂
  have hnames₂ : CastNames ctx₂.module.opcodeName := by
    rw [hopcodes]
    exact hnames
  obtain ⟨hwords₁, hvalue₁⟩ :=
    renderValue_shows hnames hρ₁ (ctx₁.options.maxDepth + 2) v₁ _ 0 true {} h₁.tree hleaves₁
  obtain ⟨hwords₂, hvalue₂⟩ :=
    renderValue_shows hnames₂ hρ₂ (ctx₂.options.maxDepth + 2) v₂ _ 0 true {} h₂.tree hleaves₂
  -- the two trees have one expression: it is read from the common text
  have hexpr : (renderRoot ctx₁ v₁).1.expr = (renderRoot ctx₂ v₂).1.expr := by
    have htext₁ := Shown.isText_expr h₁.tree hwords₁
    have htext₂ := Shown.isText_expr h₂.tree hwords₂
    rw [text_of_not_truncated h₁.value h₁.complete, text_of_not_truncated h₂.value h₂.complete,
      ← htext₁.2.1, ← htext₂.2.1] at htext
    have hnorm := norm_eq_of_text_eq htext₁.1 htext₂.1 htext
    rwa [Shown.norm_expr h₁.tree hflat₁, Shown.norm_expr h₂.tree hflat₂] at hnorm
  calc ρ₁ v₁ = value (treeMeaning ctx₁.module.opcodeName A leaf) (renderRoot ctx₁ v₁).1.expr :=
        hvalue₁.symm
    _ = value (treeMeaning ctx₂.module.opcodeName A leaf) (renderRoot ctx₂ v₂).1.expr := by
        rw [hexpr, hopcodes]
    _ = ρ₂ v₂ := hvalue₂

/-- Names of opcodes as XAIR prints them. -/
def opcodeNames : Opcode → Text
  | .zext => "zext"
  | .sext => "sext"
  | .trunc => "trunc"
  | .intToAddr => "int_to_addr"
  | .addrToInt => "addr_to_int"
  | _ => "op"

theorem castNames_opcodeNames : CastNames opcodeNames where
  injective := by decide
  head := by
    intro a ha
    simp only [castOpcodes, mem_cons, not_mem_nil, or_false] at ha
    rcases ha with rfl | rfl | rfl | rfl | rfl <;> exact ⟨_, _, rfl, by decide⟩
  plain := by decide

/-- A sum of two parameters, by either of the opcodes that are printed `+`. -/
def sumModule (opcode : Opcode) : XairModule where
  values :=
    [{ type := { kind := .int, bits := 32 }, name := "x" },
     { type := { kind := .int, bits := 32 }, name := "y" },
     { type := { kind := .int, bits := 32 }, definition := some 0 }]
  ops := [{ opcode := opcode, inputs := [0, 1], results := [2] }]
  blocks := [{ ops := [0], params := [0, 1], terminator := { kind := .ret, trueArgs := [2] } }]
  opcodeName := opcodeNames

/-- The two sums are printed alike, and they are equal. -/
theorem evaluateEqually_sums :
    EvaluateEqually { module := sumModule .add, names := fun _ => none, options := {} } 2
      { module := sumModule .addrAdd, names := fun _ => none, options := {} } 2 :=
  evaluateEqually_of_text_eq rfl castNames_opcodeNames ⟨by decide, by decide, trivial, trivial⟩
    ⟨by decide, by decide, trivial, trivial⟩ ⟨trivial, trivial⟩ ⟨trivial, trivial⟩ (by decide)

/-- Conditionals over five truth values: `SELECT(SELECT(a, b, c), d, e)` is value 6
and `SELECT(a, b, SELECT(c, d, e))` is value 8. -/
def choiceModule : XairModule where
  values :=
    [{ type := { kind := .int, bits := 1 }, name := "a" },
     { type := { kind := .int, bits := 1 }, name := "b" },
     { type := { kind := .int, bits := 1 }, name := "c" },
     { type := { kind := .int, bits := 1 }, name := "d" },
     { type := { kind := .int, bits := 1 }, name := "e" },
     { type := { kind := .int, bits := 1 }, definition := some 0 },
     { type := { kind := .int, bits := 1 }, definition := some 1 },
     { type := { kind := .int, bits := 1 }, definition := some 2 },
     { type := { kind := .int, bits := 1 }, definition := some 3 }]
  ops :=
    [{ opcode := .select, inputs := [0, 1, 2], results := [5] },
     { opcode := .select, inputs := [5, 3, 4], results := [6] },
     { opcode := .select, inputs := [2, 3, 4], results := [7] },
     { opcode := .select, inputs := [0, 1, 7], results := [8] }]
  blocks :=
    [{ ops := [0, 1, 2, 3], params := [0, 1, 2, 3, 4],
       terminator := { kind := .ret, trueArgs := [6, 8] } }]
  opcodeName := opcodeNames

/-- A meaning of the arithmetic operators. -/
def leftArithmetic : Arithmetic where
  apply op l r :=
    if op = .xor then ⟨l.width, l.bits ^^^ r.bits.setWidth l.width⟩ else l
  apply_xor := by
    intro n x y
    simp

/-- The values of the conditionals when only `a` and `e` are true. -/
def choiceValues : ValueId → Word
  | 0 | 4 | 6 | 7 => Word.ofBool true
  | 1 | 2 | 3 | 5 | 8 => Word.ofBool false
  | _ => ⟨0, 0#0⟩

/-- The same by name. -/
def choiceLeaf (t : Text) : Word := Word.ofBool (t == ['a'] || t == ['e'])

theorem choiceModule_definingOp {v : ValueId} {id : OpId} {o : XairOp}
    (h : choiceModule.definingOp v = some (id, o)) :
    o.opcode = .select ∧ ∀ c a b rest, o.inputs = c :: a :: b :: rest →
      choiceValues v = if (choiceValues c).isTrue then choiceValues a else choiceValues b := by
  have hlt : v < 9 := by
    by_contra hge
    have hnone : choiceModule.values[v]? = none := getElem?_eq_none (Nat.not_lt.mp hge)
    simp [XairModule.definingOp, XairModule.valueDefinition, hnone] at h
  have hall : ∀ v < 9, (choiceModule.definingOp v).isSome = true →
      v = 5 ∨ v = 6 ∨ v = 7 ∨ v = 8 := by decide
  rcases hall v hlt (by rw [h]; rfl) with rfl | rfl | rfl | rfl
  all_goals
    cases h
    refine ⟨rfl, ?_⟩
    intro c a b rest hinputs
    cases hinputs
    decide

theorem valuation_choiceValues : Valuation choiceModule leftArithmetic choiceValues where
  width v := by
    match v with
    | 0 | 1 | 2 | 3 | 4 | 5 | 6 | 7 | 8 => rfl
    | n + 9 => rfl
  constant h hop := by simp [(choiceModule_definingOp h).1] at hop
  binary h hop := by simp [(choiceModule_definingOp h).1, Opcode.infixOp] at hop
  sameWidth h hop := by simp [(choiceModule_definingOp h).1] at hop
  select h _ hinputs := (choiceModule_definingOp h).2 _ _ _ _ hinputs
  cast h hop := by simp [(choiceModule_definingOp h).1, castOpcodes] at hop
  zeroFlag h hop := by simp [(choiceModule_definingOp h).1] at hop
  carryFlag h hop := by simp [(choiceModule_definingOp h).1] at hop

/-- Both conditionals are printed as `a ? b : c ? d : e`, and they differ when only
`a` and `e` are true. -/
theorem nestedSelect_ambiguous :
    let ctx : RenderContext := { module := choiceModule, names := fun _ => none, options := {} }
    PrintedTree ctx 6 ∧ PrintedTree ctx 8 ∧ (buildNamed ctx 6).text = (buildNamed ctx 8).text ∧
      ¬ EvaluateEqually ctx 6 ctx 8 := by
  intro ctx
  refine ⟨⟨by decide, by decide, ?_⟩, ⟨by decide, by decide, ?_⟩, by decide, ?_⟩
  · exact ⟨⟨trivial, trivial, trivial⟩, trivial, trivial⟩
  · exact ⟨trivial, trivial, trivial, trivial, trivial⟩
  intro hequal
  have hleaf : ∀ l ∈ [(0, ['a']), (1, ['b']), (2, ['c']), (3, ['d']), (4, ['e'])],
      LeafNamed choiceLeaf choiceValues l := by
    intro l hl
    simp only [mem_cons, not_mem_nil, or_false] at hl
    rcases hl with rfl | rfl | rfl | rfl | rfl <;>
      exact ⟨isName_letter _ (by decide), by decide, by decide⟩
  have hsame := hequal leftArithmetic choiceLeaf choiceValues choiceValues
    valuation_choiceValues valuation_choiceValues hleaf hleaf
  revert hsame
  decide

end Airece
