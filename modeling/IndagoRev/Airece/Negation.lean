import IndagoRev.Airece.ExpressionText

/-!
# Negation in expression text

A comparison of a truth value with a constant is printed as the value itself or
as its negation, and `negate_boolean` negates a comparison by exchanging the
first comparison operator that it finds in the text.  The result is the
complement when that operator is the one at the root.
-/

namespace Airece

open StdText List

/-- An operation that negates a truth value `e`: `EQ(e, false)`, `NE(e, true)` or
a one-bit `XOR(e, true)`, with the constant on either side. -/
def NegatesOperand (ctx : RenderContext) (w : ValueId) (o : XairOp) (e : ValueId) : Prop :=
  (o.opcode = .eq ∧ booleanOperand ctx o.inputs = some (false, e)) ∨
    (o.opcode = .ne ∧ booleanOperand ctx o.inputs = some (true, e)) ∨
    (o.opcode = .xor ∧ (ctx.module.valueType w).bits = 1 ∧
      booleanOperand ctx o.inputs = some (true, e))

/-- The operators that `negate_boolean` looks for, in its order. -/
def searchedOps : List InfixOp := inverses.map (·.1)

/-- The search finds the operator at the root first, or nothing: no operator that
is looked for earlier is used by an operand, and the root's own operator is not
used by the left operand. -/
def RootFoundFirst : Expr InfixOp → Prop
  | .binary op l r =>
    op.precedence = precedenceCompare →
      (op ∈ searchedOps → ¬ l.Uses op) ∧
        ∀ p ∈ searchedOps.takeWhile (· ≠ op), ¬ l.Uses p ∧ ¬ r.Uses p
  | _ => True

variable (ctx : RenderContext)

theorem length_of_booleanOperand {inputs : List ValueId} {p : Bool × ValueId}
    (h : booleanOperand ctx inputs = some p) : 2 ≤ inputs.length := by
  cases inputs with
  | nil => simp [booleanOperand] at h
  | cons a rest =>
    cases rest with
    | nil => simp [booleanOperand] at h
    | cons b rest => simp

/-- An operation that negates its operand is rendered as the negation of the
operand's rendering. -/
theorem renderOperation_negates (operand : Operand) {w : ValueId} {id : OpId} {o : XairOp}
    {e : ValueId} (h : NegatesOperand ctx w o e) (s : RenderState) :
    (renderOperation ctx operand w id o s).1 =
      .negated (operand e (o.inputs.foldl RenderState.trackValue s)).1 := by
  rcases h with ⟨hop, hconst⟩ | ⟨hop, hconst⟩ | ⟨hop, hbits, hconst⟩
  · have hlen : ¬ o.inputs.length < 2 := by
      have := length_of_booleanOperand ctx hconst
      omega
    simp [renderOperation, hop, renderComparison, hlen, hconst]
  · have hlen : ¬ o.inputs.length < 2 := by
      have := length_of_booleanOperand ctx hconst
      omega
    simp [renderOperation, hop, renderComparison, hlen, hconst]
  · simp [renderOperation, hop, hbits, hconst]

/-- The state in which the operands of a root operation are rendered. -/
def rootState (w : ValueId) (id : OpId) (o : XairOp) : RenderState :=
  let s := ({} : RenderState).trackValue w
  o.inputs.foldl RenderState.trackValue
    ({ s with nodes := s.nodes + 1, active := w :: s.active }.trackOperation id)

/-- The rendering of an operand of a root operation. -/
def rootOperand (w : ValueId) (id : OpId) (o : XairOp) (e : ValueId) : Shown :=
  (renderValue ctx (ctx.options.maxDepth + 1) e id 1 false (rootState w id o)).1

/-- The root rendering of a negation is the negation of its operand's
rendering. -/
theorem renderRoot_negates {w : ValueId} {id : OpId} {o : XairOp} {e : ValueId}
    (hvalue : w < ctx.module.valueCount) (hdef : ctx.module.valueDefinition w = some id)
    (hop : ctx.module.op id = some o) (h : NegatesOperand ctx w o e) :
    (renderRoot ctx w).1 = .negated (rootOperand ctx w id o e) := by
  have hbound : ¬ ctx.module.valueCount ≤ w := Nat.not_le.mpr hvalue
  have hactive : ¬ w ∈ (({} : RenderState).trackValue w).active := by
    simp [RenderState.trackValue]
  simp only [renderRoot, hdef, Option.getD_some]
  rw [renderValue, renderValueWith]
  simp only [hbound, if_false, hdef, hop, contains_iff_mem, hactive, canExpand, if_true,
    Bool.not_true]
  rw [renderOperation_negates ctx _ h]
  rfl

/-- Re-associating conditionals keeps the operators of an expression. -/
theorem uses_attach (op : InfixOp) (e a b : Expr InfixOp) :
    (e.attach a b).Uses op ↔ e.Uses op ∨ a.Uses op ∨ b.Uses op := by
  induction e with
  | select c x y _ _ ih =>
    simp only [Expr.attach, Expr.Uses, ih, or_assoc]
  | _ => simp [Expr.attach, Expr.Uses]

/-- An expression and its normalized form have the same operators. -/
theorem uses_norm (op : InfixOp) (e : Expr InfixOp) : e.norm.Uses op ↔ e.Uses op := by
  induction e with
  | select c a b ihc iha ihb =>
    simp [Expr.norm, uses_attach, Expr.Uses, ihc, iha, ihb]
  | word w => rfl
  | not e ih => simpa [Expr.norm, Expr.Uses] using ih
  | binary o l r ihl ihr => simp [Expr.norm, Expr.Uses, ihl, ihr]
  | comma l r ihl ihr => simp [Expr.norm, Expr.Uses, ihl, ihr]
  | call f x ihf ihx => simp [Expr.norm, Expr.Uses, ihf, ihx]
  | callEmpty f ihf => simpa [Expr.norm, Expr.Uses] using ihf

/-- No attached expression is an infix operation or a negation. -/
theorem attach_eq_select (e a b : Expr InfixOp) : ∃ c x y, e.attach a b = .select c x y := by
  cases e <;> exact ⟨_, _, _, rfl⟩

theorem findInverse_of_split {text : Text} {before after : List (InfixOp × InfixOp)}
    {p : InfixOp × InfixOp} {i : Nat} (h : inverses = before ++ p :: after)
    (hbefore : ∀ q ∈ before, find (spaced q.1.token) text = none)
    (hp : find (spaced p.1.token) text = some i) : findInverse text = some (i, p.1, p.2) := by
  have hnone : before.findSome? (fun q =>
      (find (spaced q.1.token) text).map (fun i => (i, q.1, q.2))) = none := by
    rw [findSome?_eq_none_iff]
    intro q hq
    rw [hbefore q hq]
    rfl
  rw [findInverse, h, findSome?_append, hnone, findSome?_cons, hp]
  rfl

theorem inverses_split {op : InfixOp} (h : op ∈ searchedOps) :
    ∃ before target after, inverses = before ++ (op, target) :: after ∧
      before.map (·.1) = searchedOps.takeWhile (· ≠ op) := by
  simp only [searchedOps, inverses, map_cons, map_nil, mem_cons,
    not_mem_nil, or_false] at h
  rcases h with rfl | rfl | rfl | rfl | rfl | rfl
  · exact ⟨[], .ne, _, rfl, by decide⟩
  · exact ⟨[(.eq, .ne)], .eq, _, rfl, by decide⟩
  · exact ⟨[(.eq, .ne), (.ne, .eq)], .uge, _, rfl, by decide⟩
  · exact ⟨[(.eq, .ne), (.ne, .eq), (.ult, .uge)], .ugt, _, rfl, by decide⟩
  · exact ⟨[(.eq, .ne), (.ne, .eq), (.ult, .uge), (.ule, .ugt)], .sge, _, rfl, by decide⟩
  · exact ⟨[(.eq, .ne), (.ne, .eq), (.ult, .uge), (.ule, .ugt), (.slt, .sge)], .sgt, _, rfl,
      by decide⟩

/-- Where the root of a comparison is found first, the search finds it at its own
place, or finds nothing. -/
theorem findInverse_root {op : InfixOp} {l r : Expr InfixOp}
    (hnamed : (Expr.binary op l r).Named infixOps) (hcompare : op.precedence = precedenceCompare)
    (h : RootFoundFirst (.binary op l r)) : (∃ target, (op, target) ∈ inverses ∧
      findInverse ((Expr.binary op l r).text infixOps) =
        some ((textOf (wrap infixOps l op.precedence (l.tokens infixOps))).length, op, target)) ∨
    findInverse ((Expr.binary op l r).text infixOps) = none := by
  obtain ⟨hleft, hearlier⟩ := h hcompare
  -- an operator that is looked for before the root's is not found
  have hnone : ∀ p ∈ searchedOps.takeWhile (· ≠ op),
      find (spaced p.token) ((Expr.binary op l r).text infixOps) = none := by
    intro p hp
    have hne : p ≠ op := by simpa using mem_takeWhile_imp hp
    refine find_of_not_uses hnamed (o := p) ?_
    rintro (heq | hl | hr)
    · exact hne heq.symm
    · exact (hearlier p hp).1 hl
    · exact (hearlier p hp).2 hr
  by_cases hsearched : op ∈ searchedOps
  · obtain ⟨before, target, after, hsplit, hbefore⟩ := inverses_split hsearched
    refine Or.inl ⟨target, by simp [hsplit], ?_⟩
    refine findInverse_of_split hsplit ?_ (find_root hnamed (hleft hsearched))
    intro q hq
    apply hnone
    rw [← hbefore]
    exact mem_map_of_mem hq
  · refine Or.inr ?_
    have hall : searchedOps.takeWhile (· ≠ op) = searchedOps := by
      rw [takeWhile_eq_self_iff]
      intro p hp
      have hne : p ≠ op := by
        rintro rfl
        exact hsearched hp
      simpa using hne
    rw [hall] at hnone
    unfold findInverse
    rw [findSome?_eq_none_iff]
    intro p hp
    rw [hnone p.1 (mem_map_of_mem hp)]
    rfl

/-- **Negation, one rendering.**  Where the root of a rendering is found first,
its negation reads as an expression with the complementary value. -/
theorem negateBoolean_value {r : Rendered} {e : Expr InfixOp} (h : r.IsText e)
    (hroot : RootFoundFirst e) :
    ∃ e', (negateBoolean r).IsText e' ∧ ∀ I, value I e'.norm = (value I e.norm).complement := by
  have hbang : Rendered.IsText ⟨'!' :: parenthesize r precedenceUnary, precedenceUnary⟩
      (.not e) := by
    refine ⟨h.1, ?_, rfl⟩
    rw [parenthesize_eq h]
    simp [Expr.text, Expr.tokens, Token.text, precedenceUnary]
  have hnot : ∀ I, value I (Expr.not e).norm = (value I e.norm).complement := fun _ => rfl
  obtain ⟨hnamed, htext, hlevel⟩ := h
  unfold negateBoolean
  by_cases hcompare : r.precedence = precedenceCompare
  · rw [if_pos hcompare]
    cases e with
    | binary op a b =>
      have hop : op.precedence = precedenceCompare := hlevel.trans hcompare
      rw [← htext]
      rcases findInverse_root hnamed hop hroot with ⟨target, hmem, hfound⟩ | hfound
      · rw [hfound]
        obtain ⟨hsource, htarget⟩ := precedence_inverse hmem
        refine ⟨.binary target a b, ⟨hnamed, ?_, htarget.trans hcompare.symm⟩, ?_⟩
        · have hsplit : (Expr.binary op a b).text infixOps =
              textOf (wrap infixOps a op.precedence (a.tokens infixOps)) ++
                (spaced op.token ++
                  textOf (wrap infixOps b (op.precedence + 1) (b.tokens infixOps))) := by
            simp [Expr.text, Expr.tokens, spaced, Token.text, infixOps]
          have hsame : target.precedence = op.precedence := htarget.trans hsource.symm
          show (Expr.binary target a b).text infixOps = replace _ _ _ _
          rw [hsplit, replace_split, ← hsame]
          simp [Expr.text, Expr.tokens, spaced, Token.text, infixOps]
        · intro I
          obtain ⟨c, hc, hc'⟩ := compare_inverse hmem (value I a.norm) (value I b.norm)
          have hleft : value I (Expr.binary target a b).norm =
              I.binary target (value I a.norm) (value I b.norm) := rfl
          have hright : value I (Expr.binary op a b).norm =
              I.binary op (value I a.norm) (value I b.norm) := rfl
          rw [hleft, hright, Meaning.binary, Meaning.binary, hc, hc', Word.complement_ofBool]
      · rw [hfound]
        exact ⟨.not (.binary op a b), hbang, hnot⟩
    | _ =>
      have hbad := hlevel.trans hcompare
      revert hbad
      simp [Expr.level, precedenceCompare]
  · rw [if_neg hcompare]
    exact ⟨.not e, hbang, hnot⟩

/-- A text and its negation: both are read, and the values are complementary
whatever the names, the arithmetic and the functions mean. -/
def NegatesText (text negation : Text) : Prop :=
  ∃ a b, Reads infixOps text a ∧ Reads infixOps negation b ∧
    ∀ I, value I b = (value I a).complement

/-- Re-associating conditionals does not change what is found first. -/
theorem rootFoundFirst_norm (e : Expr InfixOp) : RootFoundFirst e.norm ↔ RootFoundFirst e := by
  cases e with
  | binary op l r => simp only [Expr.norm, RootFoundFirst, uses_norm]
  | select c a b =>
    obtain ⟨c', x, y, hattach⟩ := attach_eq_select c.norm a.norm b.norm
    simp [Expr.norm, hattach, RootFoundFirst]
  | _ => simp [Expr.norm, RootFoundFirst]

variable {ctx} in
/-- **Faithful negation.**  The text of an operation that negates its operand is
the negation of the operand's text, if every name that is shown is a word and the
search of `negate_boolean` finds the root of a comparison first. -/
theorem negation_faithful {w : ValueId} {id : OpId} {o : XairOp} {e : ValueId}
    (hdef : ctx.module.valueDefinition w = some id) (hop : ctx.module.op id = some o)
    (hneg : NegatesOperand ctx w o e) (htruncated : (buildNamed ctx w).truncated = false)
    (hwords : (rootOperand ctx w id o e).Words)
    (hroot : ∀ a, Reads infixOps (rootOperand ctx w id o e).rendered.text a → RootFoundFirst a) :
    NegatesText (rootOperand ctx w id o e).rendered.text (buildNamed ctx w).text := by
  have hvalue : w < ctx.module.valueCount := by
    by_contra hbound
    have hnone : ctx.module.values[w]? = none :=
      getElem?_eq_none (Nat.le_of_not_lt hbound)
    simp [XairModule.valueDefinition, hnone] at hdef
  obtain ⟨a, ha, -⟩ := (rootOperand ctx w id o e).isText hwords
  have hread : Reads infixOps (rootOperand ctx w id o e).rendered.text a.norm := by
    rw [← ha.2.1]
    exact reads_text ha.1
  obtain ⟨b, hb, hvalues⟩ := negateBoolean_value ha ((rootFoundFirst_norm a).mp (hroot _ hread))
  refine ⟨a.norm, b.norm, hread, ?_, hvalues⟩
  rw [text_of_not_truncated hvalue htruncated, renderRoot_negates ctx hvalue hdef hop hneg,
    Shown.rendered, ← hb.2.1]
  exact reads_text hb.1

/-- `EQ(EQ(x, y), false)`, which is printed as `x != y`. -/
def equalityModule : XairModule where
  values :=
    [{ type := { kind := .int, bits := 32 }, name := "x" },
     { type := { kind := .int, bits := 32 }, name := "y" },
     { type := { kind := .int, bits := 1 }, definition := some 0 },
     { type := { kind := .int, bits := 1 }, definition := some 1 },
     { type := { kind := .int, bits := 1 }, definition := some 2 }]
  ops :=
    [{ opcode := .eq, inputs := [0, 1], results := [2] },
     { opcode := .constU64, results := [3] },
     { opcode := .eq, inputs := [2, 3], results := [4] }]
  blocks :=
    [{ ops := [0, 1, 2], params := [0, 1],
       terminator := { kind := .ret, trueArgs := [4] } }]
  opcodeName := fun _ => "op"

/-- `EQ(ULT(EQ(x, y), z), false)` for a one-bit `z`. -/
def nestedComparisonModule : XairModule where
  values :=
    [{ type := { kind := .int, bits := 32 }, name := "x" },
     { type := { kind := .int, bits := 32 }, name := "y" },
     { type := { kind := .int, bits := 1 }, name := "z" },
     { type := { kind := .int, bits := 1 }, definition := some 0 },
     { type := { kind := .int, bits := 1 }, definition := some 1 },
     { type := { kind := .int, bits := 1 }, definition := some 2 },
     { type := { kind := .int, bits := 1 }, definition := some 3 }]
  ops :=
    [{ opcode := .eq, inputs := [0, 1], results := [3] },
     { opcode := .ult, inputs := [3, 2], results := [4] },
     { opcode := .constU64, results := [5] },
     { opcode := .eq, inputs := [4, 5], results := [6] }]
  blocks :=
    [{ ops := [0, 1, 2, 3], params := [0, 1, 2],
       terminator := { kind := .ret, trueArgs := [6] } }]
  opcodeName := fun _ => "op"

/-- A module rendered without presentation names and with the default options. -/
def plainContext (m : XairModule) : RenderContext :=
  { module := m, names := fun _ => none, options := {} }

/-- `EQ(EQ(x, y), false)` is printed faithfully. -/
theorem negation_faithful_equality : NegatesText (rootOperand (plainContext equalityModule) 4 2
        { opcode := .eq, inputs := [2, 3], results := [4] } 2).rendered.text
      (buildNamed (plainContext equalityModule) 4).text := by
  have hx : IsName infixOps ['x'] := isName_letter 'x' (by decide)
  have hy : IsName infixOps ['y'] := isName_letter 'y' (by decide)
  have hshown : rootOperand (plainContext equalityModule) 4 2
      { opcode := .eq, inputs := [2, 3], results := [4] } 2 =
        .binary .eq (.leaf 0 ['x']) (.leaf 1 ['y']) := rfl
  refine negation_faithful rfl rfl (Or.inl ⟨rfl, by decide⟩) (by decide) ?_ ?_
  · rw [hshown]
    exact ⟨hx, hy⟩
  intro a ha
  have htext : Reads infixOps "x == y"
      (Expr.binary InfixOp.eq (.word ['x']) (.word ['y'])) :=
    reads_text (e := .binary InfixOp.eq (.word ['x']) (.word ['y'])) ⟨hx, hy⟩
  have heq := ha.unique htext
  subst heq
  intro _
  exact ⟨fun _ => id, by simp [searchedOps, inverses]⟩

/-- A meaning for the names `x`, `y` and `z`: all of them zero. -/
def zeroMeaning : Meaning where
  name w := if w = ['z'] then ⟨1, 0#1⟩ else ⟨32, 0#32⟩
  arithmetic _ l _ := l
  function _ _ := ⟨0, 0#0⟩
  apply w _ := w

/-- `EQ(ULT(EQ(x, y), z), false)` is printed as `x != y u< z`: both it and the
text `x == y u< z` of its operand are false when all names are zero. -/
theorem nestedComparison_wrongly_negated :
    (buildNamed (plainContext nestedComparisonModule) 6).truncated = false ∧
    ¬ NegatesText (rootOperand (plainContext nestedComparisonModule) 6 3
        { opcode := .eq, inputs := [4, 5], results := [6] } 4).rendered.text
      (buildNamed (plainContext nestedComparisonModule) 6).text := by
  have hx : IsName infixOps ['x'] := isName_letter 'x' (by decide)
  have hy : IsName infixOps ['y'] := isName_letter 'y' (by decide)
  have hz : IsName infixOps ['z'] := isName_letter 'z' (by decide)
  have hoperand : (rootOperand (plainContext nestedComparisonModule) 6 3
      { opcode := .eq, inputs := [4, 5], results := [6] } 4).rendered.text =
        "x == y u< z" := by decide
  have hnegation : (buildNamed (plainContext nestedComparisonModule) 6).text =
      "x != y u< z" := by decide
  refine ⟨by decide, ?_⟩
  rw [hoperand, hnegation]
  rintro ⟨a, b, ha, hb, hvalues⟩
  have ha' : Reads infixOps "x == y u< z"
      (.binary InfixOp.ult (.binary InfixOp.eq (.word ['x']) (.word ['y'])) (.word ['z'])) :=
    reads_text (e := .binary InfixOp.ult (.binary InfixOp.eq (.word ['x']) (.word ['y']))
      (.word ['z'])) ⟨⟨hx, hy⟩, hz⟩
  have hb' : Reads infixOps "x != y u< z"
      (.binary InfixOp.ult (.binary InfixOp.ne (.word ['x']) (.word ['y'])) (.word ['z'])) :=
    reads_text (e := .binary InfixOp.ult (.binary InfixOp.ne (.word ['x']) (.word ['y']))
      (.word ['z'])) ⟨⟨hx, hy⟩, hz⟩
  have heqa := ha.unique ha'
  have heqb := hb.unique hb'
  subst heqa heqb
  have hwrong := hvalues zeroMeaning
  revert hwrong
  decide

end Airece
