import IndagoRev.InfixRewrite
import IndagoRev.Airece.ExpressionView

/-!
# Expression text as a language

The text of a rendering belongs to the infix language of `InfixSyntax` with the
operators and precedences of the renderer.  Its expressions are evaluated over
bit vectors: comparisons and negation have their usual meaning, names, arithmetic
operators and functions any meaning.
-/

namespace Airece

open StdText List

/-- The operators that can be found by their tokens. -/
def infixOpOf (w : Text) : Option InfixOp :=
  [InfixOp.add, .sub, .mul, .udiv, .sdiv, .urem, .srem, .and, .or, .xor, .shl, .lshr, .ashr,
    .eq, .ne, .ult, .ule, .slt, .sle, .uge, .ugt, .sge, .sgt].find? (fun op => op.token == w)

/-- The operator table of the renderer. -/
def infixOps : Operators InfixOp where
  token := InfixOp.token
  level := InfixOp.precedence
  find := infixOpOf
  find_token := by
    intro o
    cases o <;> decide
  token_of_find := by
    intro w o h
    simpa using find?_some h
  token_isWord := by
    intro o
    cases o <;> decide
  level_bounds := by
    intro o
    cases o <;> decide
  find_question := by decide
  find_colon := by decide

/-- A bit vector of some width. -/
structure Word where
  width : Nat
  bits : BitVec width
  deriving DecidableEq

namespace Word

/-- The bit vector of width 1 for a truth value. -/
def ofBool (b : Bool) : Word := ⟨1, BitVec.ofBool b⟩

/-- The complement, bit by bit. -/
def complement (w : Word) : Word := ⟨w.width, ~~~w.bits⟩

/-- Whether some bit is set. -/
def isTrue (w : Word) : Bool := w.bits != 0#w.width

theorem complement_ofBool (b : Bool) : (ofBool b).complement = ofBool (!b) := by
  cases b <;> decide

end Word

/-- The comparison that an operator makes, at the width of its left operand. -/
def InfixOp.compare (op : InfixOp) (l r : Word) : Option Bool :=
  let x := l.bits
  let y := r.bits.setWidth l.width
  match op with
  | .eq => some (x == y)
  | .ne => some (x != y)
  | .ult => some (x.ult y)
  | .ule => some (x.ule y)
  | .slt => some (x.slt y)
  | .sle => some (x.sle y)
  | .uge => some (y.ule x)
  | .ugt => some (y.ult x)
  | .sge => some (y.sle x)
  | .sgt => some (y.slt x)
  | _ => none

/-- What an expression depends on: the values of names, the meaning of the
arithmetic operators, and the meaning of functions and of calls through a
value. -/
structure Meaning where
  name : Text → Word
  arithmetic : InfixOp → Word → Word → Word
  function : Text → List Word → Word
  apply : Word → List Word → Word

/-- The value of an infix operation. -/
def Meaning.binary (I : Meaning) (op : InfixOp) (l r : Word) : Word :=
  match op.compare l r with
  | some b => Word.ofBool b
  | none => I.arithmetic op l r

/-- The value of a single item. -/
def single (values : List Word) : Word := values.headD ⟨0, 0#0⟩

/-- The values of an expression: one, or as many as a list of arguments has. -/
def values (I : Meaning) : Expr InfixOp → List Word
  | .word w => [I.name w]
  | .not e => [(single (values I e)).complement]
  | .binary op l r => [I.binary op (single (values I l)) (single (values I r))]
  | .select c a b =>
    [if (single (values I c)).isTrue then single (values I a) else single (values I b)]
  | .comma l r => values I l ++ values I r
  | .call f x =>
    let callee := values I f
    match f with
    | .word name => [I.function name (values I x)]
    | _ => [I.apply (single callee) (values I x)]
  | .callEmpty f =>
    let callee := values I f
    match f with
    | .word name => [I.function name []]
    | _ => [I.apply (single callee) []]

/-- The value of an expression. -/
def value (I : Meaning) (e : Expr InfixOp) : Word := single (values I e)

variable {source target : InfixOp}

/-- A pair of the table of `negate_boolean` makes opposite comparisons. -/
theorem compare_inverse (h : (source, target) ∈ inverses)
    (l r : Word) : ∃ b, source.compare l r = some b ∧ target.compare l r = some (!b) := by
  simp only [inverses, mem_cons, Prod.mk.injEq, not_mem_nil, or_false] at h
  rcases h with ⟨rfl, rfl⟩ | ⟨rfl, rfl⟩ | ⟨rfl, rfl⟩ | ⟨rfl, rfl⟩ | ⟨rfl, rfl⟩ | ⟨rfl, rfl⟩
  · exact ⟨_, rfl, rfl⟩
  · exact ⟨_, rfl, by simp [InfixOp.compare, bne]⟩
  · exact ⟨_, rfl, by simp [InfixOp.compare, BitVec.ule_eq_not_ult]⟩
  · exact ⟨_, rfl, by simp [InfixOp.compare, BitVec.ule_eq_not_ult]⟩
  · exact ⟨_, rfl, by simp [InfixOp.compare, BitVec.sle_eq_not_slt]⟩
  · exact ⟨_, rfl, by simp [InfixOp.compare, BitVec.sle_eq_not_slt]⟩

/-- Every entry of the table stays at the level of comparisons. -/
theorem precedence_inverse (h : (source, target) ∈ inverses) :
    source.precedence = precedenceCompare ∧ target.precedence = precedenceCompare := by
  simp only [inverses, mem_cons, Prod.mk.injEq, not_mem_nil, or_false] at h
  rcases h with ⟨rfl, rfl⟩ | ⟨rfl, rfl⟩ | ⟨rfl, rfl⟩ | ⟨rfl, rfl⟩ | ⟨rfl, rfl⟩ | ⟨rfl, rfl⟩ <;>
    exact ⟨rfl, rfl⟩

/-- What the table finds in a text is the place of its first entry there. -/
theorem findInverse_spec {text : Text} {i : Nat} (h : findInverse text = some (i, source, target)) :
    (source, target) ∈ inverses ∧ find (spaced source.token) text = some i := by
  obtain ⟨p, hp, hmap⟩ := exists_of_findSome?_eq_some h
  rw [Option.map_eq_some_iff] at hmap
  obtain ⟨j, hj, heq⟩ := hmap
  cases heq
  exact ⟨hp, hj⟩

mutual
/-- Every name, constant and function name that is shown is a word of the
language. -/
def Shown.Words : Shown → Prop
  | .leaf _ text => IsName infixOps text
  | .word text => IsName infixOps text
  | .binary _ l r => l.Words ∧ r.Words
  | .negated e => e.Words
  | .zeroTest e => e.Words
  | .load _ _ address => address.Words
  | .cast _ _ name e => IsName infixOps name ∧ e.Words
  | .select c a b => c.Words ∧ a.Words ∧ b.Words
  | .function name args => IsName infixOps name ∧ AllWords args
  | .apply callee args => callee.Words ∧ AllWords args

/-- The same for arguments. -/
def AllWords : List Shown → Prop
  | [] => True
  | e :: rest => e.Words ∧ AllWords rest
end

/-- A rendered text is the text of an expression of its precedence. -/
def Rendered.IsText (r : Rendered) (e : Expr InfixOp) : Prop :=
  e.Named infixOps ∧ e.text infixOps = r.text ∧ e.level infixOps = r.precedence

variable {e : Expr InfixOp} {r : Rendered}

/-- An operand in parentheses, where the renderer and the language agree on
them. -/
theorem parenthesize_eq (h : r.IsText e) (k : Nat) :
    parenthesize r k = textOf (wrap infixOps e k (e.tokens infixOps)) := by
  obtain ⟨-, htext, hlevel⟩ := h
  unfold parenthesize wrap
  rw [hlevel, ← htext]
  split
  · simp [Expr.text, Token.text]
  · rfl

/-- A list of arguments as one expression. -/
def commas (first : Expr InfixOp) : List (Expr InfixOp) → Expr InfixOp
  | [] => first
  | e :: rest => commas (.comma first e) rest

variable {rest : List (Expr InfixOp)}

theorem named_commas {first : Expr InfixOp} (hfirst : first.Named infixOps)
    (hrest : ∀ e ∈ rest, e.Named infixOps) : (commas first rest).Named infixOps := by
  induction rest generalizing first with
  | nil => exact hfirst
  | cons e rest ih =>
    exact ih ⟨hfirst, hrest e mem_cons_self⟩
      (fun x hx => hrest x (mem_cons_of_mem _ hx))

theorem text_commas (first : Expr InfixOp) (hrest : ∀ e ∈ rest, 1 ≤ e.level infixOps) :
    (commas first rest).text infixOps =
      first.text infixOps ++ rest.flatMap (fun e => ", ".toList ++ e.text infixOps) := by
  induction rest generalizing first with
  | nil => simp [commas]
  | cons e rest ih =>
    have hlevel := hrest e mem_cons_self
    have hwrap : wrap infixOps e 1 (e.tokens infixOps) = e.tokens infixOps := by
      unfold wrap
      rw [if_neg (by omega)]
    rw [commas, ih _ (fun x hx => hrest x (mem_cons_of_mem _ hx))]
    simp [Expr.text, Expr.tokens, hwrap, Token.text]

theorem intercalate_cons (t : Text) (rest : List Text) : List.intercalate ", ".toList (t :: rest) =
      t ++ rest.flatMap (fun u => ", ".toList ++ u) := by
  induction rest generalizing t with
  | nil => simp [List.intercalate]
  | cons u rest ih =>
    have hstep : List.intercalate ", ".toList (t :: u :: rest) =
        t ++ (", ".toList ++ List.intercalate ", ".toList (u :: rest)) := by
      simp [List.intercalate, List.intersperse]
    rw [hstep, ih]
    simp

theorem isName_of_alphanum {w : Text} (hne : w ≠ []) (h : ∀ c ∈ w, c.isAlphanum = true) :
    IsName infixOps w := by
  have hspecial : ∀ c ∈ w, isSpecial c = false := by
    intro c hc
    by_contra hs
    have halpha := h c hc
    simp only [Bool.not_eq_false, isSpecial, Bool.or_eq_true, beq_iff_eq] at hs
    rcases hs with ((rfl | rfl) | rfl) | rfl <;> revert halpha <;> decide
  have hhead : ∀ c, c.isAlphanum = false → w.head? ≠ some c := by
    intro c hc hw
    have hmem := mem_of_mem_head? hw
    rw [h c hmem] at hc
    cases hc
  have htoken : ∀ op : InfixOp, op.token ≠ w := by
    rintro op rfl
    cases op <;> revert h <;> decide
  refine ⟨⟨hne, hspecial, fun hb => absurd hb (hhead '!' (by decide))⟩, ?_, ?_, ?_,
    hhead '!' (by decide), hhead '=' (by decide)⟩
  · cases hfind : infixOps.find w with
    | none => rfl
    | some op => exact absurd (infixOps.token_of_find w op hfind) (htoken op)
  · rintro rfl
    revert h
    decide
  · rintro rfl
    revert h
    decide

theorem isName_letter (c : Char) (h : c.isAlphanum = true) : IsName infixOps [c] := by
  refine isName_of_alphanum (by simp) ?_
  intro d hd
  rw [mem_singleton.mp hd]
  exact h

theorem isName_load (bits : Nat) : IsName infixOps ("load" ++ decimal bits) := by
  refine isName_of_alphanum (by simp) ?_
  intro c hc
  rcases mem_append.mp hc with hletter | hdigit
  · have hload : ∀ d ∈ "load".toList, d.isAlphanum = true := by decide
    exact hload c hletter
  · have hd : c.isDigit = true := Nat.isDigit_of_mem_toDigits (by omega) (by omega) hdigit
    simp [Char.isAlphanum, hd]

theorem isText_call {name : Text} (hname : IsName infixOps name) (h : r.IsText e) :
    Rendered.IsText ⟨name ++ '(' :: r.text ++ [')'], precedenceAtom⟩ (.call (.word name) e) := by
  obtain ⟨hnamed, htext, -⟩ := h
  refine ⟨⟨hname, hnamed⟩, ?_, rfl⟩
  rw [← htext]
  simp [Expr.text, Expr.tokens, wrap, Expr.level, Token.text]

/-- **Negation stays in the language.** -/
theorem isText_negateBoolean (h : r.IsText e) : ∃ e', (negateBoolean r).IsText e' := by
  have hbang : Rendered.IsText ⟨'!' :: parenthesize r precedenceUnary, precedenceUnary⟩
      (.not e) := by
    refine ⟨h.1, ?_, rfl⟩
    rw [parenthesize_eq h]
    simp [Expr.text, Expr.tokens, Token.text, precedenceUnary]
  unfold negateBoolean
  split
  · next hcompare =>
      split
      · next i source target hfound =>
          obtain ⟨hmem, hfind⟩ := findInverse_spec hfound
          obtain ⟨hsource, htarget⟩ := precedence_inverse hmem
          obtain ⟨hnamed, htext, hlevel⟩ := h
          rw [← htext] at hfind ⊢
          have hsame : infixOps.level target = infixOps.level source :=
            htarget.trans hsource.symm
          obtain ⟨e', hnamed', hlevel', htext'⟩ := exists_text_replaced hsame hnamed hfind
          exact ⟨e', hnamed', htext', hlevel'.trans hlevel⟩
      · exact ⟨.not e, hbang⟩
  · exact ⟨.not e, hbang⟩

theorem isText_arguments {callee : Text} {f : Expr InfixOp} (hf : f.Named infixOps)
    (hcallee : textOf (wrap infixOps f 10 (f.tokens infixOps)) = callee)
    {texts : List Text} {es : List (Expr InfixOp)}
    (hes : ∀ e ∈ es, e.Named infixOps ∧ 1 ≤ e.level infixOps)
    (htexts : texts = es.map (Expr.text infixOps)) :
    ∃ e, Rendered.IsText ⟨callee ++ '(' :: List.intercalate ", ".toList texts ++ [')'],
      precedenceAtom⟩ e ∧ 1 ≤ e.level infixOps := by
  subst htexts hcallee
  cases es with
  | nil =>
    refine ⟨.callEmpty f, ⟨hf, ?_, rfl⟩, by simp [Expr.level]⟩
    simp [Expr.text, Expr.tokens, List.intercalate, Token.text]
  | cons first rest =>
    have hlevels : ∀ e ∈ rest, 1 ≤ e.level infixOps :=
      fun e he => (hes e (mem_cons_of_mem _ he)).2
    have hnamed := named_commas (hes first mem_cons_self).1
      (fun e he => (hes e (mem_cons_of_mem _ he)).1)
    refine ⟨.call f (commas first rest), ⟨⟨hf, hnamed⟩, ?_, rfl⟩, by simp [Expr.level]⟩
    have hlist := text_commas first hlevels
    rw [Expr.text] at hlist
    rw [map_cons, intercalate_cons, Expr.text, Expr.tokens]
    simp only [textOf_append, textOf_cons, textOf_nil, hlist, Token.text, flatMap_map]
    simp

theorem isText_word {w : Text} (h : IsName infixOps w) :
    Rendered.IsText ⟨w, precedenceAtom⟩ (.word w) :=
  ⟨h, by simp [Expr.text, Expr.tokens, Token.text], rfl⟩

mutual
/-- **Every rendering is in the language.**  If the words it shows are words of
the language, its text is the text of an expression of its precedence. -/
theorem Shown.isText : (s : Shown) → s.Words → ∃ e, s.rendered.IsText e ∧ 1 ≤ e.level infixOps
  | .leaf _ text, h => ⟨.word text, isText_word h, by simp [Expr.level]⟩
  | .word text, h => ⟨.word text, isText_word h, by simp [Expr.level]⟩
  | .binary op l r, h => by
    obtain ⟨a, ha, -⟩ := l.isText h.1
    obtain ⟨b, hb, -⟩ := r.isText h.2
    refine ⟨.binary op a b, ⟨⟨ha.1, hb.1⟩, ?_, rfl⟩, ?_⟩
    · rw [Shown.rendered, parenthesize_eq ha, parenthesize_eq hb]
      simp [Expr.text, Expr.tokens, spaced, Token.text, infixOps]
    · have hbounds := infixOps.level_bounds op
      simp only [Expr.level]
      omega
  | .negated e, h => by
    obtain ⟨a, ha, hlevel⟩ := e.isText h
    obtain ⟨b, hb⟩ := isText_negateBoolean ha
    refine ⟨b, hb, ?_⟩
    rw [hb.2.2]
    unfold negateBoolean
    split
    · split
      · rw [← ha.2.2]
        exact hlevel
      · simp [precedenceUnary]
    · simp [precedenceUnary]
  | .zeroTest e, h => by
    obtain ⟨a, ha, -⟩ := e.isText h
    have hzero : IsName infixOps ['0'] := isName_of_alphanum (by decide) (by decide)
    refine ⟨.binary .eq a (.word ['0']), ⟨⟨ha.1, hzero⟩, ?_, rfl⟩, ?_⟩
    · rw [Shown.rendered, parenthesize_eq ha, Expr.text, Expr.tokens, textOf_append]
      rfl
    · exact Nat.le_of_lt (infixOps.level_bounds .eq).1
  | .load _ bits address, h => by
    obtain ⟨a, ha, -⟩ := address.isText h
    exact ⟨_, isText_call (isName_load bits) ha, by simp [Expr.level]⟩
  | .cast _ _ name e, h => by
    obtain ⟨a, ha, -⟩ := e.isText h.2
    exact ⟨_, isText_call h.1 ha, by simp [Expr.level]⟩
  | .select c a b, h => by
    obtain ⟨x, hx, -⟩ := c.isText h.1
    obtain ⟨y, hy, -⟩ := a.isText h.2.1
    obtain ⟨z, hz, -⟩ := b.isText h.2.2
    refine ⟨.select x y z, ⟨⟨hx.1, hy.1, hz.1⟩, ?_, rfl⟩, by simp [Expr.level]⟩
    rw [Shown.rendered, parenthesize_eq hx, parenthesize_eq hy, parenthesize_eq hz]
    simp [Expr.text, Expr.tokens, Token.text, precedenceSelect]
  | .function name args, h => by
    obtain ⟨es, hes, htexts⟩ := argumentsText args h.2
    exact isText_arguments (f := .word name) h.1
      (by simp [wrap, Expr.level, Expr.tokens, Token.text]) hes htexts
  | .apply callee args, h => by
    obtain ⟨a, ha, -⟩ := callee.isText h.1
    obtain ⟨es, hes, htexts⟩ := argumentsText args h.2
    exact isText_arguments ha.1 (parenthesize_eq ha 10).symm hes htexts

theorem argumentsText : (args : List Shown) → AllWords args →
    ∃ es : List (Expr InfixOp), (∀ e ∈ es, e.Named infixOps ∧ 1 ≤ e.level infixOps) ∧
      argumentTexts args = es.map (Expr.text infixOps)
  | [], _ => ⟨[], by simp, rfl⟩
  | s :: rest, h => by
    obtain ⟨e, he, hlevel⟩ := s.isText h.1
    obtain ⟨es, hes, htexts⟩ := argumentsText rest h.2
    refine ⟨e :: es, ?_, ?_⟩
    · intro x hx
      rcases mem_cons.mp hx with rfl | hx
      · exact ⟨he.1, hlevel⟩
      · exact hes x hx
    · rw [argumentTexts, htexts, map_cons, he.2.1]
end

theorem text_of_not_truncated {ctx : RenderContext} {v : ValueId}
    (hvalue : v < ctx.module.valueCount) (h : (buildNamed ctx v).truncated = false) :
    (buildNamed ctx v).text = (renderRoot ctx v).1.rendered.text := by
  have hbound : ¬ ctx.module.valueCount ≤ v := Nat.not_le.mpr hvalue
  unfold buildNamed at h ⊢
  rw [if_neg hbound] at h ⊢
  by_cases hcut : ctx.options.maxCharacters ≠ 0 ∧
      ctx.options.maxCharacters < (renderRoot ctx v).1.rendered.text.length
  · simp [hcut, RenderState.omit] at h
  · simp only [hcut, if_false]

end Airece
