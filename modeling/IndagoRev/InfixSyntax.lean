import IndagoRev.Text

/-!
# Infix expressions as text

Expressions with infix operators of several levels, a prefix negation, a ternary
conditional and function application, written with the fewest parentheses that
the levels allow.  An expression is first written as tokens; its text is the
concatenation of their texts, and `lex` takes a text apart again.
-/

namespace StdText

open List

/-- A character that always stands for itself and never belongs to a word. -/
def isSpecial (c : Char) : Bool :=
  c == ' ' || c == '(' || c == ')' || c == ','

/-- One token.  Operators and names are both words; only their places tell them
apart. -/
inductive Token where
  | word (w : Text)
  | space
  | comma
  | openParen
  | closeParen
  | bang
  deriving DecidableEq

/-- The text of a token. -/
def Token.text : Token → Text
  | .word w => w
  | .space => [' ']
  | .comma => [',']
  | .openParen => ['(']
  | .closeParen => [')']
  | .bang => ['!']

/-- The text of a sequence of tokens. -/
def textOf (ts : List Token) : Text :=
  ts.flatMap Token.text

/-- The token of a special character. -/
def specialToken (c : Char) : Token :=
  if c = ' ' then .space else if c = '(' then .openParen
  else if c = ')' then .closeParen else .comma

/-- The word read so far, if there is one. -/
def flushWord (w : Text) : List Token :=
  if w = [] then [] else [.word w]

/-- Takes a text apart, with the beginning of a word already read.  An
exclamation mark at the beginning of a word is a token of its own, except when
an equals sign follows. -/
def lexFrom (w : Text) : Text → List Token
  | [] => flushWord w
  | c :: rest =>
    if isSpecial c then flushWord w ++ specialToken c :: lexFrom [] rest
    else if c = '!' ∧ w = [] ∧ rest.head? ≠ some '=' then .bang :: lexFrom [] rest
    else lexFrom (w ++ [c]) rest

variable (t : Text)

/-- The tokens of a text. -/
def lex : List Token :=
  lexFrom [] t

/-- A text that is read as one word: no special character, and no exclamation
mark at its beginning that would be a token. -/
def IsWord (w : Text) : Prop :=
  w ≠ [] ∧ (∀ c ∈ w, isSpecial c = false) ∧
    (w.head? = some '!' → w.tail.head? = some '=')

instance (w : Text) : Decidable (IsWord w) :=
  inferInstanceAs (Decidable (_ ∧ _ ∧ _))

/-- A table of infix operators: their words and levels.  Level 1 belongs to the
conditional, level 9 to negation. -/
structure Operators (ω : Type) where
  token : ω → Text
  level : ω → Nat
  find : Text → Option ω
  find_token : ∀ o, find (token o) = some o
  token_of_find : ∀ w o, find w = some o → token o = w
  token_isWord : ∀ o, IsWord (token o)
  level_bounds : ∀ o, 1 < level o ∧ level o < 9
  find_question : find ['?'] = none
  find_colon : find [':'] = none

/-- An expression.  A comma joins the arguments of an application. -/
inductive Expr (ω : Type) where
  | word (w : Text)
  | not (e : Expr ω)
  | binary (o : ω) (l r : Expr ω)
  | select (c a b : Expr ω)
  | comma (l r : Expr ω)
  | call (f x : Expr ω)
  | callEmpty (f : Expr ω)

section
variable {ω : Type} (ops : Operators ω)

/-- A word that can be a name: not an operator, and nothing that would join with
a negation before it. -/
def IsName (w : Text) : Prop :=
  IsWord w ∧ ops.find w = none ∧ w ≠ ['?'] ∧ w ≠ [':'] ∧
    w.head? ≠ some '!' ∧ w.head? ≠ some '='

/-- Every word of an expression is a name. -/
def Expr.Named : Expr ω → Prop
  | .word w => IsName ops w
  | .not e => e.Named
  | .binary _ l r => l.Named ∧ r.Named
  | .select c a b => c.Named ∧ a.Named ∧ b.Named
  | .comma l r => l.Named ∧ r.Named
  | .call f x => f.Named ∧ x.Named
  | .callEmpty f => f.Named

/-- The level of an expression. -/
def Expr.level : Expr ω → Nat
  | .word _ | .call _ _ | .callEmpty _ => 10
  | .not _ => 9
  | .binary o _ _ => ops.level o
  | .select _ _ _ => 1
  | .comma _ _ => 0

/-- Parentheses around the tokens of an expression, where its level asks for
them. -/
def wrap (e : Expr ω) (n : Nat) (ts : List Token) : List Token :=
  if e.level ops < n then .openParen :: ts ++ [.closeParen] else ts

/-- The tokens of an expression. -/
def Expr.tokens : Expr ω → List Token
  | .word w => [.word w]
  | .not e => .bang :: wrap ops e 9 e.tokens
  | .binary o l r =>
    wrap ops l (ops.level o) l.tokens ++ .space :: .word (ops.token o) :: .space ::
      wrap ops r (ops.level o + 1) r.tokens
  | .select c a b =>
    wrap ops c 1 c.tokens ++ .space :: .word ['?'] :: .space ::
      (wrap ops a 1 a.tokens ++ .space :: .word [':'] :: .space :: wrap ops b 1 b.tokens)
  | .comma l r => l.tokens ++ .comma :: .space :: wrap ops r 1 r.tokens
  | .call f x => wrap ops f 10 f.tokens ++ .openParen :: (x.tokens ++ [.closeParen])
  | .callEmpty f => wrap ops f 10 f.tokens ++ [.openParen, .closeParen]

/-- The text of an expression. -/
def Expr.text (e : Expr ω) : Text :=
  textOf (e.tokens ops)

end

@[simp] theorem textOf_nil : textOf [] = [] := rfl

@[simp] theorem textOf_cons (t : Token) (ts : List Token) :
    textOf (t :: ts) = t.text ++ textOf ts := rfl

@[simp] theorem textOf_append (a b : List Token) : textOf (a ++ b) = textOf a ++ textOf b :=
  flatMap_append

/-- A text that is empty or goes on with a special character. -/
def Breaks : Prop :=
  ∀ c, t.head? = some c → isSpecial c = true

variable {c : Char}

theorem ne_equals_of_isSpecial (h : isSpecial c = true) : c ≠ '=' := by
  rintro rfl
  exact absurd h (by decide)

/-- A special character separates what is before it from what is after it. -/
theorem lexFrom_append_special (hc : isSpecial c = true) (w rest : Text) :
    lexFrom w (t ++ c :: rest) = lexFrom w t ++ specialToken c :: lexFrom [] rest := by
  induction t generalizing w with
  | nil => simp [lexFrom, hc]
  | cons d t ih =>
    have hhead : (t ++ c :: rest).head? ≠ some '=' ↔ t.head? ≠ some '=' := by
      cases t with
      | nil => simp [ne_equals_of_isSpecial hc]
      | cons _ _ => simp
    rw [cons_append, lexFrom, lexFrom]
    simp only [hhead, ih]
    split
    · simp
    · split <;> simp

theorem lexFrom_breaks {w rest : Text} (hw : w ≠ []) (hrest : Breaks rest) :
    lexFrom w rest = .word w :: lex rest := by
  cases rest with
  | nil => simp [lex, lexFrom, flushWord, hw]
  | cons c rest =>
    have hc := hrest c rfl
    simp [lex, lexFrom, hc, flushWord, hw]

theorem lexFrom_collect (t w rest : Text) (hw : w ≠ []) (ht : ∀ c ∈ t, isSpecial c = false) :
    lexFrom w (t ++ rest) = lexFrom (w ++ t) rest := by
  induction t generalizing w with
  | nil => simp
  | cons c t ih =>
    have hc := ht c mem_cons_self
    rw [cons_append, lexFrom, if_neg (by simp [hc]), if_neg (by simp [hw]),
      ih (w ++ [c]) (by simp) (fun d hd => ht d (mem_cons_of_mem _ hd))]
    simp

theorem lex_word {w rest : Text} (hw : IsWord w) (hrest : Breaks rest) :
    lex (w ++ rest) = .word w :: lex rest := by
  obtain ⟨hne, hplain, hbang⟩ := hw
  cases w with
  | nil => exact absurd rfl hne
  | cons c t =>
    have hc := hplain c mem_cons_self
    have hstart : ¬ (c = '!' ∧ ([] : Text) = [] ∧ (t ++ rest).head? ≠ some '=') := by
      rintro ⟨rfl, -, hnext⟩
      have htail := hbang rfl
      rw [tail_cons] at htail
      cases t with
      | nil => simp at htail
      | cons d t => exact hnext (by simpa using htail)
    rw [lex, cons_append, lexFrom, if_neg (by simp [hc]), if_neg hstart,
      lexFrom_collect t _ rest (by simp) (fun d hd => hplain d (mem_cons_of_mem _ hd))]
    exact lexFrom_breaks (by simp) hrest

theorem lex_special (hc : isSpecial c = true) (rest : Text) :
    lex (c :: rest) = specialToken c :: lex rest := by
  simp [lex, lexFrom, hc, flushWord]

/-- An exclamation mark before anything but an equals sign is one token. -/
theorem lex_bang {rest : Text} (h : rest.head? ≠ some '=') :
    lex ('!' :: rest) = .bang :: lex rest := by
  have hspecial : isSpecial '!' = false := by decide
  simp [lex, lexFrom, hspecial, h]

section
variable {ω : Type} {ops : Operators ω}

/-- The text of an expression never begins with an equals sign. -/
theorem Expr.head_text {e : Expr ω} (h : e.Named ops) (rest : Text) :
    (e.text ops ++ rest).head? ≠ some '=' := by
  -- whatever the first operand is, it begins with itself or with a parenthesis
  have hwrap : ∀ (f : Expr ω) (n : Nat) (after : Text),
      (∀ r, (f.text ops ++ r).head? ≠ some '=') →
      (textOf (wrap ops f n (f.tokens ops)) ++ after).head? ≠ some '=' := by
    intro f n after hf
    unfold wrap
    split
    · simp [Token.text]
    · exact hf after
  induction e generalizing rest with
  | word w =>
    obtain ⟨⟨hne, -⟩, -, -, -, -, hequals⟩ := h
    cases w with
    | nil => exact absurd rfl hne
    | cons c w => simpa [Expr.text, Expr.tokens, Token.text] using hequals
  | not e => simp [Expr.text, Expr.tokens, Token.text]
  | binary o l r ihl _ =>
    rw [Expr.text, Expr.tokens, textOf_append, append_assoc]
    exact hwrap l _ _ (ihl h.1)
  | select c a b ihc _ _ =>
    rw [Expr.text, Expr.tokens, textOf_append, append_assoc]
    exact hwrap c _ _ (ihc h.1)
  | comma l r ihl _ =>
    rw [Expr.text, Expr.tokens, textOf_append, append_assoc]
    exact ihl h.1 _
  | call f x ihf _ =>
    rw [Expr.text, Expr.tokens, textOf_append, append_assoc]
    exact hwrap f _ _ (ihf h.1)
  | callEmpty f ihf =>
    rw [Expr.text, Expr.tokens, textOf_append, append_assoc]
    exact hwrap f _ _ (ihf h)

variable (rest : Text)

theorem lex_space : lex (' ' :: rest) = .space :: lex rest :=
  lex_special (by decide) rest

theorem lex_comma : lex (',' :: rest) = .comma :: lex rest :=
  lex_special (by decide) rest

theorem lex_openParen : lex ('(' :: rest) = .openParen :: lex rest :=
  lex_special (by decide) rest

theorem lex_closeParen : lex (')' :: rest) = .closeParen :: lex rest :=
  lex_special (by decide) rest

theorem breaks_cons (hc : isSpecial c = true) (rest : Text) : Breaks (c :: rest) := by
  intro d hd
  cases hd
  exact hc

theorem lex_operator {w : Text} (hw : IsWord w) (rest : Text) :
    lex (' ' :: (w ++ ' ' :: rest)) = .space :: .word w :: .space :: lex rest := by
  rw [lex_space, lex_word hw (breaks_cons (by decide) rest), lex_space]

/-- **Taking the text of an expression apart gives its tokens back**, also when
more text follows that cannot belong to its last word. -/
theorem Expr.lex_text {e : Expr ω} (h : e.Named ops) (rest : Text) (hrest : Breaks rest) :
    lex (e.text ops ++ rest) = e.tokens ops ++ lex rest := by
  have hwrap : ∀ (f : Expr ω) (n : Nat) (after : Text), Breaks after →
      (∀ r, Breaks r → lex (f.text ops ++ r) = f.tokens ops ++ lex r) →
      lex (textOf (wrap ops f n (f.tokens ops)) ++ after) =
        wrap ops f n (f.tokens ops) ++ lex after := by
    intro f n after hafter hf
    unfold wrap
    split
    · have hinner := hf (')' :: after) (breaks_cons (by decide) after)
      rw [Expr.text] at hinner
      simp only [cons_append, textOf_cons, textOf_append, textOf_nil, Token.text,
        nil_append, append_assoc, append_nil]
      rw [lex_openParen, hinner, lex_closeParen]
    · exact hf after hafter
  have hspace : ∀ t, Breaks (' ' :: t) := breaks_cons (by decide)
  induction e generalizing rest with
  | word w => simpa [Expr.text, Expr.tokens, Token.text] using lex_word h.1 hrest
  | not e ih =>
    have hinside : e.Named ops := h
    have hhead : (textOf (wrap ops e 9 (e.tokens ops)) ++ rest).head? ≠ some '=' := by
      unfold wrap
      split
      · simp [Token.text]
      · exact Expr.head_text hinside rest
    have hinner := hwrap e 9 rest hrest (fun r hr => ih hinside r hr)
    simp only [Expr.text, Expr.tokens, textOf_cons, Token.text, cons_append, nil_append]
    rw [lex_bang hhead, hinner]
  | binary o l r ihl ihr =>
    have hleft := fun t => hwrap l (ops.level o) (' ' :: t) (hspace t)
      (fun s hs => ihl h.1 s hs)
    have hright := hwrap r (ops.level o + 1) rest hrest (fun s hs => ihr h.2 s hs)
    simp only [Expr.text, Expr.tokens, textOf_append, textOf_cons, Token.text,
      append_assoc, cons_append, nil_append]
    rw [hleft, lex_operator (ops.token_isWord o), hright]
  | select c a b ihc iha ihb =>
    have hcond := fun t => hwrap c 1 (' ' :: t) (hspace t) (fun s hs => ihc h.1 s hs)
    have htrue := fun t => hwrap a 1 (' ' :: t) (hspace t) (fun s hs => iha h.2.1 s hs)
    have hfalse := hwrap b 1 rest hrest (fun s hs => ihb h.2.2 s hs)
    have hquestion := fun t => @lex_operator ['?'] (by decide) t
    have hcolon := fun t => @lex_operator [':'] (by decide) t
    simp only [singleton_append] at hquestion hcolon
    simp only [Expr.text, Expr.tokens, textOf_append, textOf_cons, Token.text,
      append_assoc, cons_append, nil_append]
    rw [hcond, hquestion, htrue, hcolon, hfalse]
  | comma l r ihl ihr =>
    have hleft := fun t => ihl h.1 (',' :: t) (breaks_cons (by decide) t)
    have hright := hwrap r 1 rest hrest (fun s hs => ihr h.2 s hs)
    simp only [Expr.text] at hleft
    simp only [Expr.text, Expr.tokens, textOf_append, textOf_cons, Token.text,
      append_assoc, cons_append, nil_append]
    rw [hleft, lex_comma, lex_space, hright]
  | call f x ihf ihx =>
    have hfun := fun t => hwrap f 10 ('(' :: t) (breaks_cons (by decide) t)
      (fun s hs => ihf h.1 s hs)
    have hargs := fun t => ihx h.2 (')' :: t) (breaks_cons (by decide) t)
    simp only [Expr.text] at hargs
    simp only [Expr.text, Expr.tokens, textOf_append, textOf_cons, textOf_nil, Token.text,
      append_assoc, cons_append, nil_append, append_nil]
    rw [hfun, lex_openParen, hargs, lex_closeParen]
  | callEmpty f ihf =>
    have hfun := fun t => hwrap f 10 ('(' :: t) (breaks_cons (by decide) t)
      (fun s hs => ihf h s hs)
    simp only [Expr.text, Expr.tokens, textOf_append, textOf_cons, textOf_nil, Token.text,
      append_assoc, cons_append, nil_append, append_nil]
    rw [hfun, lex_openParen, lex_closeParen]

end

end StdText
