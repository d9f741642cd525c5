import IndagoRev.InfixParser

/-!
# Operators found in a text

Searching the text of an expression for an operator between two spaces finds
exactly the operators of the expression.  Replacing such an occurrence by an
operator of the same level gives the text of the expression with that operator
replaced.
-/

namespace StdText

open List

theorem textOf_lexFrom (w t : Text) : textOf (lexFrom w t) = w ++ t := by
  induction t generalizing w with
  | nil =>
    unfold lexFrom flushWord
    split
    · next hnil => simp [hnil]
    · simp [Token.text]
  | cons c t ih =>
    have hflush : textOf (flushWord w) = w := by
      unfold flushWord
      split
      · next hnil => simp [hnil]
      · simp [Token.text]
    rw [lexFrom]
    split
    · next hspecial =>
        have hchar : (specialToken c).text = [c] := by
          simp only [isSpecial, Bool.or_eq_true, beq_iff_eq] at hspecial
          rcases hspecial with ((rfl | rfl) | rfl) | rfl <;> rfl
        simp [hflush, hchar, ih]
    · split
      · next hbang =>
          obtain ⟨rfl, rfl, -⟩ := hbang
          simp [Token.text, ih]
      · rw [ih]
        simp

theorem textOf_lex (t : Text) : textOf (lex t) = t := textOf_lexFrom [] t

variable {w : Text}

/-- An occurrence of a word between spaces is an occurrence of its token between
space tokens. -/
theorem lex_spaced (hw : IsWord w) (before after : Text) : lex (before ++ (spaced w ++ after)) =
      lex before ++ .space :: .word w :: .space :: lex after := by
  have hsplit : before ++ (spaced w ++ after) = before ++ ' ' :: (w ++ ' ' :: after) := by
    simp [spaced]
  rw [hsplit, lex, lexFrom_append_special before (by decide)]
  have hword := lex_word hw (breaks_cons (c := ' ') (by decide) after)
  rw [lex_space] at hword
  simp only [lex] at hword ⊢
  rw [hword]
  rfl

variable {ω : Type} {ops : Operators ω} {e : Expr ω}

/-- The tokens of an expression are what its text is taken apart into. -/
theorem lex_text_eq (h : e.Named ops) : lex (e.text ops) = e.tokens ops := by
  have hall := Expr.lex_text h [] (by simp [Breaks])
  simpa [lex, lexFrom, flushWord] using hall

/-- An operator found in the text of an expression is one of its tokens. -/
theorem tokens_of_split (h : e.Named ops) {w before after : Text} (hw : IsWord w)
    (hsplit : e.text ops = before ++ (spaced w ++ after)) :
    e.tokens ops = lex before ++ .space :: .word w :: .space :: lex after := by
  rw [← lex_text_eq h, hsplit, lex_spaced hw]

/-- An expression has an operator somewhere. -/
def Expr.Uses (o : ω) : Expr ω → Prop
  | .word _ => False
  | .not e => e.Uses o
  | .binary o' l r => o' = o ∨ l.Uses o ∨ r.Uses o
  | .select c a b => c.Uses o ∨ a.Uses o ∨ b.Uses o
  | .comma l r => l.Uses o ∨ r.Uses o
  | .call f x => f.Uses o ∨ x.Uses o
  | .callEmpty f => f.Uses o

variable {o o' : ω}

theorem Operators.token_injective (ops : Operators ω)
    (h : ops.token o = ops.token o') : o = o' := by
  have hfind := ops.find_token o
  rw [h, ops.find_token] at hfind
  exact (Option.some.inj hfind).symm

theorem ne_token_of_isName (h : IsName ops w) (o : ω) : w ≠ ops.token o := by
  rintro rfl
  have hfind := h.2.1
  rw [ops.find_token] at hfind
  cases hfind

theorem Operators.token_ne_question (ops : Operators ω) (o : ω) : ops.token o ≠ ['?'] ∧ ops.token o ≠ [':'] := by
  constructor
  · intro heq
    have hfind := ops.find_token o
    rw [heq, ops.find_question] at hfind
    cases hfind
  intro heq
  have hfind := ops.find_token o
  rw [heq, ops.find_colon] at hfind
  cases hfind

theorem mem_wrap (e : Expr ω) (k : Nat) (ts : List Token) (w : Text) :
    Token.word w ∈ wrap ops e k ts ↔ Token.word w ∈ ts := by
  unfold wrap
  split <;> simp

/-- The operators of an expression are the operators among its tokens. -/
theorem uses_iff (h : e.Named ops) (o : ω) :
    e.Uses o ↔ Token.word (ops.token o) ∈ e.tokens ops := by
  obtain ⟨hquestion, hcolon⟩ := ops.token_ne_question o
  induction e with
  | word w =>
    have hne := ne_token_of_isName h o
    simp [Expr.Uses, Expr.tokens, Ne.symm hne]
  | not e ih => simp [Expr.Uses, Expr.tokens, mem_wrap, ih h]
  | binary o' l r ihl ihr =>
    have htoken : ops.token o = ops.token o' ↔ o' = o :=
      ⟨fun heq => (ops.token_injective heq).symm, fun heq => by rw [heq]⟩
    simp only [Expr.Uses, Expr.tokens, mem_append, mem_cons, mem_wrap, ihl h.1,
      ihr h.2, Token.word.injEq, htoken, reduceCtorEq, false_or]
    tauto
  | select c a b ihc iha ihb =>
    simp only [Expr.Uses, Expr.tokens, mem_append, mem_cons, mem_wrap, ihc h.1,
      iha h.2.1, ihb h.2.2, Token.word.injEq, hquestion, hcolon, reduceCtorEq, false_or]
  | comma l r ihl ihr =>
    simp [Expr.Uses, Expr.tokens, mem_wrap, ihl h.1, ihr h.2]
  | call f x ihf ihx =>
    simp [Expr.Uses, Expr.tokens, mem_wrap, ihf h.1, ihx h.2]
  | callEmpty f ihf =>
    simp [Expr.Uses, Expr.tokens, mem_wrap, ihf h]

/-- An operator that an expression does not use is not found in its text. -/
theorem find_of_not_uses (h : e.Named ops) {o : ω} (huses : ¬ e.Uses o) :
    find (spaced (ops.token o)) (e.text ops) = none := by
  cases hfind : find (spaced (ops.token o)) (e.text ops) with
  | none => rfl
  | some i =>
    obtain ⟨before, after, hsplit, -⟩ := split_of_find hfind
    have htokens := tokens_of_split h (ops.token_isWord o) hsplit
    exact absurd ((uses_iff h o).mpr (by simp [htokens])) huses

/-- The operator of an infix expression is found at its own place when its left
operand does not use it. -/
theorem find_root {o : ω} {l r : Expr ω} (h : (Expr.binary o l r).Named ops) (huses : ¬ l.Uses o) :
    find (spaced (ops.token o)) ((Expr.binary o l r).text ops) =
      some (textOf (wrap ops l (ops.level o) (l.tokens ops))).length := by
  have hroot : (Expr.binary o l r).text ops =
      textOf (wrap ops l (ops.level o) (l.tokens ops)) ++ (spaced (ops.token o) ++
        textOf (wrap ops r (ops.level o + 1) (r.tokens ops))) := by
    simp [Expr.text, Expr.tokens, spaced, Token.text]
  obtain ⟨i, hfind, hle⟩ := find_le_of_split hroot
  obtain ⟨before, after, hsplit, rfl⟩ := split_of_find hfind
  have htokens := tokens_of_split h (ops.token_isWord o) hsplit
  rw [Expr.tokens] at htokens
  -- the token found is not one of the left operand's
  have hlong : (wrap ops l (ops.level o) (l.tokens ops)).length ≤ (lex before).length := by
    by_contra hshort
    have hat : (wrap ops l (ops.level o) (l.tokens ops) ++ .space :: .word (ops.token o) ::
        .space :: wrap ops r (ops.level o + 1) (r.tokens ops))[(lex before).length + 1]? =
          some (.word (ops.token o)) := by
      rw [htokens]
      simp
    by_cases hedge : (lex before).length + 1 < (wrap ops l (ops.level o) (l.tokens ops)).length
    · rw [getElem?_append_left hedge] at hat
      have hmem := mem_of_getElem? hat
      rw [mem_wrap] at hmem
      exact huses ((uses_iff h.1 o).mpr hmem)
    have hspace : (lex before).length + 1 -
        (wrap ops l (ops.level o) (l.tokens ops)).length = 0 := by omega
    rw [getElem?_append_right (by omega), hspace] at hat
    simp at hat
  have hprefix : textOf (wrap ops l (ops.level o) (l.tokens ops)) = before := by
    have hbegin : lex before <+: wrap ops l (ops.level o) (l.tokens ops) ++ .space ::
        .word (ops.token o) :: .space :: wrap ops r (ops.level o + 1) (r.tokens ops) := by
      rw [htokens]
      exact prefix_append _ _
    obtain ⟨more, hmore⟩ := prefix_of_prefix_length_le (prefix_append _ _) hbegin hlong
    have hbefore : before = textOf (wrap ops l (ops.level o) (l.tokens ops)) ++ textOf more := by
      rw [← textOf_append, hmore, textOf_lex]
    rw [hbefore, length_append] at hle
    have hnil : textOf more = [] := length_eq_zero_iff.mp (by omega)
    rw [hbefore, hnil, append_nil]
  rw [hfind, hprefix]

theorem split_append {α : Type} {s t a b : List α} {x : α} (h : s ++ t = a ++ x :: b) :
    (∃ b', s = a ++ x :: b' ∧ b = b' ++ t) ∨ ∃ a', t = a' ++ x :: b ∧ a = s ++ a' := by
  rcases append_eq_append_iff.mp h with ⟨a', rfl, ht⟩ | ⟨c, rfl, hc⟩
  · exact Or.inr ⟨a', ht, rfl⟩
  cases c with
  | nil => exact Or.inr ⟨[], by simpa using hc.symm, by simp⟩
  | cons y c =>
    rw [cons_append, List.cons.injEq] at hc
    obtain ⟨rfl, rfl⟩ := hc
    exact Or.inl ⟨c, rfl, rfl⟩

theorem split_cons {α : Type} {y : α} {t a b : List α} {x : α} (h : y :: t = a ++ x :: b) :
    (a = [] ∧ y = x ∧ t = b) ∨ ∃ a', t = a' ++ x :: b ∧ a = y :: a' := by
  cases a with
  | nil =>
    rw [nil_append, List.cons.injEq] at h
    exact Or.inl ⟨rfl, h.1, h.2⟩
  | cons z a =>
    rw [cons_append, List.cons.injEq] at h
    obtain ⟨rfl, ht⟩ := h
    exact Or.inr ⟨a, ht, rfl⟩

theorem split_wrap {k : Nat} {ts a b : List Token} (h : wrap ops e k ts = a ++ .word w :: b) :
    ∃ a' b', ts = a' ++ .word w :: b' ∧ ∀ (e' : Expr ω) (v : Token),
      e'.level ops = e.level ops → wrap ops e' k (a' ++ v :: b') = a ++ v :: b := by
  unfold wrap at h
  by_cases hlevel : e.level ops < k
  · rw [if_pos hlevel, cons_append] at h
    rcases split_cons h with ⟨-, hne, -⟩ | ⟨a₁, h₁, rfl⟩
    · cases hne
    rcases split_append h₁ with ⟨b', rfl, rfl⟩ | ⟨a₂, h₂, -⟩
    · refine ⟨a₁, b', rfl, fun e' v he' => ?_⟩
      simp [wrap, he', hlevel]
    · rcases split_cons h₂ with ⟨-, hne, -⟩ | ⟨a₃, h₃, -⟩
      · cases hne
      · simp at h₃
  · rw [if_neg hlevel] at h
    exact ⟨a, b, h, fun e' v he' => by simp [wrap, he', hlevel]⟩

/-- **Replacing one operator** of an expression by another of the same level
gives an expression of the same level. -/
theorem exists_replaced (hlevel : ops.level o' = ops.level o)
    (h : e.Named ops) {a b : List Token} (hsplit : e.tokens ops = a ++ .word (ops.token o) :: b) :
    ∃ e' : Expr ω, e'.Named ops ∧ e'.level ops = e.level ops ∧
      e'.tokens ops = a ++ .word (ops.token o') :: b := by
  obtain ⟨hquestion, hcolon⟩ := ops.token_ne_question o
  induction e generalizing a b with
  | word w =>
    rcases split_cons hsplit with ⟨-, hw, -⟩ | ⟨a', h', -⟩
    · exact absurd (Token.word.inj hw) (ne_token_of_isName h o)
    · simp at h'
  | not e ih =>
    rw [Expr.tokens] at hsplit
    rcases split_cons hsplit with ⟨-, hne, -⟩ | ⟨a₁, h₁, rfl⟩
    · cases hne
    · obtain ⟨a', b', htokens, hback⟩ := split_wrap h₁
      obtain ⟨e', hnamed, hsame, he'⟩ := ih h htokens
      exact ⟨.not e', hnamed, rfl, by rw [Expr.tokens, he', hback e' _ hsame]; rfl⟩
  | binary p l r ihl ihr =>
    rw [Expr.tokens] at hsplit
    rcases split_append hsplit with ⟨b₁, h₁, rfl⟩ | ⟨a₁, h₁, rfl⟩
    · obtain ⟨a', b', htokens, hback⟩ := split_wrap h₁
      obtain ⟨e', hnamed, hsame, he'⟩ := ihl h.1 htokens
      exact ⟨.binary p e' r, ⟨hnamed, h.2⟩, rfl, by
        rw [Expr.tokens, he', hback e' _ hsame]; simp⟩
    rcases split_cons h₁ with ⟨-, hne, -⟩ | ⟨a₂, h₂, rfl⟩
    · cases hne
    rcases split_cons h₂ with ⟨rfl, hw, rfl⟩ | ⟨a₃, h₃, rfl⟩
    · obtain rfl := ops.token_injective (Token.word.inj hw)
      exact ⟨.binary o' l r, h, hlevel, by rw [Expr.tokens]; simp [wrap, hlevel]⟩
    rcases split_cons h₃ with ⟨-, hne, -⟩ | ⟨a₄, h₄, rfl⟩
    · cases hne
    obtain ⟨a', b', htokens, hback⟩ := split_wrap h₄
    obtain ⟨e', hnamed, hsame, he'⟩ := ihr h.2 htokens
    exact ⟨.binary p l e', ⟨h.1, hnamed⟩, rfl, by
      rw [Expr.tokens, he', hback e' _ hsame]; simp⟩
  | select c x y ihc ihx ihy =>
    rw [Expr.tokens] at hsplit
    rcases split_append hsplit with ⟨b₁, h₁, rfl⟩ | ⟨a₁, h₁, rfl⟩
    · obtain ⟨a', b', htokens, hback⟩ := split_wrap h₁
      obtain ⟨e', hnamed, hsame, he'⟩ := ihc h.1 htokens
      exact ⟨.select e' x y, ⟨hnamed, h.2⟩, rfl, by
        rw [Expr.tokens, he', hback e' _ hsame]; simp⟩
    rcases split_cons h₁ with ⟨-, hne, -⟩ | ⟨a₂, h₂, rfl⟩
    · cases hne
    rcases split_cons h₂ with ⟨-, hw, -⟩ | ⟨a₃, h₃, rfl⟩
    · exact absurd (Token.word.inj hw).symm hquestion
    rcases split_cons h₃ with ⟨-, hne, -⟩ | ⟨a₄, h₄, rfl⟩
    · cases hne
    rcases split_append h₄ with ⟨b₁, h₅, rfl⟩ | ⟨a₅, h₅, rfl⟩
    · obtain ⟨a', b', htokens, hback⟩ := split_wrap h₅
      obtain ⟨e', hnamed, hsame, he'⟩ := ihx h.2.1 htokens
      exact ⟨.select c e' y, ⟨h.1, hnamed, h.2.2⟩, rfl, by
        rw [Expr.tokens, he', hback e' _ hsame]; simp⟩
    rcases split_cons h₅ with ⟨-, hne, -⟩ | ⟨a₆, h₆, rfl⟩
    · cases hne
    rcases split_cons h₆ with ⟨-, hw, -⟩ | ⟨a₇, h₇, rfl⟩
    · exact absurd (Token.word.inj hw).symm hcolon
    rcases split_cons h₇ with ⟨-, hne, -⟩ | ⟨a₈, h₈, rfl⟩
    · cases hne
    obtain ⟨a', b', htokens, hback⟩ := split_wrap h₈
    obtain ⟨e', hnamed, hsame, he'⟩ := ihy h.2.2 htokens
    exact ⟨.select c x e', ⟨h.1, h.2.1, hnamed⟩, rfl, by
      rw [Expr.tokens, he', hback e' _ hsame]; simp⟩
  | comma l r ihl ihr =>
    rw [Expr.tokens] at hsplit
    rcases split_append hsplit with ⟨b₁, h₁, rfl⟩ | ⟨a₁, h₁, rfl⟩
    · obtain ⟨e', hnamed, -, he'⟩ := ihl h.1 h₁
      exact ⟨.comma e' r, ⟨hnamed, h.2⟩, rfl, by rw [Expr.tokens, he']; simp⟩
    rcases split_cons h₁ with ⟨-, hne, -⟩ | ⟨a₂, h₂, rfl⟩
    · cases hne
    rcases split_cons h₂ with ⟨-, hne, -⟩ | ⟨a₃, h₃, rfl⟩
    · cases hne
    obtain ⟨a', b', htokens, hback⟩ := split_wrap h₃
    obtain ⟨e', hnamed, hsame, he'⟩ := ihr h.2 htokens
    exact ⟨.comma l e', ⟨h.1, hnamed⟩, rfl, by
      rw [Expr.tokens, he', hback e' _ hsame]; simp⟩
  | call f x ihf ihx =>
    rw [Expr.tokens] at hsplit
    rcases split_append hsplit with ⟨b₁, h₁, rfl⟩ | ⟨a₁, h₁, rfl⟩
    · obtain ⟨a', b', htokens, hback⟩ := split_wrap h₁
      obtain ⟨e', hnamed, hsame, he'⟩ := ihf h.1 htokens
      exact ⟨.call e' x, ⟨hnamed, h.2⟩, rfl, by
        rw [Expr.tokens, he', hback e' _ hsame]; simp⟩
    rcases split_cons h₁ with ⟨-, hne, -⟩ | ⟨a₂, h₂, rfl⟩
    · cases hne
    rcases split_append h₂ with ⟨b₁, h₃, rfl⟩ | ⟨a₃, h₃, rfl⟩
    · obtain ⟨e', hnamed, -, he'⟩ := ihx h.2 h₃
      exact ⟨.call f e', ⟨h.1, hnamed⟩, rfl, by rw [Expr.tokens, he']; simp⟩
    · rcases split_cons h₃ with ⟨-, hne, -⟩ | ⟨a₄, h₄, -⟩
      · cases hne
      · simp at h₄
  | callEmpty f ihf =>
    rw [Expr.tokens] at hsplit
    rcases split_append hsplit with ⟨b₁, h₁, rfl⟩ | ⟨a₁, h₁, rfl⟩
    · obtain ⟨a', b', htokens, hback⟩ := split_wrap h₁
      obtain ⟨e', hnamed, hsame, he'⟩ := ihf h htokens
      exact ⟨.callEmpty e', hnamed, rfl, by
        rw [Expr.tokens, he', hback e' _ hsame]; simp⟩
    rcases split_cons h₁ with ⟨-, hne, -⟩ | ⟨a₂, h₂, rfl⟩
    · cases hne
    rcases split_cons h₂ with ⟨-, hne, -⟩ | ⟨a₃, h₃, -⟩
    · cases hne
    · simp at h₃

/-- Replacing an operator where it is found in the text of an expression. -/
theorem exists_text_replaced (hlevel : ops.level o' = ops.level o)
    (h : e.Named ops) {i : Nat} (hfind : find (spaced (ops.token o)) (e.text ops) = some i) :
    ∃ e' : Expr ω, e'.Named ops ∧ e'.level ops = e.level ops ∧
      e'.text ops = replace i (spaced (ops.token o)).length (spaced (ops.token o'))
        (e.text ops) := by
  obtain ⟨before, after, hsplit, rfl⟩ := split_of_find hfind
  have htokens : e.tokens ops = (lex before ++ [.space]) ++ .word (ops.token o) ::
      .space :: lex after := by
    rw [tokens_of_split h (ops.token_isWord o) hsplit]
    simp
  obtain ⟨e', hnamed, hsame, he'⟩ := exists_replaced hlevel h htokens
  refine ⟨e', hnamed, hsame, ?_⟩
  rw [hsplit, replace_split, Expr.text, he']
  simp [spaced, textOf_lex, Token.text]

end StdText
