import IndagoRev.InfixSyntax

/-!
# Reading infix expressions

A precedence-climbing reader for the tokens of `InfixSyntax`.  Infix operators
associate to the left and conditionals to the right.  The reader takes a bound
on its steps; what it reads with enough of them is `Reads`, which is unique.
-/

namespace StdText

open List

variable {ω : Type} (ops : Operators ω)

mutual
/-- Reads an expression whose level is at least `m`. -/
def parseExpr : Nat → Nat → List Token → Option (Expr ω × List Token)
  | 0, _, _ => none
  | n + 1, m, ts => (parsePrimary n ts).bind (fun p => parseLoop n m p.1 p.2)

/-- Reads a name, an application, a negation or an expression in parentheses. -/
def parsePrimary : Nat → List Token → Option (Expr ω × List Token)
  | n + 1, .bang :: ts => (parsePrimary n ts).bind (fun p => some (.not p.1, p.2))
  | n + 1, .word w :: ts => parseCalls n (.word w) ts
  | n + 1, .openParen :: ts =>
    (parseExpr n 0 ts).bind (fun p =>
      match p.2 with
      | .closeParen :: rest => parseCalls n p.1 rest
      | _ => none)
  | _, _ => none

/-- Reads the argument lists that follow a function. -/
def parseCalls : Nat → Expr ω → List Token → Option (Expr ω × List Token)
  | 0, _, _ => none
  | n + 1, f, .openParen :: .closeParen :: ts => parseCalls n (.callEmpty f) ts
  | n + 1, f, .openParen :: ts =>
    (parseExpr n 0 ts).bind (fun p =>
      match p.2 with
      | .closeParen :: rest => parseCalls n (.call f p.1) rest
      | _ => none)
  | _ + 1, f, ts => some (f, ts)

/-- Goes on after a left operand while the next operator has at least level
`m`. -/
def parseLoop : Nat → Nat → Expr ω → List Token → Option (Expr ω × List Token)
  | 0, _, _, _ => none
  | n + 1, m, l, .space :: .word w :: .space :: ts =>
    if w = ['?'] then
      if 1 < m then some (l, .space :: .word w :: .space :: ts)
      else (parseExpr n 1 ts).bind (fun p =>
        match p.2 with
        | .space :: .word v :: .space :: ts' =>
          if v = [':'] then
            (parseExpr n 1 ts').bind (fun q => parseLoop n m (.select l p.1 q.1) q.2)
          else none
        | _ => none)
    else
      match ops.find w with
      | none => some (l, .space :: .word w :: .space :: ts)
      | some o =>
        if ops.level o < m then some (l, .space :: .word w :: .space :: ts)
        else (parseExpr n (ops.level o + 1) ts).bind
          (fun p => parseLoop n m (.binary o l p.1) p.2)
  | n + 1, m, l, .comma :: .space :: ts =>
    if 0 < m then some (l, .comma :: .space :: ts)
    else (parseExpr n 1 ts).bind (fun p => parseLoop n m (.comma l p.1) p.2)
  | _ + 1, _, l, ts => some (l, ts)
end

-- The equations of the reader, once for all proofs below.
section
attribute [local simp] parseLoop parseCalls
end

/-- A bounded computation gives `a` whenever its bound is large enough. -/
def Settles {α : Type} (f : Nat → Option α) (a : α) : Prop :=
  ∃ N, ∀ n, N ≤ n → f n = some a

/-- The expression that a text stands for. -/
def Reads (t : Text) (e : Expr ω) : Prop :=
  Settles (fun n => parseExpr ops n 0 (lex t)) (e, [])

theorem Settles.unique {α : Type} {f : Nat → Option α} {a b : α} (ha : Settles f a)
    (hb : Settles f b) : a = b := by
  obtain ⟨N, hN⟩ := ha
  obtain ⟨M, hM⟩ := hb
  have hsame := (hN (max N M) (by omega)).symm.trans (hM (max N M) (by omega))
  exact Option.some.inj hsame

/-- A step with the rest of the bound settles as the rest does. -/
theorem Settles.step {α : Type} {f g : Nat → Option α} {a : α} (hg : Settles g a)
    (h : ∀ n, f (n + 1) = g n) : Settles f a := by
  obtain ⟨N, hN⟩ := hg
  refine ⟨N + 1, fun n hn => ?_⟩
  obtain ⟨k, rfl⟩ : ∃ k, n = k + 1 := ⟨n - 1, by omega⟩
  rw [h]
  exact hN k (by omega)

theorem Settles.bind {α β : Type} {g : Nat → Option α} {h : Nat → α → Option β} {a : α} {b : β}
    (hg : Settles g a) (hh : Settles (fun n => h n a) b) :
    Settles (fun n => (g n).bind (h n)) b := by
  obtain ⟨N, hN⟩ := hg
  obtain ⟨M, hM⟩ := hh
  refine ⟨max N M, fun n hn => ?_⟩
  show (g n).bind (h n) = some b
  rw [hN n (by omega)]
  exact hM n (by omega)

theorem Settles.const {α : Type} {f : Nat → Option α} {a : α} (h : ∀ n, f (n + 1) = some a) :
    Settles f a := by
  refine ⟨1, fun n hn => ?_⟩
  obtain ⟨k, rfl⟩ : ∃ k, n = k + 1 := ⟨n - 1, by omega⟩
  exact h k

variable {ops} {a b : Expr ω}

theorem Reads.unique {t : Text} (ha : Reads ops t a) (hb : Reads ops t b) : a = b := by
  have hsame := Settles.unique ha hb
  exact congrArg Prod.fst hsame

/-- Puts a conditional after an expression that may itself end in one: the text
`c ? a : b` followed by ` ? x : y` is read from the right. -/
def Expr.attach : Expr ω → Expr ω → Expr ω → Expr ω
  | .select c a b, x, y => .select c a (b.attach x y)
  | e, x, y => .select e x y

/-- The expression that is read from the text of an expression: conditionals
that stand as the condition of another are re-associated. -/
def Expr.norm : Expr ω → Expr ω
  | .word w => .word w
  | .not e => .not e.norm
  | .binary o l r => .binary o l.norm r.norm
  | .select c a b => c.norm.attach a.norm b.norm
  | .comma l r => .comma l.norm r.norm
  | .call f x => .call f.norm x.norm
  | .callEmpty f => .callEmpty f.norm

theorem Expr.attach_attach (e a b x y : Expr ω) :
    (e.attach a b).attach x y = e.attach a (b.attach x y) := by
  induction e with
  | select c d f _ _ ih => simp [Expr.attach, ih]
  | _ => rfl

/-- What follows goes on with an operator of at most level `k`, or with none. -/
def Follows (ops : Operators ω) (k : Nat) (ts : List Token) : Prop :=
  ∀ m, k < m → ∀ l : Expr ω, Settles (fun n => parseLoop ops n m l ts) (l, ts)

variable (ts : List Token)

/-- What follows is not an argument list. -/
def NoCall : Prop :=
  ts.head? ≠ some .openParen

/-- The level up to which an expression, as a left operand, holds together. -/
def Expr.binds (ops : Operators ω) : Expr ω → Nat
  | .select _ _ _ => 0
  | e => e.level ops

theorem follows_closeParen (m : Nat) (l : Expr ω) (ts : List Token) :
    Settles (fun n => parseLoop ops n m l (.closeParen :: ts)) (l, .closeParen :: ts) :=
  Settles.const fun _ => by simp [parseLoop]

theorem follows_colon (m : Nat) (l : Expr ω) (ts : List Token) :
    Settles (fun n => parseLoop ops n m l (.space :: .word [':'] :: .space :: ts))
      (l, .space :: .word [':'] :: .space :: ts) :=
  Settles.const fun _ => by simp [parseLoop, ops.find_colon]

theorem follows_operator (o : ω) (ts : List Token) :
    Follows ops (ops.level o) (.space :: .word (ops.token o) :: .space :: ts) := by
  intro m hm l
  have hne : ops.token o ≠ ['?'] := by
    intro heq
    have hfind := ops.find_token o
    rw [heq, ops.find_question] at hfind
    cases hfind
  exact Settles.const fun _ => by simp [parseLoop, hne, ops.find_token, hm]

/-- A question mark ends an expression of a level above the conditional. -/
theorem follows_question : Follows ops 1 (.space :: .word ['?'] :: .space :: ts) :=
  fun m hm l => Settles.const fun _ => by simp [parseLoop, hm]

theorem follows_comma : Follows ops 0 (.comma :: .space :: ts) :=
  fun m hm l => Settles.const fun _ => by simp [parseLoop, hm]

variable {ts : List Token}

theorem Follows.mono {j k : Nat} (h : Follows ops j ts) (hjk : j ≤ k) : Follows ops k ts :=
  fun m hm l => h m (by omega) l

theorem settles_calls (h : NoCall ts) (f : Expr ω) :
    Settles (fun n => parseCalls ops n f ts) (f, ts) := by
  refine Settles.const fun n => ?_
  cases ts with
  | nil => simp [parseCalls]
  | cons t ts =>
    cases t with
    | openParen => exact absurd rfl h
    | _ => simp [parseCalls]

/-- What the reader makes of the tokens of one expression, in every place where
they can stand. -/
structure ReadBack (ops : Operators ω) (e : Expr ω) : Prop where
  /-- As an operand: the reader goes on behind it. -/
  operand : ∀ m ts p, m ≤ e.level ops → Follows ops (e.binds ops) ts → NoCall ts →
    Settles (fun n => parseLoop ops n m e.norm ts) p →
    Settles (fun n => parseExpr ops n m (e.tokens ops ++ ts)) p
  /-- As a function. -/
  function : ∀ ts p, e.level ops = 10 →
    Settles (fun n => parseCalls ops n e.norm ts) p →
    Settles (fun n => parsePrimary ops n (e.tokens ops ++ ts)) p
  /-- Below a negation. -/
  negated : ∀ ts, 9 ≤ e.level ops → NoCall ts →
    Settles (fun n => parsePrimary ops n (e.tokens ops ++ ts)) (e.norm, ts)
  /-- As the condition of a conditional with the branches `a` and `b`. -/
  condition : ∀ m x ts rest (a b : Expr ω) p, 1 ≤ e.level ops → m ≤ 1 → Follows ops 0 rest →
    Settles (fun n => parseExpr ops n 1 (x ++ .space :: .word [':'] :: .space :: ts))
      (a, .space :: .word [':'] :: .space :: ts) →
    Settles (fun n => parseExpr ops n 1 ts) (b, rest) →
    Settles (fun n => parseLoop ops n m (e.norm.attach a b) rest) p →
    Settles (fun n => parseExpr ops n m (e.tokens ops ++ .space :: .word ['?'] :: .space ::
        (x ++ .space :: .word [':'] :: .space :: ts))) p

/-- A primary expression followed by the loop is an expression. -/
theorem settles_expr {m : Nat} {q p : Expr ω × List Token}
    (hprimary : Settles (fun n => parsePrimary ops n ts) q)
    (hloop : Settles (fun n => parseLoop ops n m q.1 q.2) p) :
    Settles (fun n => parseExpr ops n m ts) p :=
  (hprimary.bind hloop).step fun n => by rw [parseExpr]

variable {p : Expr ω × List Token} {x ts rest : List Token}

theorem settles_question {m : Nat} (hm : m ≤ 1) {l a b : Expr ω}
    (hx : Settles (fun n => parseExpr ops n 1 (x ++ .space :: .word [':'] :: .space :: ts))
      (a, .space :: .word [':'] :: .space :: ts))
    (ht : Settles (fun n => parseExpr ops n 1 ts) (b, rest))
    (hloop : Settles (fun n => parseLoop ops n m (.select l a b) rest) p) :
    Settles (fun n => parseLoop ops n m l (.space :: .word ['?'] :: .space ::
      (x ++ .space :: .word [':'] :: .space :: ts))) p := by
  have hrest : Settles (fun n => (parseExpr ops n 1 ts).bind
      (fun q => parseLoop ops n m (.select l a q.1) q.2)) p := ht.bind hloop
  refine (hx.bind (h := fun n q => match q.2 with
    | .space :: .word v :: .space :: ts' =>
      if v = [':'] then
        (parseExpr ops n 1 ts').bind (fun r => parseLoop ops n m (.select l q.1 r.1) r.2)
      else none
    | _ => none) ?_).step fun n => ?_
  · simpa using hrest
  · have hlow : ¬ 1 < m := by omega
    rw [parseLoop]
    simp only [if_true, hlow, if_false]

namespace ReadBack

variable {e : Expr ω} (h : ReadBack ops e)
include h

theorem parens (hcalls : Settles (fun n => parseCalls ops n e.norm ts) p) :
    Settles (fun n => parsePrimary ops n (.openParen :: (e.tokens ops ++ .closeParen :: ts)))
      p := by
  have hinner := h.operand 0 (.closeParen :: ts) (e.norm, .closeParen :: ts) (by omega)
    (fun m _ l => follows_closeParen m l ts) (by simp [NoCall])
    (follows_closeParen 0 e.norm ts)
  refine (hinner.bind (h := fun n q => match q.2 with
    | .closeParen :: rest => parseCalls ops n q.1 rest
    | _ => none) ?_).step fun n => ?_
  · simpa using hcalls
  · rw [parsePrimary]

/-- An operand in its place, with parentheses where they are needed. -/
theorem wrap_operand {k m : Nat} (hm : m ≤ k)
    (hfollow : k ≤ e.level ops → Follows ops (e.binds ops) ts) (hcall : NoCall ts)
    (hloop : Settles (fun n => parseLoop ops n m e.norm ts) p) :
    Settles (fun n => parseExpr ops n m (wrap ops e k (e.tokens ops) ++ ts)) p := by
  by_cases hlevel : e.level ops < k
  · have hprimary := h.parens (settles_calls hcall e.norm)
    simpa [wrap, hlevel] using settles_expr hprimary hloop
  · simpa [wrap, hlevel] using
      h.operand m ts p (by omega) (hfollow (by omega)) hcall hloop

theorem wrap_function (htop : e.level ops ≤ 10)
    (hcalls : Settles (fun n => parseCalls ops n e.norm ts) p) :
    Settles (fun n => parsePrimary ops n (wrap ops e 10 (e.tokens ops) ++ ts)) p := by
  by_cases hlevel : e.level ops < 10
  · simpa [wrap, hlevel] using h.parens hcalls
  · simpa [wrap, hlevel] using h.function ts p (by omega) hcalls

theorem wrap_negated (hcall : NoCall ts) :
    Settles (fun n => parsePrimary ops n (wrap ops e 9 (e.tokens ops) ++ ts)) (e.norm, ts) := by
  by_cases hlevel : e.level ops < 9
  · simpa [wrap, hlevel] using h.parens (settles_calls hcall e.norm)
  · simpa [wrap, hlevel] using h.negated ts (by omega) hcall

theorem wrap_condition {m : Nat}
    (hselect : e.level ops < 1 → e.norm.attach a b = .select e.norm a b)
    (hm : m ≤ 1) (hfollow : Follows ops 0 rest)
    (hx : Settles (fun n => parseExpr ops n 1 (x ++ .space :: .word [':'] :: .space :: ts))
      (a, .space :: .word [':'] :: .space :: ts))
    (ht : Settles (fun n => parseExpr ops n 1 ts) (b, rest))
    (hloop : Settles (fun n => parseLoop ops n m (e.norm.attach a b) rest) p) :
    Settles (fun n => parseExpr ops n m
      (wrap ops e 1 (e.tokens ops) ++ .space :: .word ['?'] :: .space ::
        (x ++ .space :: .word [':'] :: .space :: ts))) p := by
  by_cases hlevel : e.level ops < 1
  · rw [hselect hlevel] at hloop
    have hcall : NoCall (.space :: .word ['?'] :: .space ::
        (x ++ .space :: .word [':'] :: .space :: ts)) := by simp [NoCall]
    have hprimary := h.parens (settles_calls hcall e.norm)
    simpa [wrap, hlevel] using settles_expr hprimary (settles_question hm hx ht hloop)
  · simpa [wrap, hlevel] using
      h.condition m x ts rest a b p (by omega) hm hfollow hx ht hloop

end ReadBack

variable {e : Expr ω}

/-- An expression that is read as an operand and whose conditional is not
re-associated is read as a condition too. -/
theorem condition_of_operand (hlevel : 1 ≤ e.binds ops)
    (hselect : ∀ a b, e.norm.attach a b = .select e.norm a b)
    (hoperand : ∀ m ts p, m ≤ e.level ops → Follows ops (e.binds ops) ts → NoCall ts →
      Settles (fun n => parseLoop ops n m e.norm ts) p →
      Settles (fun n => parseExpr ops n m (e.tokens ops ++ ts)) p) :
    ∀ m x ts rest (a b : Expr ω) p, 1 ≤ e.level ops → m ≤ 1 → Follows ops 0 rest →
      Settles (fun n => parseExpr ops n 1 (x ++ .space :: .word [':'] :: .space :: ts))
        (a, .space :: .word [':'] :: .space :: ts) →
      Settles (fun n => parseExpr ops n 1 ts) (b, rest) →
      Settles (fun n => parseLoop ops n m (e.norm.attach a b) rest) p →
      Settles (fun n => parseExpr ops n m (e.tokens ops ++ .space :: .word ['?'] :: .space ::
          (x ++ .space :: .word [':'] :: .space :: ts))) p := by
  intro m x ts rest a b p hone hm _ hx ht hloop
  rw [hselect] at hloop
  exact hoperand m _ p (by omega) ((follows_question _).mono hlevel) (by simp [NoCall])
    (settles_question hm hx ht hloop)

/-- An expression that is read as a function is read everywhere. -/
theorem readBack_of_function (hlevel : e.level ops = 10)
    (hselect : ∀ a b, e.norm.attach a b = .select e.norm a b)
    (hfunction : ∀ ts p, Settles (fun n => parseCalls ops n e.norm ts) p →
      Settles (fun n => parsePrimary ops n (e.tokens ops ++ ts)) p) : ReadBack ops e := by
  have hprimary : ∀ ts, NoCall ts →
      Settles (fun n => parsePrimary ops n (e.tokens ops ++ ts)) (e.norm, ts) :=
    fun ts hcall => hfunction ts _ (settles_calls hcall e.norm)
  have hoperand : ∀ m ts p, m ≤ e.level ops → Follows ops (e.binds ops) ts → NoCall ts →
      Settles (fun n => parseLoop ops n m e.norm ts) p →
      Settles (fun n => parseExpr ops n m (e.tokens ops ++ ts)) p :=
    fun m ts p _ _ hcall hloop => settles_expr (hprimary ts hcall) hloop
  have hbinds : 1 ≤ e.binds ops := by
    cases e <;> simp_all [Expr.binds, Expr.level]
  exact ⟨hoperand, fun ts p _ h => hfunction ts p h, fun ts _ hcall => hprimary ts hcall,
    condition_of_operand hbinds hselect hoperand⟩

theorem level_le_ten (e : Expr ω) : e.level ops ≤ 10 := by
  cases e with
  | binary o l r =>
    have hbound := (ops.level_bounds o).2
    simp only [Expr.level]
    omega
  | _ => simp [Expr.level]

theorem attach_of_comma (h : e.level ops < 1) (a b : Expr ω) :
    e.norm.attach a b = .select e.norm a b := by
  cases e with
  | binary o l r =>
    have hbound := (ops.level_bounds o).1
    simp only [Expr.level] at h
    omega
  | comma l r => rfl
  | _ => simp [Expr.level] at h

theorem head_tokens (e : Expr ω) (ts : List Token) :
    (e.tokens ops ++ ts).head? ≠ some .closeParen := by
  have hwrap : ∀ (f : Expr ω) (k : Nat) (after : List Token),
      (∀ r, (f.tokens ops ++ r).head? ≠ some .closeParen) →
      (wrap ops f k (f.tokens ops) ++ after).head? ≠ some .closeParen := by
    intro f k after hf
    unfold wrap
    split
    · simp
    · exact hf after
  induction e generalizing ts with
  | word w => simp [Expr.tokens]
  | not e => simp [Expr.tokens]
  | binary o l r ihl _ =>
    rw [Expr.tokens, append_assoc]
    exact hwrap l _ _ ihl
  | select c a b ihc _ _ =>
    rw [Expr.tokens, append_assoc]
    exact hwrap c _ _ ihc
  | comma l r ihl _ =>
    rw [Expr.tokens, append_assoc]
    exact ihl _
  | call f x ihf _ =>
    rw [Expr.tokens, append_assoc]
    exact hwrap f _ _ ihf
  | callEmpty f ihf =>
    rw [Expr.tokens, append_assoc]
    exact hwrap f _ _ ihf

theorem parseCalls_open (h : ts.head? ≠ some .closeParen) (n : Nat) (f : Expr ω) :
    parseCalls ops (n + 1) f (.openParen :: ts) = (parseExpr ops n 0 ts).bind (fun p =>
        match p.2 with
        | .closeParen :: rest => parseCalls ops n (.call f p.1) rest
        | _ => none) := by
  cases ts with
  | nil => rw [parseCalls]; simp
  | cons t ts =>
    cases t with
    | closeParen => exact absurd rfl h
    | _ => rw [parseCalls]; simp

/-- Above the level of conditionals an expression binds at its level. -/
theorem le_binds {k : Nat} (hk : 1 < k) (h : k ≤ e.level ops) : k ≤ e.binds ops := by
  cases e with
  | select c a b =>
    simp only [Expr.level] at h
    omega
  | _ => exact h

/-- **Reading back.**  The tokens of every expression are read as its
normalized form, wherever they stand. -/
theorem readBack (e : Expr ω) : ReadBack ops e := by
  induction e with
  | word w =>
    refine readBack_of_function rfl (fun _ _ => rfl) fun ts p hcalls => ?_
    exact hcalls.step fun n => by rw [Expr.tokens, singleton_append, parsePrimary]; rfl
  | call f x ihf ihx =>
    refine readBack_of_function rfl (fun _ _ => rfl) fun ts p hcalls => ?_
    have hinner := ihx.operand 0 (.closeParen :: ts) (x.norm, .closeParen :: ts) (by omega)
      (fun m _ l => follows_closeParen m l ts) (by simp [NoCall])
      (follows_closeParen 0 x.norm ts)
    have hargs : Settles (fun n => parseCalls ops n f.norm
        (.openParen :: (x.tokens ops ++ .closeParen :: ts))) p := by
      refine (hinner.bind (h := fun n q => match q.2 with
        | .closeParen :: rest => parseCalls ops n (.call f.norm q.1) rest
        | _ => none) ?_).step fun n => parseCalls_open (head_tokens x _) n _
      exact hcalls
    simpa [Expr.tokens] using ihf.wrap_function (level_le_ten f) hargs
  | callEmpty f ihf =>
    refine readBack_of_function rfl (fun _ _ => rfl) fun ts p hcalls => ?_
    have hempty : Settles (fun n => parseCalls ops n f.norm
        (.openParen :: .closeParen :: ts)) p :=
      hcalls.step fun n => by rw [parseCalls]; rfl
    simpa [Expr.tokens] using ihf.wrap_function (level_le_ten f) hempty
  | not e ih =>
    have hprimary : ∀ ts, NoCall ts →
        Settles (fun n => parsePrimary ops n ((Expr.not e).tokens ops ++ ts))
          ((Expr.not e).norm, ts) := by
      intro ts hcall
      refine ((ih.wrap_negated hcall).bind (h := fun _ q => some (.not q.1, q.2)) ?_).step
        fun n => ?_
      · exact Settles.const fun _ => rfl
      · rw [Expr.tokens, cons_append, parsePrimary]
    have hoperand : ∀ m ts p, m ≤ (Expr.not e).level ops →
        Follows ops ((Expr.not e).binds ops) ts → NoCall ts →
        Settles (fun n => parseLoop ops n m (Expr.not e).norm ts) p →
        Settles (fun n => parseExpr ops n m ((Expr.not e).tokens ops ++ ts)) p :=
      fun m ts p _ _ hcall hloop => settles_expr (hprimary ts hcall) hloop
    exact ⟨hoperand, fun _ _ h => absurd h (by simp [Expr.level]),
      fun ts _ hcall => hprimary ts hcall,
      condition_of_operand (by simp [Expr.binds, Expr.level]) (fun _ _ => rfl) hoperand⟩
  | binary o l r ihl ihr =>
    have hbounds := ops.level_bounds o
    have hoperand : ∀ m ts p, m ≤ (Expr.binary o l r).level ops →
        Follows ops ((Expr.binary o l r).binds ops) ts → NoCall ts →
        Settles (fun n => parseLoop ops n m (Expr.binary o l r).norm ts) p →
        Settles (fun n => parseExpr ops n m ((Expr.binary o l r).tokens ops ++ ts)) p := by
      intro m ts p hm hfollow hcall hloop
      simp only [Expr.level] at hm
      simp only [Expr.binds, Expr.level] at hfollow
      have hright : Settles (fun n => parseExpr ops n (ops.level o + 1)
          (wrap ops r (ops.level o + 1) (r.tokens ops) ++ ts)) (r.norm, ts) :=
        ihr.wrap_operand (by omega)
          (fun hk => hfollow.mono (by have := le_binds (by omega) hk; omega)) hcall
          (hfollow _ (by omega) r.norm)
      have hne : ops.token o ≠ ['?'] := by
        intro heq
        have hfind := ops.find_token o
        rw [heq, ops.find_question] at hfind
        cases hfind
      have hop : Settles (fun n => parseLoop ops n m l.norm
          (.space :: .word (ops.token o) :: .space ::
            (wrap ops r (ops.level o + 1) (r.tokens ops) ++ ts))) p := by
        refine (hright.bind (h := fun n (q : Expr ω × List Token) =>
          parseLoop ops n m (.binary o l.norm q.1) q.2) hloop).step fun n => ?_
        have hlow : ¬ ops.level o < m := by omega
        rw [parseLoop]
        simp only [hne, if_false, ops.find_token, hlow]
      simpa [Expr.tokens] using ihl.wrap_operand hm
        (fun hk => (follows_operator o _).mono (le_binds (by omega) hk)) (by simp [NoCall]) hop
    exact ⟨hoperand, fun _ _ h => absurd h (by simp only [Expr.level]; omega),
      fun _ h => absurd h (by simp only [Expr.level]; omega),
      condition_of_operand (by simp only [Expr.binds, Expr.level]; omega) (fun _ _ => rfl)
        hoperand⟩
  | comma l r ihl ihr =>
    refine ⟨?_, fun _ _ h => absurd h (by simp [Expr.level]),
      fun _ h => absurd h (by simp [Expr.level]),
      fun _ _ _ _ _ _ _ h => absurd h (by simp [Expr.level])⟩
    intro m ts p hm hfollow hcall hloop
    simp only [Expr.level] at hm
    simp only [Expr.binds, Expr.level] at hfollow
    obtain rfl : m = 0 := by omega
    have hright : Settles (fun n => parseExpr ops n 1 (wrap ops r 1 (r.tokens ops) ++ ts))
        (r.norm, ts) :=
      ihr.wrap_operand (by omega) (fun _ => hfollow.mono (by omega)) hcall
        (hfollow 1 (by omega) r.norm)
    have hcomma : Settles (fun n => parseLoop ops n 0 l.norm
        (.comma :: .space :: (wrap ops r 1 (r.tokens ops) ++ ts))) p := by
      refine (hright.bind (h := fun n (q : Expr ω × List Token) =>
        parseLoop ops n 0 (.comma l.norm q.1) q.2) hloop).step fun n => ?_
      rw [parseLoop]
      simp
    simpa [Expr.tokens] using ihl.operand 0 _ p (by omega)
      ((follows_comma _).mono (by omega)) (by simp [NoCall]) hcomma
  | select c a b ihc iha ihb =>
    -- the first branch ends at its colon, whatever comes after it
    have htrue : ∀ ts, Settles (fun n => parseExpr ops n 1
        (wrap ops a 1 (a.tokens ops) ++ .space :: .word [':'] :: .space :: ts))
        (a.norm, .space :: .word [':'] :: .space :: ts) := fun ts =>
      iha.wrap_operand (by omega) (fun _ m _ l => follows_colon m l ts) (by simp [NoCall])
        (follows_colon 1 a.norm ts)
    refine ⟨?_, fun _ _ h => absurd h (by simp [Expr.level]),
      fun _ h => absurd h (by simp [Expr.level]), ?_⟩
    · intro m ts p hm hfollow hcall hloop
      simp only [Expr.level] at hm
      simp only [Expr.binds] at hfollow
      have hfalse : Settles (fun n => parseExpr ops n 1
          (wrap ops b 1 (b.tokens ops) ++ ts)) (b.norm, ts) :=
        ihb.wrap_operand (by omega) (fun _ => hfollow.mono (by omega)) hcall
          (hfollow 1 (by omega) b.norm)
      simpa [Expr.tokens] using ihc.wrap_condition (fun h => attach_of_comma h _ _) hm
        hfollow (htrue _) hfalse hloop
    · intro m x ts rest a' b' p _ hm hfollow hx ht hloop
      -- the last branch swallows the conditional that follows
      have hlast := ihb.wrap_condition (m := 1) (fun h => attach_of_comma h a' b') (by omega)
        hfollow hx ht (hfollow 1 (by omega) _)
      have hnorm : (Expr.select c a b).norm.attach a' b' =
          c.norm.attach a.norm (b.norm.attach a' b') := Expr.attach_attach _ _ _ _ _
      rw [hnorm] at hloop
      simpa [Expr.tokens] using ihc.wrap_condition (fun h => attach_of_comma h _ _) hm
        hfollow (htrue _) hlast hloop

/-- **The reading of a printed expression.**  The text of an expression whose
words are names is read as its normalized form. -/
theorem reads_text (h : e.Named ops) : Reads ops (e.text ops) e.norm := by
  have hlex : lex (e.text ops) = e.tokens ops := by
    have hall := Expr.lex_text h [] (by simp [Breaks])
    simpa [lex, lexFrom, flushWord] using hall
  have hloop : Settles (fun n => parseLoop ops n 0 e.norm []) (e.norm, []) :=
    Settles.const fun _ => by simp [parseLoop]
  have hread := (readBack e).operand 0 [] (e.norm, []) (by omega)
    (fun m _ l => Settles.const fun _ => by simp [parseLoop]) (by simp [NoCall]) hloop
  unfold Reads
  rw [hlex]
  simpa using hread

theorem norm_eq_of_text_eq (ha : a.Named ops) (hb : b.Named ops)
    (h : a.text ops = b.text ops) : a.norm = b.norm := by
  have hread := reads_text hb
  rw [← h] at hread
  exact (reads_text ha).unique hread

end StdText
