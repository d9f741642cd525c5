import IndagoRev.Workbench.Calculation

/-!
# What a calculation means

Expressions have a meaning over the natural numbers modulo 2 ^ 32, and a program runs in
rounds.  The meaning counts the expressions that it evaluates and knows no budget.  What the
calculator returns is that meaning.
-/

namespace Indago

open StdText JsonValues Transactions

/-- The low byte turned to the left. -/
def rotateByte (v n : Nat) : Nat := (v % 256 * 2 ^ (n % 8) + v % 256 / 2 ^ (8 - n % 8)) % 256

/-- The operators, over numbers below 2 ^ 32. -/
def operation (op : Text) (a b : Nat) : Option Nat :=
  if op = "add" then some ((a + b) % 2 ^ 32)
  else if op = "sub" then some ((2 ^ 32 + a - b) % 2 ^ 32)
  else if op = "mul" then some (a * b % 2 ^ 32)
  else if op = "xor" then some (a ^^^ b)
  else if op = "and" then some (a &&& b)
  else if op = "or" then some (a ||| b)
  else if op = "eq" then some (if a = b then 1 else 0)
  else if op = "lt" then some (if a < b then 1 else 0)
  else if op = "div" then (if b = 0 then none else some (a / b))
  else if op = "mod" then (if b = 0 then none else some (a % b))
  else if op = "shl" then (if 32 ≤ b then none else some (a * 2 ^ b % 2 ^ 32))
  else if op = "shr" then (if 32 ≤ b then none else some (a / 2 ^ b))
  else if op = "rol8" then some (rotateByte a b)
  else if op = "ror8" then some (rotateByte a (8 - b % 8))
  else none

/-- The values of the variables. -/
abbrev CalculationEnv : Type := Text → Option UInt32

def CalculationEnv.set (env : CalculationEnv) (key : Text) (v : UInt32) : CalculationEnv :=
  fun k => if k = key then some v else env k

/-- The value of an expression, with the number of expressions that are evaluated for it. -/
inductive Evaluates (input : List UInt8) (env : CalculationEnv) : Json → UInt32 → Nat → Prop
  | constant {n : Nat} (h : n < 2 ^ 32) : Evaluates input env (.int n) (UInt32.ofNat n) 1
  | variable {key : Text} {v : UInt32} (h : env key = some v) : Evaluates input env (.str key) v 1
  | yes {c t f : Json} {v w : UInt32} {s s' : Nat} (hc : Evaluates input env c v s) (hv : v ≠ 0)
      (ht : Evaluates input env t w s') :
      Evaluates input env (.arr [.str "select", c, t, f]) w (1 + s + s')
  | no {c t f : Json} {w : UInt32} {s s' : Nat} (hc : Evaluates input env c 0 s)
      (hf : Evaluates input env f w s') :
      Evaluates input env (.arr [.str "select", c, t, f]) w (1 + s + s')
  | complement {e : Json} {v : UInt32} {s : Nat} (h : Evaluates input env e v s) :
      Evaluates input env (.arr [.str "not", e]) (UInt32.ofNat (2 ^ 32 - 1 - v.toNat)) (1 + s)
  | byte {e : Json} {v : UInt32} {b : UInt8} {s : Nat} (h : Evaluates input env e v s)
      (hb : input[v.toNat]? = some b) :
      Evaluates input env (.arr [.str "byte", e]) (UInt32.ofNat b.toNat) (1 + s)
  | binary {op : Text} {l r : Json} {a b v : UInt32} {s s' : Nat} (hl : Evaluates input env l a s)
      (hr : Evaluates input env r b s') (h : operation op a.toNat b.toNat = some v.toNat) :
      Evaluates input env (.arr [.str op, l, r]) v (1 + s + s')

/-- Assignments, one after the other. -/
inductive Assigns (input : List UInt8) :
    List CalculationStatement → CalculationEnv → CalculationEnv → Nat → Prop
  | nil {env : CalculationEnv} : Assigns input [] env env 0
  | cons {s : CalculationStatement} {rest : List CalculationStatement}
      {env env' : CalculationEnv} {v : UInt32} {n n' : Nat} (h : Evaluates input env s.value v n)
      (hrest : Assigns input rest (env.set s.set v) env' n') :
      Assigns input (s :: rest) env env' (n + n')

/-- Rounds from the `k`-th on: the variable `i` is the number of the round, the assignments
are made, and a byte is emitted. No assignment of a round changes `i` or `n`. -/
inductive Rounds (input : List UInt8) (body : List CalculationStatement) (emit : Json) :
    Nat → Nat → CalculationEnv → List UInt8 → CalculationEnv → Nat → Prop
  | done {k : Nat} {env : CalculationEnv} : Rounds input body emit 0 k env [] env 0
  | round {count k : Nat} {env mid env' : CalculationEnv} {v : UInt32} {output : List UInt8}
      {n n' n'' : Nat} (hassign : Assigns input body (env.set ['i'] (UInt32.ofNat k)) mid n)
      (hi : mid ['i'] = some (UInt32.ofNat k)) (hn : mid ['n'] = some (UInt32.ofNat input.length))
      (hemit : Evaluates input mid emit v n') (hbyte : v.toNat < 256)
      (hrest : Rounds input body emit count (k + 1) mid output env' n'') :
      Rounds input body emit (count + 1) k env (UInt8.ofNat v.toNat :: output) env' (n + n' + n'')

theorem rotate_left {v n : Nat} (hv : v < 256) (hn : n < 8) :
    ((v <<< n) ||| (v >>> (8 - n))) &&& 255 = (v * 2 ^ n + v / 2 ^ (8 - n)) % 256 := by
  have hsmall : v / 2 ^ (8 - n) < 2 ^ n := by
    rw [Nat.div_lt_iff_lt_mul (Nat.two_pow_pos _), ← pow_add, Nat.add_sub_cancel' (by omega)]
    exact hv
  rw [Nat.shiftRight_eq_div_pow, ← Nat.shiftLeft_add_eq_or_of_lt hsmall, Nat.shiftLeft_eq]
  exact Nat.and_two_pow_sub_one_eq_mod _ 8

theorem toNat_low (a : UInt32) : (a &&& 255).toNat = a.toNat % 256 := by
  rw [UInt32.toNat_and]
  exact Nat.and_two_pow_sub_one_eq_mod _ 8

theorem toNat_shift (b : UInt32) : (b % 8).toNat = b.toNat % 8 ∧
    (8 - b % 8).toNat = 8 - b.toNat % 8 := by
  have hmod : (b % 8).toNat = b.toNat % 8 := UInt32.toNat_mod b 8
  refine ⟨hmod, ?_⟩
  rw [UInt32.toNat_sub_of_le _ _ (by rw [UInt32.le_iff_toNat_le, hmod]; show _ ≤ 8; omega), hmod]
  rfl

theorem toNat_shifted {v n : UInt32} (hv : v.toNat < 256) (hn : n.toNat ≤ 8) :
    (v <<< n).toNat = v.toNat <<< n.toNat ∧ (v >>> n).toNat = v.toNat >>> n.toNat := by
  have hmod : n.toNat % 32 = n.toNat := Nat.mod_eq_of_lt (by omega)
  rw [UInt32.toNat_shiftLeft, UInt32.toNat_shiftRight, hmod]
  refine ⟨Nat.mod_eq_of_lt ?_, rfl⟩
  rw [Nat.shiftLeft_eq]
  calc v.toNat * 2 ^ n.toNat ≤ 255 * 2 ^ 8 :=
        Nat.mul_le_mul (by omega) (Nat.pow_le_pow_right (by decide) hn)
    _ < 2 ^ 32 := by decide

theorem rol8_toNat (a b : UInt32) :
    ((((a &&& 255) <<< (b % 8)) ||| ((a &&& 255) >>> (8 - b % 8))) &&& 255).toNat =
      rotateByte a.toNat b.toNat := by
  have hlow : (a &&& 255).toNat < 256 := by
    rw [toNat_low]
    exact Nat.mod_lt _ (by decide)
  obtain ⟨hn, hback⟩ := toNat_shift b
  rw [UInt32.toNat_and, UInt32.toNat_or, (toNat_shifted hlow (by omega)).1,
    (toNat_shifted hlow (by omega)).2, hn, hback, toNat_low]
  exact rotate_left (Nat.mod_lt _ (by decide)) (Nat.mod_lt _ (by decide))

theorem ror8_toNat {a b : UInt32} (hb : b % 8 ≠ 0) :
    ((((a &&& 255) >>> (b % 8)) ||| ((a &&& 255) <<< (8 - b % 8))) &&& 255).toNat =
      rotateByte a.toNat (8 - b.toNat % 8) := by
  have hlow : (a &&& 255).toNat < 256 := by
    rw [toNat_low]
    exact Nat.mod_lt _ (by decide)
  obtain ⟨hn, hback⟩ := toNat_shift b
  have hpos : 0 < b.toNat % 8 := by
    rw [Nat.pos_iff_ne_zero, ← hn]
    exact fun hzero => hb (UInt32.toNat_inj.mp hzero)
  rw [UInt32.toNat_and, UInt32.toNat_or, (toNat_shifted hlow (by omega)).1,
    (toNat_shifted hlow (by omega)).2, hn, hback, toNat_low, Nat.or_comm]
  have hturn := rotate_left (v := a.toNat % 256) (n := 8 - b.toNat % 8)
    (Nat.mod_lt _ (by decide)) (by omega)
  have hsub : 8 - (8 - b.toNat % 8) = b.toNat % 8 := by omega
  rw [hsub] at hturn
  unfold rotateByte
  rw [Nat.mod_eq_of_lt (show 8 - b.toNat % 8 < 8 by omega), hsub]
  exact hturn

theorem rotateByte_zero (a : Nat) {n : Nat} (hn : n % 8 = 0) : rotateByte a n = a % 256 := by
  unfold rotateByte
  rw [hn, Nat.sub_zero, Nat.pow_zero, Nat.mul_one]
  omega

theorem binaryOperation_ok {op : Text} {a b v : UInt32} (h : binaryOperation op a b = .ok v) :
    operation op a.toNat b.toNat = some v.toNat := by
  have hbool : ∀ (p : Prop) [Decidable p],
      (if p then (1 : UInt32) else 0).toNat = if p then 1 else 0 := by
    intro p _
    split <;> rfl
  have hnonzero : ∀ {c : UInt32}, c ≠ 0 → c.toNat ≠ 0 := fun hc h => hc (UInt32.toNat_inj.mp h)
  by_cases hadd : op = "add"
  · subst hadd
    have hv : a + b = v := Except.ok.inj h
    rw [← hv]
    exact congrArg some (UInt32.toNat_add a b).symm
  by_cases hsub : op = "sub"
  · subst hsub
    have hv : a - b = v := Except.ok.inj h
    have hb := b.toNat_lt
    rw [← hv, UInt32.toNat_sub]
    show some ((2 ^ 32 + a.toNat - b.toNat) % 2 ^ 32) = _
    congr 2
    omega
  by_cases hmul : op = "mul"
  · subst hmul
    have hv : (a.toUInt64 * b.toUInt64).toUInt32 = v := Except.ok.inj h
    rw [← hv, UInt64.toNat_toUInt32, UInt64.toNat_mul, UInt32.toNat_toUInt64, UInt32.toNat_toUInt64,
      Nat.mod_mod_of_dvd _ (by decide)]
    rfl
  by_cases hxor : op = "xor"
  · subst hxor
    have hv : a ^^^ b = v := Except.ok.inj h
    rw [← hv]
    exact congrArg some (UInt32.toNat_xor a b).symm
  by_cases hand : op = "and"
  · subst hand
    have hv : a &&& b = v := Except.ok.inj h
    rw [← hv]
    exact congrArg some (UInt32.toNat_and a b).symm
  by_cases hor : op = "or"
  · subst hor
    have hv : a ||| b = v := Except.ok.inj h
    rw [← hv]
    exact congrArg some (UInt32.toNat_or a b).symm
  by_cases heq : op = "eq"
  · subst heq
    have hv : (if a = b then (1 : UInt32) else 0) = v := Except.ok.inj h
    rw [← hv, hbool]
    show some (if a.toNat = b.toNat then 1 else 0) = _
    simp only [UInt32.toNat_inj]
  by_cases hlt : op = "lt"
  · subst hlt
    have hv : (if a < b then (1 : UInt32) else 0) = v := Except.ok.inj h
    rw [← hv, hbool]
    show some (if a.toNat < b.toNat then 1 else 0) = _
    simp only [UInt32.lt_iff_toNat_lt]
  by_cases hdiv : op = "div"
  · subst hdiv
    have hcases : (if b = 0 then Except.error "Calculation division by zero"
        else Except.ok (a / b) : Except String UInt32) = .ok v := h
    show (if b.toNat = 0 then none else some (a.toNat / b.toNat)) = _
    by_cases hb : b = 0
    · rw [if_pos hb] at hcases
      cases hcases
    · rw [if_neg hb] at hcases
      cases hcases
      rw [if_neg (hnonzero hb), UInt32.toNat_div]
  by_cases hmod : op = "mod"
  · subst hmod
    have hcases : (if b = 0 then Except.error "Calculation division by zero"
        else Except.ok (a % b) : Except String UInt32) = .ok v := h
    show (if b.toNat = 0 then none else some (a.toNat % b.toNat)) = _
    by_cases hb : b = 0
    · rw [if_pos hb] at hcases
      cases hcases
    · rw [if_neg hb] at hcases
      cases hcases
      rw [if_neg (hnonzero hb), UInt32.toNat_mod]
  by_cases hshl : op = "shl"
  · subst hshl
    have hcases : (if 32 ≤ b then Except.error "Calculation shift must be below 32"
        else Except.ok (a <<< b) : Except String UInt32) = .ok v := h
    show (if 32 ≤ b.toNat then none else some (a.toNat * 2 ^ b.toNat % 2 ^ 32)) = _
    by_cases hb : 32 ≤ b
    · rw [if_pos hb] at hcases
      cases hcases
    rw [if_neg hb] at hcases
    cases hcases
    have hless : ¬ 32 ≤ b.toNat := hb
    have hcount : b.toNat % 32 = b.toNat := Nat.mod_eq_of_lt (by omega)
    rw [if_neg hless, UInt32.toNat_shiftLeft, hcount, Nat.shiftLeft_eq]
  by_cases hshr : op = "shr"
  · subst hshr
    have hcases : (if 32 ≤ b then Except.error "Calculation shift must be below 32"
        else Except.ok (a >>> b) : Except String UInt32) = .ok v := h
    show (if 32 ≤ b.toNat then none else some (a.toNat / 2 ^ b.toNat)) = _
    by_cases hb : 32 ≤ b
    · rw [if_pos hb] at hcases
      cases hcases
    rw [if_neg hb] at hcases
    cases hcases
    have hless : ¬ 32 ≤ b.toNat := hb
    have hcount : b.toNat % 32 = b.toNat := Nat.mod_eq_of_lt (by omega)
    rw [if_neg hless, UInt32.toNat_shiftRight, hcount, Nat.shiftRight_eq_div_pow]
  by_cases hrol : op = "rol8"
  · subst hrol
    have hcases : (if b % 8 = 0 then Except.ok (a &&& 255) else Except.ok
        ((((a &&& 255) <<< (b % 8)) ||| ((a &&& 255) >>> (8 - b % 8))) &&& 255) :
          Except String UInt32) = .ok v := h
    show some (rotateByte a.toNat b.toNat) = _
    by_cases hb : b % 8 = 0
    · rw [if_pos hb] at hcases
      cases hcases
      have hzero := congrArg UInt32.toNat hb
      rw [(toNat_shift b).1] at hzero
      rw [toNat_low, rotateByte_zero _ hzero]
    · rw [if_neg hb] at hcases
      cases hcases
      rw [rol8_toNat]
  by_cases hror : op = "ror8"
  · subst hror
    have hcases : (if b % 8 = 0 then Except.ok (a &&& 255) else Except.ok
        ((((a &&& 255) >>> (b % 8)) ||| ((a &&& 255) <<< (8 - b % 8))) &&& 255) :
          Except String UInt32) = .ok v := h
    show some (rotateByte a.toNat (8 - b.toNat % 8)) = _
    by_cases hb : b % 8 = 0
    · rw [if_pos hb] at hcases
      cases hcases
      have hzero := congrArg UInt32.toNat hb
      rw [(toNat_shift b).1] at hzero
      have hsame : b.toNat % 8 = 0 := hzero
      rw [toNat_low, hsame, rotateByte_zero _ (by decide)]
    · rw [if_neg hb] at hcases
      cases hcases
      rw [ror8_toNat hb]
  rw [binaryOperation, if_neg hadd, if_neg hsub, if_neg hmul, if_neg hxor, if_neg hand, if_neg hor,
    if_neg heq, if_neg hlt, if_neg (not_or.mpr ⟨hdiv, hmod⟩), if_neg (not_or.mpr ⟨hshl, hshr⟩),
    if_neg (not_or.mpr ⟨hrol, hror⟩)] at h
  cases h

theorem rotate_back (a n : Nat) : rotateByte (rotateByte a n) (8 - n % 8) = a % 256 := by
  have hk : n % 8 < 8 := Nat.mod_lt _ (by decide)
  have hv : a % 256 < 256 := Nat.mod_lt _ (by decide)
  unfold rotateByte
  generalize n % 8 = k at hk ⊢
  generalize a % 256 = v at hv ⊢
  have hturned : (v * 2 ^ k + v / 2 ^ (8 - k)) % 256 = v % 2 ^ (8 - k) * 2 ^ k + v / 2 ^ (8 - k) := by
    interval_cases k <;> norm_num <;> omega
  have hless : v % 2 ^ (8 - k) * 2 ^ k + v / 2 ^ (8 - k) < 256 := by
    interval_cases k <;> norm_num <;> omega
  have hhigh : (v % 2 ^ (8 - k) * 2 ^ k + v / 2 ^ (8 - k)) / 2 ^ k = v % 2 ^ (8 - k) := by
    interval_cases k <;> norm_num <;> omega
  have hback : ((v % 2 ^ (8 - k) * 2 ^ k + v / 2 ^ (8 - k)) * 2 ^ (8 - k) + v % 2 ^ (8 - k)) % 256 =
      v := by
    interval_cases k <;> norm_num <;> omega
  rw [hturned, Nat.mod_eq_of_lt hless]
  rcases Nat.eq_zero_or_pos k with rfl | hpos
  · norm_num
    omega
  have hcount : (8 - k) % 8 = 8 - k := Nat.mod_eq_of_lt (by omega)
  have hrest : 8 - (8 - k) = k := by omega
  rw [hcount, hrest, hhigh]
  exact hback

end Indago
