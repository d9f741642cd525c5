import IndagoRev.Numerals
import IndagoRev.Airece.ExpressionText

/-!
# The values of a module

What the operations that expression text shows compute: constants, infix
operations, conditionals, casts, and the two flags of a subtraction that are
shown as comparisons.  The names of constants and casts are read back to what
they stand for.
-/

namespace Airece

open StdText List

namespace Word

theorem exists_ofBool {w : Word} (h : w.width = 1) : ∃ b, w = ofBool b := by
  obtain ⟨width, bits⟩ := w
  subst h
  have hall : ∀ x : BitVec 1, ∃ b, x = BitVec.ofBool b := by decide
  obtain ⟨b, hb⟩ := hall bits
  exact ⟨b, by rw [hb]; rfl⟩

theorem ofBool_eq_true (b : Bool) : InfixOp.compare .eq (ofBool b) (ofBool true) = some b ∧
      InfixOp.compare .eq (ofBool true) (ofBool b) = some b := by
  cases b <;> decide

theorem ofBool_ne_false (b : Bool) : InfixOp.compare .ne (ofBool b) (ofBool false) = some b ∧
      InfixOp.compare .ne (ofBool false) (ofBool b) = some b := by
  cases b <;> decide

end Word

/-- A meaning of the arithmetic operators.  Exclusive or works bit by bit; the
others, with their overflows and divisions by zero, are left open. -/
structure Arithmetic where
  apply : InfixOp → Word → Word → Word
  apply_xor : ∀ {n : Nat} (x y : BitVec n), apply .xor ⟨n, x⟩ ⟨n, y⟩ = ⟨n, x ^^^ y⟩

/-- The value of an infix operation. -/
def Arithmetic.binary (A : Arithmetic) (op : InfixOp) (l r : Word) : Word :=
  match op.compare l r with
  | some b => Word.ofBool b
  | none => A.apply op l r

/-- The word of a constant. -/
def constantWord (o : XairOp) (type : XairType) : Word :=
  ⟨type.bits, BitVec.ofNat type.bits
    (if o.opcode = .constU64 then o.immediateLow
      else o.immediateHigh * 2 ^ 64 + o.immediateLow)⟩

/-- The number of bits that a width names. -/
def widthOf (t : Text) : Nat := ofDecimal (t.filter Char.isDigit)

/-- The word that the text of a constant stands for. -/
def constantOf (t : Text) : Option Word :=
  if t = "true" then some (Word.ofBool true)
  else if t = "false" then some (Word.ofBool false)
  else if startsWith "0x" t then
    some ⟨widthOf (t.dropWhile (· ≠ ':')), BitVec.ofNat _ (ofHex ((t.drop 2).takeWhile (· ≠ ':')))⟩
  else none

variable (type : XairType)

@[simp] theorem widthOf_typeWidth : widthOf (typeWidth type) = type.bits := by
  unfold widthOf typeWidth
  cases type.kind <;> simp [Char.isDigit]

theorem constantOf_hex {digits : Text} (hdigits : ∀ c ∈ digits, c ∈ "0123456789abcdef".toList)
    (type : XairType) : constantOf ("0x" ++ digits ++ ':' :: typeWidth type) =
      some ⟨type.bits, BitVec.ofNat type.bits (ofHex digits)⟩ := by
  have hcolon : ∀ c ∈ digits, c ≠ ':' := by
    rintro c hc rfl
    have hbad := hdigits _ hc
    revert hbad
    decide
  have htake : (digits ++ ':' :: typeWidth type).takeWhile (· ≠ ':') = digits := by
    rw [takeWhile_append_of_pos (by simpa using hcolon)]
    simp
  have hdrop : (digits ++ ':' :: typeWidth type).dropWhile (· ≠ ':') = ':' :: typeWidth type := by
    rw [dropWhile_append_of_pos (by simpa using hcolon)]
    simp
  have hwidth : widthOf (':' :: typeWidth type) = type.bits := by
    have hskip : widthOf (':' :: typeWidth type) = widthOf (typeWidth type) := rfl
    rw [hskip, widthOf_typeWidth]
  have htext : "0x" ++ digits ++ ':' :: typeWidth type =
      '0' :: 'x' :: (digits ++ ':' :: typeWidth type) := rfl
  have hpast : ('0' :: 'x' :: (digits ++ ':' :: typeWidth type)).dropWhile (· ≠ ':') =
      ':' :: typeWidth type := hdrop
  have hrest : ('0' :: 'x' :: (digits ++ ':' :: typeWidth type)).drop 2 =
      digits ++ ':' :: typeWidth type := rfl
  rw [htext, constantOf, if_neg (by simp), if_neg (by simp), if_pos (by simp [startsWith]),
    hpast, hwidth, hrest, htake]

/-- The word of a constant is the one that its text stands for. -/
theorem constantOf_constantText {o : XairOp} (type : XairType)
    (hop : o.opcode = .constU64 ∨ o.opcode = .constWide) (hlow : o.immediateLow < 2 ^ 64) :
    constantOf (constantText o type) = some (constantWord o type) := by
  unfold constantText constantWord
  rcases hop with hop | hop
  · rw [if_pos hop, if_pos hop]
    by_cases hbool : type.kind = .int ∧ type.bits = 1
    · rw [if_pos hbool]
      obtain ⟨kind, bits, extra⟩ := type
      obtain ⟨hkind, hbits⟩ := hbool
      subst hkind hbits
      have hmod : BitVec.ofNat 1 o.immediateLow = BitVec.ofNat 1 (o.immediateLow % 2) := by
        apply BitVec.eq_of_toNat_eq
        simp
      rw [hmod]
      rcases Nat.mod_two_eq_zero_or_one o.immediateLow with h | h <;> rw [h] <;> rfl
    · rw [if_neg hbool, hexValue, constantOf_hex (fun c hc => mem_hexDigits hc), ofHex_hexDigits]
      split
      · congr 2
        apply BitVec.eq_of_toNat_eq
        simp
      · rfl
  · have hwide : ¬ o.opcode = .constU64 := by simp [hop]
    rw [if_neg hwide, if_neg hwide]
    split
    · next hhigh =>
        rw [constantOf_hex (fun c hc => mem_hexDigits hc), ofHex_hexDigits, hhigh]
        simp
    rw [constantOf_hex, ofHex_pair _ hlow]
    intro c hc
    simp only [mem_append, mem_replicate] at hc
    rcases hc with (hc | ⟨-, rfl⟩) | hc
    · exact mem_hexDigits hc
    · decide
    · exact mem_hexDigits hc

/-- The opcodes of casts. -/
def castOpcodes : List Opcode := [.zext, .sext, .trunc, .intToAddr, .addrToInt]

/-- The word that a cast makes of a word.  An extension widens and a truncation
narrows; otherwise they are not defined. -/
def castWord (opcode : Opcode) (bits : Nat) (w : Word) : Option Word :=
  match opcode with
  | .zext => if w.width ≤ bits then some ⟨bits, w.bits.setWidth bits⟩ else none
  | .sext => if w.width ≤ bits then some ⟨bits, w.bits.signExtend bits⟩ else none
  | .trunc => if bits ≤ w.width then some ⟨bits, w.bits.setWidth bits⟩ else none
  | .intToAddr | .addrToInt => some ⟨bits, w.bits.setWidth bits⟩
  | _ => none

/-- What the printed text needs of `xair_opcode_name`: casts have different names,
each beginning with a letter or a digit, without the characters that separate
words and without the bracket that ends a name. -/
structure CastNames (name : Opcode → Text) : Prop where
  injective : ∀ a ∈ castOpcodes, ∀ b ∈ castOpcodes, name a = name b → a = b
  head : ∀ a ∈ castOpcodes, ∃ c rest, name a = c :: rest ∧ c.isAlphanum = true
  plain : ∀ a ∈ castOpcodes, ∀ c ∈ name a, isSpecial c = false ∧ c ≠ '<'

/-- The cast that a printed name stands for, with the width of its result. -/
def castOf (name : Opcode → Text) (t : Text) : Option (Opcode × Nat) :=
  (castOpcodes.find? (fun a => name a == t.takeWhile (· ≠ '<'))).map
    (fun a => (a, widthOf (t.dropWhile (· ≠ '<'))))

variable {opcode : Opcode}

theorem castOf_typedName {m : XairModule} (h : CastNames m.opcodeName)
    (hop : opcode ∈ castOpcodes) (type : XairType) :
    castOf m.opcodeName (typedName m opcode type) = some (opcode, type.bits) := by
  have hplain : ∀ c ∈ m.opcodeName opcode, decide (c ≠ '<') = true := by
    intro c hc
    simpa using (h.plain opcode hop c hc).2
  have htake : (typedName m opcode type).takeWhile (· ≠ '<') = m.opcodeName opcode := by
    rw [typedName, append_assoc, takeWhile_append_of_pos hplain]
    simp
  have hdrop : (typedName m opcode type).dropWhile (· ≠ '<') = '<' :: typeWidth type ++ ['>'] := by
    rw [typedName, append_assoc, dropWhile_append_of_pos hplain]
    simp
  have hwidth : widthOf ('<' :: typeWidth type ++ ['>']) = type.bits := by
    have hsame : ('<' :: typeWidth type ++ ['>']).filter Char.isDigit =
        (typeWidth type).filter Char.isDigit := by
      simp [filter_append, Char.isDigit]
    rw [widthOf, hsame]
    exact widthOf_typeWidth type
  have hfind : castOpcodes.find? (fun a => m.opcodeName a == m.opcodeName opcode) =
      some opcode := by
    have hsome : (castOpcodes.find? (fun a => m.opcodeName a == m.opcodeName opcode)).isSome :=
      find?_isSome.mpr ⟨opcode, hop, beq_self_eq_true _⟩
    obtain ⟨found, hfound⟩ := Option.isSome_iff_exists.mp hsome
    have hmem := mem_of_find?_eq_some hfound
    have hname : m.opcodeName found = m.opcodeName opcode := by
      simpa using find?_some hfound
    rw [hfound, h.injective found hmem opcode hop hname]
  rw [castOf, htake, hdrop, hwidth, hfind]
  rfl

/-- A word with a digit in it, beginning with a letter or a digit and without
separating characters, is a name. -/
theorem isName_of_digit {w : Text} {first : Char} {rest : Text} (hw : w = first :: rest)
    (hfirst : first.isAlphanum = true) (hplain : ∀ c ∈ w, isSpecial c = false)
    (hdigit : ∃ c ∈ w, c.isDigit = true) : IsName infixOps w := by
  have hhead : ∀ c, c.isAlphanum = false → w.head? ≠ some c := by
    intro c hc hsome
    rw [hw] at hsome
    cases hsome
    rw [hfirst] at hc
    cases hc
  have htoken : ∀ op : InfixOp, op.token ≠ w := by
    rintro op rfl
    obtain ⟨c, hc, hcd⟩ := hdigit
    have hnone : ∀ d ∈ op.token, d.isDigit = false := by
      cases op <;> decide
    rw [hnone c hc] at hcd
    cases hcd
  refine ⟨⟨by simp [hw], hplain, fun hb => absurd hb (hhead '!' (by decide))⟩, ?_, ?_, ?_,
    hhead '!' (by decide), hhead '=' (by decide)⟩
  · cases hfind : infixOps.find w with
    | none => rfl
    | some op => exact absurd (infixOps.token_of_find w op hfind) (htoken op)
  · rintro rfl
    exact hhead '?' (by decide) rfl
  · rintro rfl
    exact hhead ':' (by decide) rfl

theorem typeWidth_chars :
    (∃ c ∈ typeWidth type, c.isDigit = true) ∧ ∀ c ∈ typeWidth type, isSpecial c = false := by
  have hdigits : ∀ c ∈ decimal type.bits, isSpecial c = false := by
    intro c hc
    by_contra hs
    have hdigit := isDigit_of_mem_decimal hc
    simp only [Bool.not_eq_false, isSpecial, Bool.or_eq_true, beq_iff_eq] at hs
    rcases hs with ((rfl | rfl) | rfl) | rfl <;> revert hdigit <;> decide
  constructor
  · obtain ⟨c, rest, hcons⟩ := exists_cons_of_ne_nil (decimal_ne_nil type.bits)
    have hmem : c ∈ decimal type.bits := by simp [hcons]
    exact ⟨c, mem_append.mpr (Or.inr hmem), isDigit_of_mem_decimal hmem⟩
  intro c hc
  rcases mem_append.mp hc with hword | hdigit
  · have hletters : ∀ d ∈ "addrflagsmembits".toList, isSpecial d = false := by decide
    refine hletters c ?_
    revert hword
    cases type.kind <;> simp <;> grind
  · exact hdigits c hdigit

theorem isName_typedName {m : XairModule} (h : CastNames m.opcodeName)
    (hop : opcode ∈ castOpcodes) (type : XairType) : IsName infixOps (typedName m opcode type) := by
  obtain ⟨first, rest, hname, hfirst⟩ := h.head opcode hop
  obtain ⟨⟨d, hd, hdigit⟩, hplain⟩ := typeWidth_chars type
  refine isName_of_digit (by rw [typedName, hname]; rfl) hfirst ?_ ⟨d, ?_, hdigit⟩
  · intro c hc
    simp only [typedName, mem_append, mem_cons, not_mem_nil, or_false] at hc
    rcases hc with (hc | rfl | hc) | rfl
    · exact (h.plain opcode hop c hc).1
    · decide
    · exact hplain c hc
    · decide
  · simp [typedName, hd]

theorem isName_constantText (o : XairOp) (type : XairType) :
    IsName infixOps (constantText o type) := by
  have hhex : ∀ digits : Text, (∀ c ∈ digits, c ∈ "0123456789abcdef".toList) →
      IsName infixOps ("0x" ++ digits ++ ':' :: typeWidth type) := by
    intro digits hdigits
    have htext : "0x" ++ digits ++ ':' :: typeWidth type =
        '0' :: 'x' :: (digits ++ ':' :: typeWidth type) := rfl
    refine isName_of_digit htext (by decide) ?_ ⟨'0', ?_, by decide⟩
    · intro c hc
      simp only [mem_append, mem_cons] at hc
      rcases hc with (hc | hc) | rfl | hc
      · revert c
        decide
      · have hall : ∀ d ∈ "0123456789abcdef".toList, isSpecial d = false := by decide
        exact hall c (hdigits c hc)
      · decide
      · exact (typeWidth_chars type).2 c hc
    · exact mem_append_left _ (mem_append_left _ (by decide))
  unfold constantText
  split
  · split
    · split
      · exact isName_of_alphanum (by decide) (by decide)
      · exact isName_of_alphanum (by decide) (by decide)
    · exact hhex _ (fun c hc => mem_hexDigits hc)
  · apply hhex
    intro c hc
    split at hc
    · exact mem_hexDigits hc
    simp only [mem_append, mem_replicate] at hc
    rcases hc with (hc | ⟨-, rfl⟩) | hc
    · exact mem_hexDigits hc
    · decide
    · exact mem_hexDigits hc

/-- The infix operator of an opcode. -/
def Opcode.infixOp : Opcode → Option InfixOp
  | .add | .addrAdd => some .add
  | .sub | .addrSub => some .sub
  | .mul => some .mul
  | .udiv => some .udiv
  | .sdiv => some .sdiv
  | .urem => some .urem
  | .srem => some .srem
  | .and => some .and
  | .or => some .or
  | .xor => some .xor
  | .shl => some .shl
  | .lshr => some .lshr
  | .ashr => some .ashr
  | .eq => some .eq
  | .ne => some .ne
  | .ult => some .ult
  | .ule => some .ule
  | .slt => some .slt
  | .sle => some .sle
  | _ => none

/-- An assignment of words to the values of a module in which every constant,
infix operation, conditional and cast has the value that it computes, and every
zero or carry flag of a subtraction is the comparison that it stands for.  Other
operations, parameters and loaded values may have any word of their type. -/
structure Valuation (m : XairModule) (A : Arithmetic) (ρ : ValueId → Word) : Prop where
  width : ∀ v, (ρ v).width = (m.valueType v).bits
  constant : ∀ {v id o}, m.definingOp v = some (id, o) →
    o.opcode = .constU64 ∨ o.opcode = .constWide →
    o.immediateLow < 2 ^ 64 ∧ ρ v = constantWord o (m.valueType v)
  binary : ∀ {v id o op a b rest}, m.definingOp v = some (id, o) →
    o.opcode.infixOp = some op → o.inputs = a :: b :: rest → ρ v = A.binary op (ρ a) (ρ b)
  sameWidth : ∀ {v id o a b rest}, m.definingOp v = some (id, o) →
    o.opcode = .eq ∨ o.opcode = .ne ∨ o.opcode = .xor → o.inputs = a :: b :: rest →
    (ρ a).width = (ρ b).width
  select : ∀ {v id o c a b rest}, m.definingOp v = some (id, o) → o.opcode = .select →
    o.inputs = c :: a :: b :: rest → ρ v = if (ρ c).isTrue then ρ a else ρ b
  cast : ∀ {v id o a rest}, m.definingOp v = some (id, o) → o.opcode ∈ castOpcodes →
    o.inputs = a :: rest → castWord o.opcode (m.valueType v).bits (ρ a) = some (ρ v)
  zeroFlag : ∀ {v id o f rest id' o' a b rest'}, m.definingOp v = some (id, o) →
    o.opcode = .flagZf → o.inputs = f :: rest → m.definingOp f = some (id', o') →
    o'.opcode = .flagsSub → o'.inputs = a :: b :: rest' → ρ v = A.binary .eq (ρ a) (ρ b)
  carryFlag : ∀ {v id o f rest id' o' a b rest'}, m.definingOp v = some (id, o) →
    o.opcode = .flagCf → o.inputs = f :: rest → m.definingOp f = some (id', o') →
    o'.opcode = .flagsSub → o'.inputs = a :: b :: rest' → ρ v = A.binary .ult (ρ a) (ρ b)

end Airece
