import IndagoRev.Airece.ExpressionValue
import IndagoRev.Airece.FlowSymbolic

/-!
# What the expressions of the solver mean

An expression of the solver library stands for a word under every assignment of its
symbols.  The library is a parameter, so what it promises is a hypothesis: a function
that makes an expression gives the one that was asked for, and no call changes what an
expression means that is there already.

`Translator::value` is read against what the values of a module compute.
-/

namespace Airece

open StdText

/-- An assignment of the symbols, by width and name. -/
abbrev SymbolAssignment : Type := (bits : Nat) → Text → BitVec bits

/-- What the scalar operations compute.  The last argument of a unary operation is its
immediate: the bit offset of an EXTRACT. -/
structure OpcodeMeaning where
  unary : Opcode → Nat → Word → Nat → Word
  binary : Opcode → Nat → Word → Word → Word
  extract_eq : ∀ bits w offset, unary .extract bits w offset =
    ⟨bits, BitVec.ofNat bits (w.bits.toNat >>> offset)⟩
  concat_eq : ∀ high low, binary .concat (high.width + low.width) high low =
    ⟨high.width + low.width, high.bits ++ low.bits⟩

variable {σ : Type}

/-- The words that the expressions of a state of the library stand for. -/
abbrev Denotation (σ : Type) : Type := σ → ExprId → Option (SymbolAssignment → Word)

/-- Every expression of a state means the same in a later one. -/
def Extends (value : Denotation σ) (x x' : σ) : Prop :=
  ∀ id w, value x id = some w → value x' id = some w

variable {value : Denotation σ}

theorem Extends.refl {x : σ} : Extends value x x := fun _ _ h => h

theorem Extends.trans {x x' x'' : σ} (h : Extends value x x')
    (h' : Extends value x' x'') : Extends value x x'' := fun id w hw => h' id w (h id w hw)

/-- What the library promises: what it makes means what was asked for. -/
structure SymbolicEngine.Implements (e : SymbolicEngine σ) (M : OpcodeMeaning)
    (value : Denotation σ) : Prop where
  symbol_extends : ∀ bits name x, Extends value x (e.symbol bits name x).2
  constWide_extends : ∀ bits low high x, Extends value x (e.constWide bits low high x).2
  unary_extends : ∀ op bits a offset x, Extends value x (e.unary op bits a offset x).2
  binary_extends : ∀ op bits a b x, Extends value x (e.binary op bits a b x).2
  select_extends : ∀ a b c x, Extends value x (e.select a b c x).2
  symbol : ∀ {bits name x id x'}, e.symbol bits name x = (some id, x') →
    value x' id = some (fun A => ⟨bits, A bits name⟩)
  constWide : ∀ {bits low high x id x'}, e.constWide bits low high x = (some id, x') →
    value x' id = some (fun _ => ⟨bits, BitVec.ofNat bits (high * 2 ^ 64 + low)⟩)
  unary : ∀ {op bits a offset x id x' w}, e.unary op bits a offset x = ((.ok, id), x') →
    value x a = some w → value x' id = some (fun A => M.unary op bits (w A) offset)
  binary : ∀ {op bits a b x id x' w w'}, e.binary op bits a b x = ((.ok, id), x') →
    value x a = some w → value x b = some w' →
      value x' id = some (fun A => M.binary op bits (w A) (w' A))
  select : ∀ {a b c x id x' w w' w''}, e.select a b c x = (some id, x') →
    value x a = some w → value x b = some w' → value x c = some w'' →
      value x' id = some (fun A => if (w A).isTrue then w' A else w'' A)

variable (o : XairOp)

/-- The bit offset of an EXTRACT; no other operation has one. -/
def XairOp.bitOffset : Nat := if o.opcode = .extract then o.immediateLow else 0

/-- The word of a constant of up to 128 bits. -/
def wideConstant (bits : Nat) : Word :=
  ⟨bits, BitVec.ofNat bits (o.immediateHigh * 2 ^ 64 + o.immediateLow)⟩

def XairOp.isConstant : Prop := o.opcode = .constU64 ∨ o.opcode = .constWide

/-- An operation that the translation looks into. -/
def XairOp.isScalar : Prop :=
  o.inputs.length = 1 ∨ o.inputs.length = 2 ∨ (o.opcode = .select ∧ o.inputs.length = 3)

/-- The word of a leaf: that of the symbol `xair_v<id>`. -/
def leafWord (m : XairModule) (A : SymbolAssignment) (v : ValueId) : Word :=
  ⟨(m.valueType v).bits, A (m.valueType v).bits (fallbackSymbol v)⟩

/-- The word of a value, where `offset` says what each unary operation has for its
immediate. -/
inductive Evaluates (m : XairModule) (M : OpcodeMeaning) (offset : XairOp → Nat)
    (A : SymbolAssignment) : ValueId → Word → Prop
  | parameter {v} : m.valueDefinition v = none → Evaluates m M offset A v (leafWord m A v)
  | other {v id o} : m.valueDefinition v = some id → m.op id = some o → ¬ o.isConstant →
      ¬ o.isScalar → Evaluates m M offset A v (leafWord m A v)
  | constant {v id o} : m.valueDefinition v = some id → m.op id = some o → o.isConstant →
      Evaluates m M offset A v (wideConstant o (m.valueType v).bits)
  | unary {v id o a w} : m.valueDefinition v = some id → m.op id = some o → ¬ o.isConstant →
      o.inputs = [a] → Evaluates m M offset A a w →
      Evaluates m M offset A v (M.unary o.opcode (m.valueType v).bits w (offset o))
  | binary {v id o a b w w'} : m.valueDefinition v = some id → m.op id = some o →
      ¬ o.isConstant → o.inputs = [a, b] → Evaluates m M offset A a w →
      Evaluates m M offset A b w' →
      Evaluates m M offset A v (M.binary o.opcode (m.valueType v).bits w w')
  | select {v id o a b c w w' w''} : m.valueDefinition v = some id → m.op id = some o →
      ¬ o.isConstant → o.opcode = .select → o.inputs = [a, b, c] → Evaluates m M offset A a w →
      Evaluates m M offset A b w' → Evaluates m M offset A c w'' →
      Evaluates m M offset A v (if w.isTrue then w' else w'')

section Translation

variable (e : SymbolicEngine σ) {M : OpcodeMeaning} {value : Denotation σ} {m : XairModule}

/-- An expression stands for a value when no immediate is passed on. -/
def StandsFor (m : XairModule) (M : OpcodeMeaning) (value : Denotation σ) (x : σ) (id : ExprId)
    (v : ValueId) : Prop :=
  ∃ w, value x id = some w ∧ ∀ A, Evaluates m M (fun _ => 0) A v (w A)

theorem StandsFor.mono {x x' : σ} {id : ExprId} {v : ValueId}
    (h : StandsFor m M value x id v) (hx : Extends value x x') : StandsFor m M value x' id v := by
  obtain ⟨w, hw, heval⟩ := h
  exact ⟨w, hx id w hw, heval⟩

/-- Everything in the cache stands for its value. -/
def Translator.Sound (m : XairModule) (M : OpcodeMeaning) (value : Denotation σ)
    (t : Translator σ) : Prop :=
  ∀ v id, t.cache v = some id → StandsFor m M value t.engine id v

/-- What a translation leaves, whether it succeeds or not. -/
structure TranslationSound (m : XairModule) (M : OpcodeMeaning) (value : Denotation σ)
    (v : ValueId) (t : Translator σ) (r : Option ExprId × Translator σ) : Prop where
  keeps : Extends value t.engine r.2.engine
  sound : r.2.Sound m M value
  stands : ∀ id, r.1 = some id → StandsFor m M value r.2.engine id v

variable {e} {v : ValueId} {t : Translator σ} {r : Option ExprId × Translator σ}

theorem TranslationSound.fails {x : σ} {failure : Text} (hsound : t.Sound m M value)
    (hx : Extends value t.engine x) :
    TranslationSound m M value v t (none, { t with engine := x, failure := failure }) where
  keeps := hx
  sound := fun u id hu => (hsound u id hu).mono hx
  stands := nofun

theorem TranslationSound.keep {x : σ} {id : ExprId} (hsound : t.Sound m M value)
    (hx : Extends value t.engine x) (hstands : StandsFor m M value x id v) :
    TranslationSound m M value v t
      (some id, { t with engine := x, cache := Function.update t.cache v (some id) }) where
  keeps := hx
  sound := by
    intro u id' hu
    change Function.update t.cache v (some id) u = some id' at hu
    by_cases huv : u = v
    · subst huv
      rw [Function.update_self] at hu
      cases hu
      exact hstands
    · rw [Function.update_of_ne huv] at hu
      exact (hsound u id' hu).mono hx
  stands := fun _ h => by
    cases h
    exact hstands

variable {part : Option ExprId × Translator σ}

theorem TranslationSound.after {u : ValueId}
    (hpart : TranslationSound m M value u t part) (h : TranslationSound m M value v part.2 r) :
    TranslationSound m M value v t r where
  keeps := hpart.keeps.trans h.keeps
  sound := h.sound
  stands := h.stands

theorem TranslationSound.gives_up {u : ValueId} (hpart : TranslationSound m M value u t part) :
    TranslationSound m M value v t (none, part.2) where
  keeps := hpart.keeps
  sound := hpart.sound
  stands := nofun

theorem symbol_sound (hE : e.Implements M value) (hsound : t.Sound m M value)
    (hleaf : ∀ A, Evaluates m M (fun _ => 0) A v (leafWord m A v)) (failure : Text) :
    TranslationSound m M value v t
      (match e.symbol (m.valueType v).bits (fallbackSymbol v) t.engine with
        | (some id, x) =>
          (some id, { t with engine := x, cache := Function.update t.cache v (some id) })
        | (none, x) => (none, { t with engine := x, failure := failure })) := by
  have hkeeps := hE.symbol_extends (m.valueType v).bits (fallbackSymbol v) t.engine
  rcases hsym : e.symbol (m.valueType v).bits (fallbackSymbol v) t.engine with ⟨_ | id, x⟩ <;>
    rw [hsym] at hkeeps
  · exact .fails hsound hkeeps
  · exact .keep hsound hkeeps ⟨_, hE.symbol hsym, hleaf⟩

/-- `Translator::value` keeps the cache sound, and its answer stands for the value. -/
theorem translateFrom_sound (hE : e.Implements M value) (n : Nat) (active : List ValueId)
    (v : ValueId) (t : Translator σ) (hsound : t.Sound m M value) :
    TranslationSound m M value v t (translateFrom e m n active v t) := by
  induction n generalizing active v t with
  | zero => exact ⟨Extends.refl, hsound, nofun⟩
  | succ n ih =>
    unfold translateFrom
    cases hcache : t.cache v with
    | some id =>
      exact ⟨Extends.refl, hsound, fun _ h => by
        cases h
        exact hsound v _ hcache⟩
    | none =>
      by_cases hactive : active.contains v = true
      · simp only [hactive, if_true]
        exact ⟨Extends.refl, hsound, nofun⟩
      rw [if_neg hactive]
      by_cases hbits : (m.valueType v).bits = 0
      · rw [if_pos hbits]
        exact .fails hsound Extends.refl
      rw [if_neg hbits]
      cases hdef : m.valueDefinition v with
      | none =>
        exact symbol_sound hE hsound (fun _ => .parameter hdef) _
      | some definition =>
        dsimp only
        cases hop : m.op definition with
        | none => exact .fails hsound Extends.refl
        | some o =>
          dsimp only
          by_cases hconst : o.opcode = .constU64 ∨ o.opcode = .constWide
          · rw [if_pos hconst]
            have hkeeps := hE.constWide_extends (m.valueType v).bits o.immediateLow
              o.immediateHigh t.engine
            rcases hmade : e.constWide (m.valueType v).bits o.immediateLow
              o.immediateHigh t.engine with ⟨_ | id, x⟩ <;> rw [hmade] at hkeeps
            · exact .fails hsound hkeeps
            · exact .keep hsound hkeeps
                ⟨_, hE.constWide hmade, fun _ => .constant hdef hop hconst⟩
          · rw [if_neg hconst]
            match hinputs : o.inputs with
            | [a] =>
              dsimp only
              have ha := ih (v :: active) a t hsound
              rcases hpart : translateFrom e m n (v :: active) a t with
                ⟨_ | source, t'⟩ <;> rw [hpart] at ha
              · exact ha.gives_up
              refine ha.after ?_
              obtain ⟨w, hw, heval⟩ := ha.stands source rfl
              have hkeeps := hE.unary_extends o.opcode (m.valueType v).bits source 0
                t'.engine
              rcases hmade : e.unary o.opcode (m.valueType v).bits source 0
                t'.engine with ⟨⟨_ | _ | _ | _, id⟩, x⟩ <;>
                rw [hmade] at hkeeps <;> simp only [hmade]
              · exact .keep ha.sound hkeeps ⟨_, hE.unary hmade hw,
                  fun A => .unary hdef hop hconst hinputs (heval A)⟩
              all_goals exact .fails ha.sound hkeeps
            | [a, b] =>
              dsimp only
              have ha := ih (v :: active) a t hsound
              rcases hleft : translateFrom e m n (v :: active) a t with ⟨left, t₁⟩
              rw [hleft] at ha
              have hb := ih (v :: active) b t₁ ha.sound
              rcases hright : translateFrom e m n (v :: active) b t₁ with ⟨right, t₂⟩
              rw [hright] at hb
              refine ha.after ?_
              cases left with
              | none => exact hb.gives_up
              | some left =>
                cases right with
                | none => exact hb.gives_up
                | some right =>
                  refine hb.after ?_
                  obtain ⟨w, hw, heval⟩ := ha.stands left rfl
                  obtain ⟨w', hw', heval'⟩ := hb.stands right rfl
                  have hkeeps := hE.binary_extends o.opcode
                    (m.valueType v).bits left right t₂.engine
                  rcases hmade : e.binary o.opcode (m.valueType v).bits left
                    right t₂.engine with ⟨⟨_ | _ | _ | _, id⟩, x⟩ <;>
                    rw [hmade] at hkeeps <;> simp only [hmade]
                  · exact .keep hb.sound hkeeps
                      ⟨_, hE.binary hmade (hb.keeps _ _ hw) hw', fun A =>
                        .binary hdef hop hconst hinputs (heval A) (heval' A)⟩
                  all_goals exact .fails hb.sound hkeeps
            | [] =>
              have hleaf : ¬ o.isScalar := by simp [XairOp.isScalar, hinputs]
              by_cases hselect : o.opcode = .select <;>
                simp only [hselect, if_true, if_false] <;>
                exact symbol_sound hE hsound (fun _ => .other hdef hop hconst hleaf) _
            | [a, b, c] =>
              by_cases hselect : o.opcode = .select
              · simp only [hselect, if_true]
                have ha := ih (v :: active) a t hsound
                rcases hfirst : translateFrom e m n (v :: active) a t with
                  ⟨condition, t₁⟩
                rw [hfirst] at ha
                have hb := ih (v :: active) b t₁ ha.sound
                rcases hsecond : translateFrom e m n (v :: active) b t₁ with
                  ⟨yes, t₂⟩
                rw [hsecond] at hb
                have hc := ih (v :: active) c t₂ hb.sound
                rcases hthird : translateFrom e m n (v :: active) c t₂ with ⟨no, t₃⟩
                rw [hthird] at hc
                refine ha.after (hb.after ?_)
                match condition, yes, no with
                | none, _, _ | some _, none, _ | some _, some _, none =>
                  exact hc.gives_up
                | some condition, some yes, some no =>
                  refine hc.after ?_
                  obtain ⟨w, hw, heval⟩ := ha.stands condition rfl
                  obtain ⟨w', hw', heval'⟩ := hb.stands yes rfl
                  obtain ⟨w'', hw'', heval''⟩ := hc.stands no rfl
                  have hkeeps := hE.select_extends condition yes no t₃.engine
                  rcases hmade : e.select condition yes no t₃.engine with
                    ⟨_ | id, x⟩ <;> rw [hmade] at hkeeps <;> simp only [hmade]
                  · exact .fails hc.sound hkeeps
                  · exact .keep hc.sound hkeeps
                      ⟨_, hE.select hmade (hc.keeps _ _ (hb.keeps _ _ hw))
                        (hc.keeps _ _ hw') hw'', fun A =>
                          .select hdef hop hconst hselect hinputs (heval A)
                            (heval' A) (heval'' A)⟩
              · have hleaf : ¬ o.isScalar := by simp [XairOp.isScalar, hinputs, hselect]
                simp only [hselect, if_false]
                exact symbol_sound hE hsound (fun _ => .other hdef hop hconst hleaf) _
            | a :: b :: c :: d :: rest =>
              have hleaf : ¬ o.isScalar := by simp [XairOp.isScalar, hinputs]
              by_cases hselect : o.opcode = .select <;>
                simp only [hselect, if_true, if_false] <;>
                exact symbol_sound hE hsound (fun _ => .other hdef hop hconst hleaf) _

end Translation

/-- The values that the translation of a value looks at. -/
inductive Translates (m : XairModule) (v : ValueId) : ValueId → Prop
  | root : Translates m v v
  | input {u id o a} : Translates m v u → m.valueDefinition u = some id → m.op id = some o →
      ¬ o.isConstant → o.isScalar → a ∈ o.inputs → Translates m v a

/-- No EXTRACT among the values that are looked at begins above the lowest bit. -/
def ExtractsLowBits (m : XairModule) (v : ValueId) : Prop :=
  ∀ u, Translates m v u → ∀ id o, m.valueDefinition u = some id → m.op id = some o →
    o.inputs.length = 1 → o.bitOffset = 0

section Offsets

variable {m : XairModule} {M : OpcodeMeaning} {A : SymbolAssignment} {v u : ValueId} {w : Word}

/-- Where no offset is dropped, the words are those of the module. -/
theorem Evaluates.with_offsets (h : Evaluates m M (fun _ => 0) A u w) (hu : Translates m v u)
    (hlow : ExtractsLowBits m v) : Evaluates m M XairOp.bitOffset A u w := by
  induction h with
  | parameter hdef => exact .parameter hdef
  | other hdef hop hconst hscalar => exact .other hdef hop hconst hscalar
  | constant hdef hop hconst => exact .constant hdef hop hconst
  | @unary u id o a w hdef hop hconst hinputs _ ih =>
    have hone : o.inputs.length = 1 := by rw [hinputs]; rfl
    have hin := ih (hu.input hdef hop hconst (.inl hone) (by simp [hinputs]))
    have hzero := hlow u hu id o hdef hop hone
    have hout : Evaluates m M XairOp.bitOffset A u
        (M.unary o.opcode (m.valueType u).bits w o.bitOffset) :=
      .unary hdef hop hconst hinputs hin
    rw [hzero] at hout
    exact hout
  | @binary u id o a b w w' hdef hop hconst hinputs _ _ ih ih' =>
    have hscalar : o.isScalar := .inr (.inl (by rw [hinputs]; rfl))
    exact .binary hdef hop hconst hinputs
      (ih (hu.input hdef hop hconst hscalar (by simp [hinputs])))
      (ih' (hu.input hdef hop hconst hscalar (by simp [hinputs])))
  | @select u id o a b c w w' w'' hdef hop hconst hselect hinputs _ _ _ ih ih' ih'' =>
    have hscalar : o.isScalar := .inr (.inr ⟨hselect, by rw [hinputs]; rfl⟩)
    exact .select hdef hop hconst hselect hinputs
      (ih (hu.input hdef hop hconst hscalar (by simp [hinputs])))
      (ih' (hu.input hdef hop hconst hscalar (by simp [hinputs])))
      (ih'' (hu.input hdef hop hconst hscalar (by simp [hinputs])))

variable {offset : XairOp → Nat}

theorem Evaluates.of_parameter (h : Evaluates m M offset A v w)
    (hdef : m.valueDefinition v = none) : w = leafWord m A v := by
  cases h with
  | parameter => rfl
  | other hdef' | constant hdef' | unary hdef' | binary hdef' | select hdef' =>
    exact absurd (hdef.symm.trans hdef') (Option.some_ne_none _).symm

theorem Evaluates.of_unary {id : OpId} {o : XairOp} {a : ValueId}
    (h : Evaluates m M offset A v w) (hdef : m.valueDefinition v = some id)
    (hop : m.op id = some o) (hconst : ¬ o.isConstant) (hinputs : o.inputs = [a]) :
    ∃ x, Evaluates m M offset A a x ∧ w = M.unary o.opcode (m.valueType v).bits x (offset o) := by
  cases h with
  | parameter hdef' =>
    rw [hdef] at hdef'
    cases hdef'
  | other hdef' hop' _ hscalar =>
    rw [hdef] at hdef'
    cases hdef'
    rw [hop] at hop'
    cases hop'
    exact absurd (.inl (by rw [hinputs]; rfl)) hscalar
  | constant hdef' hop' hconst' =>
    rw [hdef] at hdef'
    cases hdef'
    rw [hop] at hop'
    cases hop'
    exact absurd hconst' hconst
  | unary hdef' hop' _ hinputs' hin =>
    rw [hdef] at hdef'
    cases hdef'
    rw [hop] at hop'
    cases hop'
    rw [hinputs] at hinputs'
    cases hinputs'
    exact ⟨_, hin, rfl⟩
  | binary hdef' hop' _ hinputs' | select hdef' hop' _ _ hinputs' =>
    rw [hdef] at hdef'
    cases hdef'
    rw [hop] at hop'
    cases hop'
    rw [hinputs] at hinputs'
    cases hinputs'

end Offsets

/-- The meaning of an expression is that of a value, under every assignment. -/
def Preserves (m : XairModule) (M : OpcodeMeaning) (value : Denotation σ) (v : ValueId)
    (r : Option ExprId × Translator σ) : Prop :=
  ∀ id, r.1 = some id → ∃ w, value r.2.engine id = some w ∧
    ∀ A, Evaluates m M XairOp.bitOffset A v (w A)

/-- A translation without overrides preserves the meaning of a value that is computed
without an EXTRACT above the lowest bit. -/
theorem translate_preserves {e : SymbolicEngine σ} {M : OpcodeMeaning} {value : Denotation σ}
    {m : XairModule} {v : ValueId} (x : σ) (hE : e.Implements M value)
    (hlow : ExtractsLowBits m v) :
    Preserves m M value v (translate e m v { cache := fun _ => none, engine := x }) := by
  have hsound := translateFrom_sound (m := m) hE (m.valueCount + 1) [] v
    { cache := fun _ => none, engine := x } nofun
  intro id hid
  obtain ⟨w, hw, heval⟩ := hsound.stands id hid
  exact ⟨w, hw, fun A => (heval A).with_offsets .root hlow⟩

/-- The scalar operations on words that wrap around. -/
def plainMeaning : OpcodeMeaning where
  unary op bits w offset :=
    if op = .extract then ⟨bits, BitVec.ofNat bits (w.bits.toNat >>> offset)⟩
    else ⟨bits, w.bits.setWidth bits⟩
  binary op bits a b :=
    if op = .concat then ⟨a.width + b.width, a.bits ++ b.bits⟩
    else ⟨bits, a.bits.setWidth bits + b.bits.setWidth bits⟩
  extract_eq _ _ _ := if_pos rfl
  concat_eq _ _ := if_pos rfl

/-- Expressions are their meanings, numbered in the order in which they are made. -/
abbrev Meanings : Type := List (SymbolAssignment → Word)

variable (x : Meanings) (w : SymbolAssignment → Word)

/-- A new expression. -/
def Meanings.make : Option ExprId × Meanings :=
  (some x.length, x ++ [w])

/-- A new expression, when its parts are there. -/
def Meanings.build (w : Option (SymbolAssignment → Word)) : (SymStatus × ExprId) × Meanings :=
  match w with
  | some w => ((.ok, x.length), x ++ [w])
  | none => ((.unsupported, 0), x)

/-- Every symbol is zero. -/
def zeroAssignment : SymbolAssignment := fun bits _ => BitVec.zero bits

/-- The meaning of a binary operation.  A concatenation has the width of its parts. -/
def plainBinary (op : Opcode) (bits : Nat) (w w' : SymbolAssignment → Word) :
    Option (SymbolAssignment → Word) :=
  if op = .concat ∧ (w zeroAssignment).width + (w' zeroAssignment).width ≠ bits then none
  else some (fun A => plainMeaning.binary op bits (w A) (w' A))

/-- An engine that makes every expression whose parts there are. -/
def plainEngine : SymbolicEngine Meanings where
  context x := (none, x)
  setOptions _ x := x
  symbol bits name x := x.make (fun A => ⟨bits, A bits name⟩)
  constWide bits low high x := x.make (fun _ => ⟨bits, BitVec.ofNat bits (high * 2 ^ 64 + low)⟩)
  unary op bits a offset x :=
    x.build ((x[a]?).map (fun w A => plainMeaning.unary op bits (w A) offset))
  binary op bits a b x :=
    x.build ((x[a]?).bind (fun w => (x[b]?).bind (plainBinary op bits w)))
  select a b c x :=
    match x[a]?, x[b]?, x[c]? with
    | some w, some w', some w'' => x.make (fun A => if (w A).isTrue then w' A else w'' A)
    | _, _, _ => (none, x)
  stateCreate _ x := (true, x)
  assume _ x := (true, x)
  check x := ((.ok, .unknown), x)
  modelWord _ x := (none, x)
  modelBytes _ x := (none, x)
  stateDestroy x := x
  solverInitialized _ := true
  statusName _ := []

/-- The meaning of an expression of the plain engine. -/
def plainValue : Denotation Meanings := fun x id => x[id]?

theorem plainValue_extends : Extends plainValue x (x ++ [w]) := by
  intro id w' hw
  change (x ++ [w])[id]? = some w'
  rw [List.getElem?_append_left (List.getElem?_eq_some_iff.mp hw).1]
  exact hw

theorem plainValue_new : plainValue (x ++ [w]) x.length = some w := by
  simp [plainValue]

theorem build_extends (w : Option (SymbolAssignment → Word)) :
    Extends plainValue x (x.build w).2 := by
  cases w with
  | none => exact Extends.refl
  | some w => exact plainValue_extends x w

theorem plainEngine_implements : plainEngine.Implements plainMeaning plainValue where
  symbol_extends _ _ x := plainValue_extends x _
  constWide_extends _ _ _ x := plainValue_extends x _
  unary_extends _ _ _ _ x := build_extends x _
  binary_extends _ _ _ _ x := build_extends x _
  select_extends a b c x := by
    unfold plainEngine
    dsimp only
    split
    · exact plainValue_extends x _
    · exact Extends.refl
  symbol h := by
    cases h
    exact plainValue_new _ _
  constWide h := by
    cases h
    exact plainValue_new _ _
  unary {op bits a offset x id x' w} h hw := by
    have ha : x[a]? = some w := hw
    simp only [plainEngine, ha, Option.map_some, Meanings.build] at h
    cases h
    exact plainValue_new _ _
  binary {op bits a b x id x' w w'} h hw hw' := by
    have ha : x[a]? = some w := hw
    have hb : x[b]? = some w' := hw'
    simp only [plainEngine, ha, hb, Option.bind_some, plainBinary] at h
    split at h
    · cases h
    · cases h
      exact plainValue_new _ _
  select {a b c x id x' w w' w''} h hw hw' hw'' := by
    have ha : x[a]? = some w := hw
    have hb : x[b]? = some w' := hw'
    have hc : x[c]? = some w'' := hw''
    simp only [plainEngine, ha, hb, hc] at h
    cases h
    exact plainValue_new _ _

/-- A module that takes one byte of a word of two, from a bit offset on. -/
def byteModule (offset : Nat) : XairModule where
  values := [{ type := { bits := 16 } }, { type := { bits := 8 }, definition := some 0 }]
  ops := [{ opcode := .extract, inputs := [0], results := [1], immediateLow := offset }]
  blocks := []
  opcodeName := fun _ => []

theorem byteModule_lowBits : ExtractsLowBits (byteModule 0) 1 := by
  intro u _ id o _ hop _
  match id with
  | 0 =>
    cases hop
    rfl
  | id + 1 => cases hop

/-- The low byte of a word is translated. -/
theorem low_byte_preserved :
    (translate plainEngine (byteModule 0) 1 { cache := fun _ => none, engine := [] }).1 = some 1 ∧
      Preserves (byteModule 0) plainMeaning plainValue 1
        (translate plainEngine (byteModule 0) 1 { cache := fun _ => none, engine := [] }) :=
  ⟨rfl, translate_preserves [] plainEngine_implements byteModule_lowBits⟩

/-- The high byte of a word is translated as its low byte. -/
theorem high_byte_lost :
    ¬ ∀ (σ : Type) (e : SymbolicEngine σ) (M : OpcodeMeaning) (value : Denotation σ)
      (m : XairModule) (v : ValueId) (x : σ), e.Implements M value →
        Preserves m M value v (translate e m v { cache := fun _ => none, engine := x }) := by
  intro h
  obtain ⟨w, hw, heval⟩ :=
    h Meanings plainEngine plainMeaning plainValue (byteModule 8) 1 [] plainEngine_implements 1 rfl
  have hmeaning : w = fun A => plainMeaning.unary .extract 8 ⟨16, A 16 (fallbackSymbol 0)⟩ 0 :=
    (Option.some.inj hw).symm
  subst hmeaning
  have hsource := heval (fun bits _ => BitVec.ofNat bits 256)
  obtain ⟨x, hx, hword⟩ := hsource.of_unary (rfl : _ = some 0) rfl (by simp [XairOp.isConstant]) rfl
  rw [hx.of_parameter rfl] at hword
  exact absurd hword (by decide)

end Airece
