import IndagoRev.Wrapping
import IndagoRev.Airece.ConcreteValues
import IndagoRev.Airece.StackAgreement

/-!
# Identity of stack addresses

`affine_stack` goes through casts without looking at widths.  Two addresses with the
same base and the same offset are the same address if they have the same width and were
extended last from the same word; where no cast on their ways widens, nothing was
extended at all.
-/

namespace Airece

open StdText Wrapping List

variable {m : XairModule}

/-- One step on the way from a base to an address. -/
inductive WayStep where
  | cast (signed : Bool) (bits : Nat)
  | move (amount : Int) (constant : ValueId)

/-- Whether a cast extends the sign. -/
def castSigned (m : XairModule) (v : ValueId) : Bool :=
  match m.definingOp v with
  | some (_, o) => o.opcode == .sext
  | none => false

/-- The ways that `affine_stack_impl` can take from an address to a base, last step first. -/
inductive Way (m : XairModule) (root : ValueId) : ValueId → List WayStep → Prop
  | register (h : stackNode isLowerStackName m root = .register) : Way m root root []
  | cast {v a : ValueId} {steps : List WayStep}
      (h : stackNode isLowerStackName m v = .cast a true) (hway : Way m root a steps) :
      Way m root v (.cast (castSigned m v) (m.valueType v).bits :: steps)
  | first {v a b : ValueId} {subtract : Bool} {c : Int} {steps : List WayStep}
      (h : stackNode isLowerStackName m v = .move subtract a b)
      (hc : constantSigned m b = some c) (hway : Way m root a steps) :
      Way m root v (.move (if subtract then -c else c) b :: steps)
  | second {v a b : ValueId} {c : Int} {steps : List WayStep}
      (h : stackNode isLowerStackName m v = .move false a b)
      (hc : constantSigned m a = some c) (hway : Way m root b steps) :
      Way m root v (.move c a :: steps)

/-- What one step does to a form. -/
def WayStep.apply : WayStep → Form → Form
  | cast signed bits, f => f.cast signed bits
  | move amount _, f => f.move amount

/-- What a base of some width becomes on a way. -/
def wayForm (bits : Nat) : List WayStep → Form
  | [] => .base bits 0
  | step :: steps => step.apply (wayForm bits steps)

variable {steps : List WayStep}

theorem Way.of_register {root v : ValueId} (hway : Way m root v steps)
    (hv : stackNode isLowerStackName m v = .register) : steps = [] := by
  cases hway with
  | register _ => rfl
  | cast h _ => rw [h] at hv; cases hv
  | first h _ _ => rw [h] at hv; cases hv
  | second h _ _ => rw [h] at hv; cases hv

variable {subtract : Bool}

theorem Way.of_move {root v a b : ValueId}
    (hway : Way m root v steps) (hv : stackNode isLowerStackName m v = .move subtract a b)
    (ha : constantSigned m a = none) : ∃ c rest, constantSigned m b = some c ∧ Way m root a rest ∧
      steps = .move (if subtract then -c else c) b :: rest := by
  cases hway with
  | register h => rw [h] at hv; cases hv
  | cast h _ => rw [h] at hv; cases hv
  | first h hc hrest =>
    rw [h] at hv
    injection hv with hsub hfirst hsecond
    subst hsub hfirst hsecond
    exact ⟨_, _, hc, hrest, rfl⟩
  | second h hc hrest =>
    rw [h] at hv
    injection hv with hsub hfirst hsecond
    subst hfirst
    rw [ha] at hc
    cases hc

/-- An answer has a way, and the offset is everything that is added there. -/
theorem affineStackFrom_way {n : Nat} {active : List ValueId} {v root : ValueId} {offset : Int}
    (h : affineStackFrom m n active v = some (root, offset)) (bits : Nat) :
    ∃ steps, Way m root v steps ∧ (wayForm bits steps).total = offset := by
  induction n generalizing active v offset with
  | zero => cases h
  | succ n ih =>
    unfold affineStackFrom at h
    split at h
    · cases h
    cases hnode : stackNode isLowerStackName m v with
    | register =>
      simp only [hnode, Option.some.injEq, Prod.mk.injEq] at h
      obtain ⟨rfl, rfl⟩ := h
      exact ⟨[], .register hnode, rfl⟩
    | cast a single =>
      simp only [hnode] at h
      cases single with
      | false => cases h
      | true =>
        obtain ⟨steps, hway, htotal⟩ := ih h
        exact ⟨_, .cast hnode hway, (Form.total_cast _ _ _).trans htotal⟩
    | move subtract a b =>
      simp only [hnode] at h
      split at h
      · next result hright =>
          injection h with h
          subst h
          obtain ⟨amount, before, hamount, hbefore, _, rfl⟩ := affineMove_some hright
          obtain ⟨steps, hway, htotal⟩ := ih hbefore
          refine ⟨_, .first hnode hamount hway, ?_⟩
          have hmoved := Form.total_move (if subtract then -amount else amount)
            (wayForm bits steps)
          rw [htotal] at hmoved
          refine hmoved.trans ?_
          cases subtract with
          | true => exact Int.sub_eq_add_neg.symm
          | false => rfl
      · cases subtract with
        | true => cases h
        | false =>
          obtain ⟨amount, before, hamount, hbefore, _, rfl⟩ := affineMove_some h
          obtain ⟨steps, hway, htotal⟩ := ih hbefore
          refine ⟨_, .second hnode hamount hway, ?_⟩
          exact (Form.total_move amount (wayForm bits steps)).trans (by rw [htotal]; rfl)
    | other => simp [hnode] at h

/-- Sums and differences wrap around. -/
structure Modular (A : Arithmetic) : Prop where
  add : ∀ {n : Nat} (x y : BitVec n), A.apply .add ⟨n, x⟩ ⟨n, y⟩ = ⟨n, x + y⟩
  sub : ∀ {n : Nat} (x y : BitVec n), A.apply .sub ⟨n, x⟩ ⟨n, y⟩ = ⟨n, x - y⟩

/-- The operands of sums and differences have one width. -/
def SumsTyped (m : XairModule) : Prop :=
  ∀ {v id o a b rest}, m.definingOp v = some (id, o) →
    isAddition o.opcode || isSubtraction o.opcode → o.inputs = a :: b :: rest →
    (m.valueType a).bits = (m.valueType b).bits

/-- The number of a value and its form. -/
def ShowsForm (ρ : ValueId → Word) (root v : ValueId) (f : Form) : Prop :=
  f.Describes (ρ root).bits.toNat (ρ v).bits

theorem definingOp_of_cast {v a : ValueId} {single : Bool}
    (h : stackNode isLowerStackName m v = .cast a single) :
    ∃ id o rest, m.definingOp v = some (id, o) ∧ keepsOffset o.opcode = true ∧
      o.inputs = a :: rest := by
  unfold stackNode at h
  split at h
  · cases h
  split at h
  · cases h
  rename_i id o hdef
  split at h
  · rename_i hkeeps
    split at h
    · rename_i a' rest hin
      injection h with ha _
      exact ⟨id, o, rest, hdef, hkeeps, ha ▸ hin⟩
    · cases h
  · split at h
    · split at h <;> cases h
    · cases h

theorem definingOp_of_move {v a b : ValueId}
    (h : stackNode isLowerStackName m v = .move subtract a b) :
    ∃ id o rest, m.definingOp v = some (id, o) ∧
      (isAddition o.opcode || isSubtraction o.opcode) = true ∧
      isSubtraction o.opcode = subtract ∧ o.inputs = a :: b :: rest := by
  unfold stackNode at h
  split at h
  · cases h
  split at h
  · cases h
  rename_i id o hdef
  split at h
  · split at h <;> cases h
  split at h
  · rename_i hmoves
    split at h
    · rename_i a' b' rest hin
      injection h with hsub ha hb
      exact ⟨id, o, rest, hdef, hmoves, hsub, by rw [← ha, ← hb]; exact hin⟩
    · cases h
  · cases h

variable {w w' : Word} {f : Form}

/-- A cast makes of a described word what it makes of its form. -/
theorem describes_castWord {opcode : Opcode} {bits : Nat} {x : Int}
    (hkeeps : keepsOffset opcode = true) (h : f.Describes x w.bits)
    (hcast : castWord opcode bits w = some w') :
    (f.cast (opcode == .sext) bits).Describes x w'.bits := by
  simp only [keepsOffset, Bool.or_eq_true, beq_iff_eq] at hkeeps
  obtain (((rfl | rfl) | rfl) | rfl) | rfl := hkeeps
  · simp only [castWord, Option.some.injEq] at hcast
    subst hcast
    exact h.setWidth bits
  · simp only [castWord, Option.some.injEq] at hcast
    subst hcast
    exact h.setWidth bits
  · simp only [castWord, Option.ite_none_right_eq_some, Option.some.injEq] at hcast
    obtain ⟨_, rfl⟩ := hcast
    exact h.setWidth bits
  · simp only [castWord, Option.ite_none_right_eq_some, Option.some.injEq] at hcast
    obtain ⟨hle, rfl⟩ := hcast
    exact h.signExtend hle
  · simp only [castWord, Option.ite_none_right_eq_some, Option.some.injEq] at hcast
    obtain ⟨_, rfl⟩ := hcast
    exact h.setWidth bits

variable {A : Arithmetic}

theorem Modular.describes_add (hA : Modular A) {x c : Int}
    (hwidth : w.width = w'.width) (h : f.Describes x w.bits)
    (hc : (w'.bits.toNat : Int) % 2 ^ w'.width = c % 2 ^ w'.width) :
    (f.move c).Describes x (A.binary .add w w').bits ∧
      (f.move c).Describes x (A.binary .add w' w).bits := by
  obtain ⟨n, b⟩ := w
  obtain ⟨k, b'⟩ := w'
  dsimp only at hwidth h hc
  subst hwidth
  have hsum := h.add hc
  constructor
  · have happly : A.binary .add ⟨n, b⟩ ⟨n, b'⟩ = ⟨n, b + b'⟩ := hA.add b b'
    rw [happly]
    exact hsum
  · have happly : A.binary .add ⟨n, b'⟩ ⟨n, b⟩ = ⟨n, b' + b⟩ := hA.add b' b
    rw [happly, BitVec.add_comm]
    exact hsum

theorem Modular.describes_sub (hA : Modular A) {x c : Int}
    (hwidth : w.width = w'.width) (h : f.Describes x w.bits)
    (hc : (w'.bits.toNat : Int) % 2 ^ w'.width = c % 2 ^ w'.width) :
    (f.move (-c)).Describes x (A.binary .sub w w').bits := by
  obtain ⟨n, b⟩ := w
  obtain ⟨k, b'⟩ := w'
  dsimp only at hwidth h hc
  subst hwidth
  have happly : A.binary .sub ⟨n, b⟩ ⟨n, b'⟩ = ⟨n, b - b'⟩ := hA.sub b b'
  rw [happly]
  exact h.sub hc

/-- The sign of a narrow constant changes only what lies above its width. -/
theorem signedBits_emod {bits : Nat} (hbits : bits ≤ 64) (x : BitVec 64) :
    (signedBits bits x).toInt % 2 ^ bits = (x.toNat : Int) % 2 ^ bits := by
  have htoInt : ∀ y : BitVec 64, y.toInt % 2 ^ bits = (y.toNat : Int) % 2 ^ bits := by
    intro y
    have hlow := Form.extended_emod hbits true y.toNat
    rw [Form.extended, if_pos rfl] at hlow
    rw [BitVec.toInt_eq_toNat_bmod, hlow]
  rw [htoInt]
  unfold signedBits
  split
  · rename_i hnarrow
    have hone : (1#64 <<< bits).toNat = 2 ^ bits := by
      rw [BitVec.toNat_shiftLeft, Nat.shiftLeft_eq]
      have hlt : 2 ^ bits < 2 ^ 64 := Nat.pow_lt_pow_right (by omega) hnarrow.2
      rw [BitVec.toNat_ofNat, Nat.mod_eq_of_lt (show 1 < 2 ^ 64 by decide), Nat.one_mul,
        Nat.mod_eq_of_lt hlt]
    have hpos : 0 < 2 ^ bits := Nat.two_pow_pos bits
    have hlt : 2 ^ bits < 2 ^ 64 := Nat.pow_lt_pow_right (by omega) hnarrow.2
    have hmask : (1#64 <<< bits - 1#64).toNat = 2 ^ bits - 1 := by
      rw [BitVec.toNat_sub, hone]
      simp only [BitVec.toNat_ofNat]
      omega
    have hlow : (x &&& (1#64 <<< bits - 1#64)).toNat = x.toNat % 2 ^ bits := by
      rw [BitVec.toNat_and, hmask, Nat.and_two_pow_sub_one_eq_mod]
    have hnat : ∀ y : BitVec 64, y.toNat % 2 ^ bits = x.toNat % 2 ^ bits →
        (y.toNat : Int) % 2 ^ bits = (x.toNat : Int) % 2 ^ bits := by
      intro y hy
      exact_mod_cast hy
    dsimp only
    split
    · refine hnat _ ?_
      have hcomplement : (~~~(1#64 <<< bits - 1#64)).toNat % 2 ^ bits = 0 := by
        rw [BitVec.toNat_not, hmask]
        have hdvd : (2 : Nat) ^ bits ∣ 2 ^ 64 := pow_dvd_pow 2 hbits
        obtain ⟨k, hk⟩ := hdvd
        have hrest : 2 ^ 64 - 1 - (2 ^ bits - 1) = 2 ^ bits * (k - 1) := by
          rw [Nat.mul_sub, ← hk]
          omega
        rw [hrest, Nat.mul_mod_right]
      rw [BitVec.toNat_or, Nat.or_mod_two_pow, hlow, hcomplement, Nat.or_zero, Nat.mod_mod]
    · refine hnat _ ?_
      rw [hlow, Nat.mod_mod]
  · rfl

/-- A constant that is not both wide and negative is read as the number it stands for. -/
def ReadAsIs (m : XairModule) (b : ValueId) : Prop :=
  (m.valueType b).bits ≤ 64 ∨ ∀ c, constantSigned m b = some c → 0 ≤ c

variable {ρ : ValueId → Word}

/-- The word of a constant is the number of its operation, cut to its width. -/
theorem word_of_constant (hρ : Valuation m A ρ)
    {b : ValueId} {id : OpId} {o : XairOp} (hdef : m.definingOp b = some (id, o))
    (hop : o.opcode = .constU64) : (BitVec.ofNat 64 o.immediateLow).toNat = o.immediateLow ∧
      ∀ c : Int, (o.immediateLow : Int) % 2 ^ (m.valueType b).bits = c % 2 ^ (m.valueType b).bits →
        ((ρ b).bits.toNat : Int) % 2 ^ (ρ b).width = c % 2 ^ (ρ b).width := by
  obtain ⟨hlow, hword⟩ := hρ.constant hdef (.inl hop)
  refine ⟨by rw [BitVec.toNat_ofNat, Nat.mod_eq_of_lt hlow], fun c hc => ?_⟩
  have hbits : ((constantWord o (m.valueType b)).bits.toNat : Int) %
      2 ^ (m.valueType b).bits = (o.immediateLow : Int) % 2 ^ (m.valueType b).bits := by
    simp only [constantWord, hop, if_true, BitVec.toNat_ofNat]
    push_cast
    exact Int.emod_emod_of_dvd _ (dvd_refl _)
  rw [hword]
  exact hbits.trans hc

/-- A number whose bits read as no negative number is read as itself. -/
theorem toInt_of_nonneg {n : Nat} (hn : (BitVec.ofNat 64 n).toNat = n)
    (h : 0 ≤ (BitVec.ofNat 64 n).toInt) : (BitVec.ofNat 64 n).toInt = n := by
  rw [BitVec.toInt_eq_toNat_cond, hn] at h ⊢
  split at h
  · rename_i hhalf
    rw [if_pos hhalf]
  · omega

theorem constantSigned_emod (hρ : Valuation m A ρ)
    {b : ValueId} {c : Int} (hc : constantSigned m b = some c) (hread : ReadAsIs m b) :
    ((ρ b).bits.toNat : Int) % 2 ^ (ρ b).width = c % 2 ^ (ρ b).width := by
  have hsmall : (m.valueType b).bits ≤ 64 ∨ 0 ≤ c := hread.imp_right (fun h => h c hc)
  unfold constantSigned at hc
  split at hc
  · rename_i id o hdef
    split at hc
    · rename_i hop
      injection hc with hc
      obtain ⟨hnat, hword⟩ := word_of_constant hρ hdef hop
      refine hword c ?_
      rw [← hc]
      by_cases hnarrow : (m.valueType b).bits ≤ 64
      · rw [signedBits_emod hnarrow, hnat]
      have hpositive : 0 ≤ c := hsmall.resolve_left hnarrow
      have hself : signedBits (m.valueType b).bits (BitVec.ofNat 64 o.immediateLow) =
          BitVec.ofNat 64 o.immediateLow := by
        unfold signedBits
        rw [if_neg (by omega)]
      rw [hself] at hc ⊢
      rw [toInt_of_nonneg hnat (by rw [hc]; exact hpositive)]
    · cases hc
  · cases hc

/-- All constants on a way are read as they are. -/
def ConstantsRead (m : XairModule) (steps : List WayStep) : Prop :=
  ∀ amount b, WayStep.move amount b ∈ steps → ReadAsIs m b

section

variable {A : Arithmetic} {ρ : ValueId → Word} {root v : ValueId} {steps : List WayStep}

theorem Way.shows (hA : Modular A) (hρ : Valuation m A ρ) (hsums : SumsTyped m)
    (hway : Way m root v steps) (hread : ConstantsRead m steps) :
    ShowsForm ρ root v (wayForm (m.valueType root).bits steps) := by
  induction hway with
  | register h =>
    unfold ShowsForm
    rw [wayForm, ← hρ.width root]
    exact Form.describes_base (ρ root).bits
  | cast h hway ih =>
    rename_i v a steps
    obtain ⟨id, o, rest, hdef, hkeeps, hin⟩ := definingOp_of_cast h
    have hsigned : castSigned m v = (o.opcode == .sext) := by rw [castSigned, hdef]
    have hmem : o.opcode ∈ castOpcodes := by
      simp only [keepsOffset, Bool.or_eq_true, beq_iff_eq] at hkeeps
      obtain (((h | h) | h) | h) | h := hkeeps <;> rw [h] <;> decide
    have hinner := ih (fun amount b hb => hread amount b (by simp [hb]))
    have hdescribed := describes_castWord hkeeps hinner (hρ.cast hdef hmem hin)
    rw [← hsigned] at hdescribed
    exact hdescribed
  | first h hc hway ih =>
    rename_i v a b subtract c steps
    obtain ⟨id, o, rest, hdef, hmoves, hsub, hin⟩ := definingOp_of_move h
    have hinner := ih (fun amount b hb => hread amount b (by simp [hb]))
    have hconstant := constantSigned_emod hρ hc (hread _ b mem_cons_self)
    have hwidth : (ρ a).width = (ρ b).width := by
      rw [hρ.width, hρ.width]
      exact hsums hdef hmoves hin
    cases subtract with
    | true =>
      have hop : o.opcode.infixOp = some .sub := by
        simp only [isSubtraction, Bool.or_eq_true, beq_iff_eq] at hsub
        obtain h | h := hsub <;> rw [h] <;> rfl
      have hvalue := hρ.binary hdef hop hin
      unfold ShowsForm
      rw [hvalue]
      exact hA.describes_sub hwidth hinner hconstant
    | false =>
      have hop : o.opcode.infixOp = some .add := by
        rw [hsub, Bool.or_false] at hmoves
        simp only [isAddition, Bool.or_eq_true, beq_iff_eq] at hmoves
        obtain h | h := hmoves <;> rw [h] <;> rfl
      have hvalue := hρ.binary hdef hop hin
      unfold ShowsForm
      rw [hvalue]
      exact (hA.describes_add hwidth hinner hconstant).1
  | second h hc hway ih =>
    rename_i v a b c steps
    obtain ⟨id, o, rest, hdef, hmoves, hsub, hin⟩ := definingOp_of_move h
    have hinner := ih (fun amount b hb => hread amount b (by simp [hb]))
    have hconstant := constantSigned_emod hρ hc (hread _ a mem_cons_self)
    have hwidth : (ρ b).width = (ρ a).width := by
      rw [hρ.width, hρ.width]
      exact (hsums hdef hmoves hin).symm
    have hop : o.opcode.infixOp = some .add := by
      rw [hsub, Bool.or_false] at hmoves
      simp only [isAddition, Bool.or_eq_true, beq_iff_eq] at hmoves
      obtain h | h := hmoves <;> rw [h] <;> rfl
    have hvalue := hρ.binary hdef hop hin
    unfold ShowsForm
    rw [hvalue]
    exact (hA.describes_add hwidth hinner hconstant).2

end

/-- Two values have one width, and their ways read all constants as they are and extend
last the same word in the same way, or extend none. -/
def SameExtension (m : XairModule) (root v v' : ValueId) : Prop :=
  (m.valueType v).bits = (m.valueType v').bits ∧
    ∀ steps steps', Way m root v steps → Way m root v' steps' →
      ConstantsRead m steps ∧ ConstantsRead m steps' ∧
        (wayForm (m.valueType root).bits steps).source =
          (wayForm (m.valueType root).bits steps').source

/-- No offset on the way to an answer leaves the signed words, and addresses with the same
base and offset are the same in every execution if their ways extend alike. -/
theorem affine_identity (m : XairModule) (A : Arithmetic) (hA : Modular A) (ρ : ValueId → Word)
    (hρ : Valuation m A ρ) (hsums : SumsTyped m) :
    (∀ n active v root offset, affineStackFrom m n active v = some (root, offset) →
      inInt64 offset) ∧ ∀ v v' root offset, affineStack m v = some (root, offset) →
      affineStack m v' = some (root, offset) → SameExtension m root v v' → ρ v = ρ v' := by
  refine ⟨fun n active v root offset h => affineStackFrom_fits h, ?_⟩
  intro v v' root offset h h' hsame
  obtain ⟨steps, hway, htotal⟩ := affineStackFrom_way h (m.valueType root).bits
  obtain ⟨steps', hway', htotal'⟩ := affineStackFrom_way h' (m.valueType root).bits
  obtain ⟨hread, hread', hsource⟩ := hsame.2 steps steps' hway hway'
  have hshows := hway.shows hA hρ hsums hread
  have hshows' := hway'.shows hA hρ hsums hread'
  have hwidth : (wayForm (m.valueType root).bits steps).width =
      (wayForm (m.valueType root).bits steps').width := by
    rw [← hshows.1, ← hshows'.1, hρ.width, hρ.width]
    exact hsame.1
  have hform := Form.eq_of_source hwidth (htotal.trans htotal'.symm) hsource
  unfold ShowsForm at hshows
  rw [hform] at hshows
  obtain ⟨hw, hn⟩ := hshows.unique hshows'
  generalize ρ v = w at hw hn
  generalize ρ v' = w' at hw hn
  obtain ⟨n, b⟩ := w
  obtain ⟨k, b'⟩ := w'
  dsimp only at hw hn
  subst hw
  rw [BitVec.eq_of_toNat_eq hn]

theorem modular_wrapping : Modular wrapping where
  add x y := by simp [wrapping]
  sub x y := by simp [wrapping]

/-- The address `rsp + 4`, once computed with the lower half of `rsp` and extended, once in
full, and once as `rsp + 8 - 4`. -/
def addressModule : XairModule where
  values :=
    [{ type := { kind := .int, bits := 64 }, name := "rsp" },
     { type := { kind := .int, bits := 32 }, definition := some 0 },
     { type := { kind := .int, bits := 32 }, definition := some 1 },
     { type := { kind := .int, bits := 32 }, definition := some 2 },
     { type := { kind := .int, bits := 64 }, definition := some 3 },
     { type := { kind := .int, bits := 64 }, definition := some 4 },
     { type := { kind := .int, bits := 64 }, definition := some 5 },
     { type := { kind := .int, bits := 64 }, definition := some 6 },
     { type := { kind := .int, bits := 64 }, definition := some 7 },
     { type := { kind := .int, bits := 64 }, definition := some 8 }]
  ops :=
    [{ opcode := .trunc, inputs := [0], results := [1] },
     { opcode := .constU64, results := [2], immediateLow := 4 },
     { opcode := .add, inputs := [1, 2], results := [3] },
     { opcode := .zext, inputs := [3], results := [4] },
     { opcode := .constU64, results := [5], immediateLow := 4 },
     { opcode := .add, inputs := [0, 5], results := [6] },
     { opcode := .constU64, results := [7], immediateLow := 8 },
     { opcode := .add, inputs := [0, 7], results := [8] },
     { opcode := .sub, inputs := [8, 5], results := [9] }]
  blocks := []
  opcodeName := fun _ => []

/-- The words of these values where the lower half of `rsp` is all ones. -/
def addressWords : List Word :=
  [⟨64, 0xFFFFFFFF⟩, ⟨32, 0xFFFFFFFF⟩, ⟨32, 4⟩, ⟨32, 3⟩, ⟨64, 3⟩, ⟨64, 4⟩, ⟨64, 0x100000003⟩,
   ⟨64, 8⟩, ⟨64, 0x100000007⟩, ⟨64, 0x100000003⟩]

theorem valuation_addressWords : Valuation addressModule wrapping (wordOf addressWords) :=
  valuation_of_words rfl (by decide) (by decide)

/-- An extended sum and a sum in full have the same base and offset, and are not the same
address where the lower half wraps around. -/
theorem extended_address_differs :
    affineStack addressModule 4 = some (0, 4) ∧ affineStack addressModule 6 = some (0, 4) ∧
      Modular wrapping ∧ Valuation addressModule wrapping (wordOf addressWords) ∧
      wordOf addressWords 4 ≠ wordOf addressWords 6 :=
  ⟨by decide, by decide, modular_wrapping, valuation_addressWords, by decide⟩

theorem sumsTyped_addressModule : SumsTyped addressModule := by
  intro v id o a b rest h hmoves hin
  have hall : ∀ v < 10, ∀ d ∈ addressModule.definingOp v,
      (isAddition d.2.opcode || isSubtraction d.2.opcode) = true → ∀ a ∈ d.2.inputs[0]?,
        ∀ b ∈ d.2.inputs[1]?, (addressModule.valueType a).bits = (addressModule.valueType b).bits :=
    by decide
  exact hall v (lt_of_definingOp h) _ h hmoves a (by simp [hin]) b (by simp [hin])

/-- Two sums in full with the same base and offset. -/
theorem moved_address_same : wordOf addressWords 6 = wordOf addressWords 9 := by
  refine (affine_identity addressModule wrapping modular_wrapping (wordOf addressWords)
    valuation_addressWords sumsTyped_addressModule).2 6 9 0 4 (by decide) (by decide) ⟨rfl, ?_⟩
  intro steps steps' hway hway'
  obtain ⟨c, rest, hc, hrest, rfl⟩ := hway.of_move
    (show stackNode isLowerStackName addressModule 6 = .move false 0 5 from rfl) rfl
  obtain ⟨c', rest', hc', hrest', rfl⟩ := hway'.of_move
    (show stackNode isLowerStackName addressModule 9 = .move true 8 5 from rfl) rfl
  obtain ⟨d, rest'', hd, hrest'', rfl⟩ := hrest'.of_move
    (show stackNode isLowerStackName addressModule 8 = .move false 0 7 from rfl) rfl
  rw [hrest.of_register rfl, hrest''.of_register rfl]
  refine ⟨?_, ?_, rfl⟩
  · intro amount b hb
    simp only [mem_singleton, WayStep.move.injEq] at hb
    rw [hb.2]
    exact .inl (by decide)
  intro amount b hb
  simp only [mem_cons, not_mem_nil, or_false, WayStep.move.injEq] at hb
  rcases hb with hb | hb
  · rw [hb.2]
    exact .inl (by decide)
  · rw [hb.2]
    exact .inl (by decide)

end Airece
