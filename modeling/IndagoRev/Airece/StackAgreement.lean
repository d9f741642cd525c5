import IndagoRev.Airece.StackOffsets

/-!
# Where the stack offsets agree

Each of the three recursions sums up the constants on the same way to the stack
register.  So two of them differ just where the constants do, as each reads them.
-/

namespace Airece

open StdText List

variable {m : XairModule} {isRegister : Text → Bool} {read : ValueId → Option Int}

theorem isLowerStackName_of_stack {name : Text} (h : isStackName name = true) :
    isLowerStackName name = true := by
  simp only [isStackName, Bool.or_eq_true, decide_eq_true_eq] at h
  obtain ((rfl | rfl) | rfl) | rfl := h <;> decide

variable {v : ValueId}

theorem stackNode_register :
    stackNode isRegister m v = .register ↔ isRegister (m.valueName v) = true := by
  unfold stackNode
  split
  · next h => simp [h]
  next h =>
    simp only [h]
    repeat' split
    all_goals simp

theorem stackNode_congr {isRegister' : Text → Bool}
    (h : isRegister (m.valueName v) = false) (h' : isRegister' (m.valueName v) = false) :
    stackNode isRegister m v = stackNode isRegister' m v := by
  simp [stackNode, h, h']

theorem stackNode_constant {c : Int} (h : constantSigned m v = some c) :
    stackNode isRegister m v = .register ∨ stackNode isRegister m v = .other := by
  unfold constantSigned at h
  split at h
  · next id o hdef =>
      split at h
      · next hop =>
          unfold stackNode
          rw [hdef]
          simp only [hop]
          by_cases hname : isRegister (m.valueName v) = true
          · simp [hname]
          · simp [hname, keepsOffset, isAddition, isSubtraction]
      · cases h
  · cases h

theorem stackNode_lt (h : stackNode isLowerStackName m v ≠ .other) : v < m.valueCount := by
  by_contra hout
  have hnone : m.values[v]? = none := getElem?_eq_none (by
    simpa [XairModule.valueCount] using hout)
  apply h
  have hname : m.valueName v = [] := by simp [XairModule.valueName, hnone]
  have hdef : m.definingOp v = none := by
    simp [XairModule.definingOp, XairModule.valueDefinition, hnone]
  have hregister : isLowerStackName [] = false := by decide
  simp [stackNode, hname, hdef, hregister]

variable {n : Nat} {chain : ValueId × List ChainStep}

theorem stackChain_mono (h : stackChain isRegister m n v = some chain) :
    stackChain isRegister m (n + 1) v = some chain := by
  induction n generalizing v chain with
  | zero => cases h
  | succ n ih =>
    unfold stackChain at h ⊢
    cases hnode : stackNode isRegister m v with
    | register => simpa [hnode] using h
    | cast a single =>
      simp only [hnode, Option.map_eq_some_iff] at h ⊢
      obtain ⟨inner, hinner, rfl⟩ := h
      exact ⟨inner, ih hinner, rfl⟩
    | move subtract a b =>
      simp only [hnode, Option.map_eq_some_iff] at h ⊢
      obtain ⟨inner, hinner, rfl⟩ := h
      exact ⟨inner, ih hinner, rfl⟩
    | other => simp [hnode] at h

variable {n k : Nat}

theorem stackChain_mono_le (hle : n ≤ k) (h : stackChain isRegister m n v = some chain) :
    stackChain isRegister m k v = some chain := by
  induction hle with
  | refl => exact h
  | step _ ih => exact stackChain_mono ih

variable {chain : List ChainStep}

theorem stackChain_root {v r : ValueId}
    (h : stackChain isRegister m n v = some (r, chain)) : isRegister (m.valueName r) = true := by
  induction n generalizing v chain with
  | zero => cases h
  | succ n ih =>
    unfold stackChain at h
    cases hnode : stackNode isRegister m v with
    | register =>
      simp only [hnode, Option.some.injEq, Prod.mk.injEq] at h
      obtain ⟨rfl, -⟩ := h
      exact stackNode_register.mp hnode
    | cast a single =>
      simp only [hnode, Option.map_eq_some_iff, Prod.mk.injEq] at h
      obtain ⟨⟨r', inner⟩, hinner, rfl, -⟩ := h
      exact ih hinner
    | move subtract a b =>
      simp only [hnode, Option.map_eq_some_iff, Prod.mk.injEq] at h
      obtain ⟨⟨r', inner⟩, hinner, rfl, -⟩ := h
      exact ih hinner
    | other => simp [hnode] at h

theorem stackChain_register {v r : ValueId}
    (h : stackChain isRegister m n v = some (r, chain)) (hv : isRegister (m.valueName v) = true) :
    r = v ∧ chain = [] := by
  cases n with
  | zero => cases h
  | succ n =>
    unfold stackChain at h
    rw [stackNode_register.mpr hv] at h
    simp only [Option.some.injEq, Prod.mk.injEq] at h
    exact ⟨h.1.symm, h.2.symm⟩

/-- Chains by the names as they are and by those in small letters that end at the same
register are the same. -/
theorem stackChain_lower {v r : ValueId} {chain chain' : List ChainStep}
    (h : stackChain isStackName m n v = some (r, chain))
    (h' : stackChain isLowerStackName m k v = some (r, chain')) : chain' = chain := by
  induction n generalizing k v chain chain' with
  | zero => cases h
  | succ n ih =>
    by_cases hlower : isLowerStackName (m.valueName v) = true
    · obtain ⟨rfl, rfl⟩ := stackChain_register h' hlower
      exact (stackChain_register h (stackChain_root h)).2.symm
    cases k with
    | zero => cases h'
    | succ k =>
      have hexact : isStackName (m.valueName v) = false :=
        Bool.eq_false_iff.mpr fun hname => hlower (isLowerStackName_of_stack hname)
      unfold stackChain at h h'
      rw [stackNode_congr (Bool.eq_false_iff.mpr hlower) hexact] at h'
      cases hnode : stackNode isStackName m v with
      | register =>
        rw [stackNode_register.mp hnode] at hexact
        cases hexact
      | cast a single =>
        simp only [hnode, Option.map_eq_some_iff, Prod.mk.injEq] at h h'
        obtain ⟨⟨r', inner⟩, hinner, rfl, rfl⟩ := h
        obtain ⟨⟨r'', inner'⟩, hinner', rfl, rfl⟩ := h'
        rw [ih hinner hinner']
      | move subtract a b =>
        simp only [hnode, Option.map_eq_some_iff, Prod.mk.injEq] at h h'
        obtain ⟨⟨r', inner⟩, hinner, rfl, rfl⟩ := h
        obtain ⟨⟨r'', inner'⟩, hinner', rfl, rfl⟩ := h'
        rw [ih hinner hinner']
      | other => simp [hnode] at h

/-- The sum of a chain with the overflow of its additions. -/
def summed (read : ValueId → Option Int) (root : ValueId) : List ChainStep → OffsetResult
  | [] => .offset root 0
  | .cast _ :: rest => summed read root rest
  | .move subtract b :: rest =>
    match read b, summed read root rest with
    | some amount, base => base.shift subtract amount
    | none, .overflow => .overflow
    | none, _ => .nowhere

/-- A total as a result. -/
def offsetAt (root : ValueId) : Option Int → OffsetResult
  | some total => .offset root total
  | none => .nowhere

theorem shift_offset (subtract : Bool) (amount : Int) (root : ValueId) (base : Int) :
    OffsetResult.shift subtract amount (.offset root base) =
      if (subtract = true → amount ≠ int64Min) ∧ inInt64 (movedBy subtract base amount) then
        .offset root (movedBy subtract base amount) else .overflow := by
  cases subtract with
  | true =>
    by_cases hmin : amount = int64Min
    · simp [OffsetResult.shift, hmin]
    · simp [OffsetResult.shift, movedBy, hmin, Int.sub_eq_add_neg]
  | false => simp [OffsetResult.shift, movedBy]

variable {root : ValueId}

theorem summed_fits (h : ChainFits read chain) :
    summed read root chain = offsetAt root (chainTotal read chain) := by
  induction chain with
  | nil => rfl
  | cons step rest ih =>
    cases step with
    | cast single => exact ih h
    | move subtract b =>
      obtain ⟨hrest, hstep⟩ := h
      rw [summed, ih hrest, chainTotal]
      cases htotal : chainTotal read rest with
      | none => cases read b <;> rfl
      | some base =>
        cases hread : read b with
        | none => rfl
        | some amount =>
          show OffsetResult.shift subtract amount (.offset root base) = _
          rw [shift_offset, if_pos (hstep base amount htotal hread)]
          rfl

theorem summed_overflow (h : ¬ ChainFits read chain) : summed read root chain = .overflow := by
  induction chain with
  | nil => exact absurd trivial h
  | cons step rest ih =>
    cases step with
    | cast single => exact ih h
    | move subtract b =>
      rw [summed]
      by_cases hrest : ChainFits read rest
      · have hstep : ∃ base amount, chainTotal read rest = some base ∧ read b = some amount ∧
            ¬ ((subtract = true → amount ≠ int64Min) ∧
              inInt64 (movedBy subtract base amount)) := by
          by_contra hno
          refine h ⟨hrest, fun base amount htotal hread => ?_⟩
          by_contra hbad
          exact hno ⟨base, amount, htotal, hread, hbad⟩
        obtain ⟨base, amount, htotal, hread, hbad⟩ := hstep
        rw [summed_fits hrest, htotal, hread]
        show OffsetResult.shift subtract amount (.offset root base) = _
        rw [shift_offset, if_neg hbad]
      · rw [ih hrest]
        cases read b <;> rfl

theorem summed_ne_overflow : summed read root chain ≠ .overflow ↔ ChainFits read chain := by
  constructor
  · intro h
    by_contra hbad
    exact h (summed_overflow hbad)
  · intro h
    rw [summed_fits h]
    cases chainTotal read chain <;> exact fun h => by cases h

variable {total : Int}

theorem summed_offset {root r : ValueId} (h : summed read root chain = .offset r total) :
    root = r ∧ chainTotal read chain = some total := by
  by_cases hfits : ChainFits read chain
  · rw [summed_fits hfits] at h
    cases htotal : chainTotal read chain with
    | none => rw [htotal] at h; cases h
    | some t => rw [htotal] at h; cases h; exact ⟨rfl, rfl⟩
  · rw [summed_overflow hfits] at h
    cases h

theorem stackStorage_chain (n : Nat) (v : ValueId) :
    stackStorage m n v = match stackChain isLowerStackName m n v with
      | some (root, chain) => summed (constantStorage m) root chain
      | none => .nowhere := by
  induction n generalizing v with
  | zero => rfl
  | succ n ih =>
    unfold stackStorage stackChain
    cases stackNode isLowerStackName m v with
    | register => rfl
    | cast a single =>
      simp only [ih]
      cases stackChain isLowerStackName m n a <;> rfl
    | move subtract a b =>
      simp only [ih]
      cases stackChain isLowerStackName m n a with
      | none => cases constantStorage m b <;> rfl
      | some chain => rfl
    | other => rfl

theorem stackOffset_chain (n : Nat) (v : ValueId) :
    stackOffset m n v = match stackChain isStackName m n v with
      | some (root, chain) =>
        if (chainTotal (constantI64 m) chain).isSome then summed (constantI64 m) root chain
        else .nowhere
      | none => .nowhere := by
  induction n generalizing v with
  | zero => rfl
  | succ n ih =>
    unfold stackOffset stackChain
    cases stackNode isStackName m v with
    | register => rfl
    | cast a single =>
      simp only [ih]
      cases stackChain isStackName m n a <;> rfl
    | move subtract a b =>
      simp only [ih]
      cases stackChain isStackName m n a with
      | none => cases constantI64 m b <;> rfl
      | some chain =>
        cases hread : constantI64 m b with
        | none => simp [chainTotal, hread]
        | some amount =>
          simp only [Option.map_some, chainTotal, summed, hread]
          cases chainTotal (constantI64 m) chain.2 <;> rfl
    | other => rfl

variable {subtract : Bool}

theorem affineValid_iff {offset c : Int} (hoffset : inInt64 offset) (hc : inInt64 c) :
    affineValid subtract offset c = true ↔ inInt64 (movedBy subtract offset c) := by
  cases subtract with
  | true =>
    simp only [affineValid, movedBy, if_true, Bool.or_eq_true, Bool.and_eq_true, decide_eq_true_eq]
    unfold inInt64 int64Min int64Max at *
    omega
  | false =>
    simp only [affineValid, movedBy, Bool.false_eq_true, if_false, Bool.or_eq_true,
      Bool.and_eq_true, decide_eq_true_eq]
    unfold inInt64 int64Min int64Max at *
    omega

theorem constantSigned_inInt64 {c : Int} (h : constantSigned m v = some c) : inInt64 c := by
  unfold constantSigned at h
  split at h
  · split at h
    · cases h
      exact inInt64_toInt _
    · cases h
  · cases h

theorem sumsFit_total (h : SumsFit read chain)
    (htotal : chainTotal read chain = some total) : inInt64 total := by
  induction chain generalizing total with
  | nil =>
    cases htotal
    decide
  | cons step rest ih =>
    cases step with
    | cast single => exact ih h htotal
    | move subtract b =>
      rw [chainTotal] at htotal
      split at htotal
      · next base amount hbase hamount =>
          cases htotal
          exact h.2 base amount hbase hamount
      · cases htotal

theorem affineMove_some {c : Option Int} {base : Option (ValueId × Int)}
    {offset : Int} (h : affineMove subtract c base = some (root, offset)) :
    ∃ amount before, c = some amount ∧ base = some (root, before) ∧
      affineValid subtract before amount = true ∧ offset = movedBy subtract before amount := by
  unfold affineMove at h
  split at h
  · next amount root' before =>
      split at h
      · next hvalid =>
          simp only [Option.some.injEq, Prod.mk.injEq] at h
          obtain ⟨rfl, rfl⟩ := h
          exact ⟨amount, before, rfl, rfl, hvalid, rfl⟩
      · cases h
  · cases h

variable {active : List ValueId}

theorem affineStackFrom_fits {v root : ValueId} {offset : Int}
    (h : affineStackFrom m n active v = some (root, offset)) : inInt64 offset := by
  induction n generalizing active v root offset with
  | zero => cases h
  | succ n ih =>
    have hmove : ∀ {subtract : Bool} {a b : ValueId},
        affineMove subtract (constantSigned m b) (affineStackFrom m n (v :: active) a) =
          some (root, offset) → inInt64 offset := by
      intro subtract a b hmoved
      obtain ⟨amount, before, hamount, hbefore, hvalid, rfl⟩ := affineMove_some hmoved
      exact (affineValid_iff (ih hbefore) (constantSigned_inInt64 hamount)).mp hvalid
    unfold affineStackFrom at h
    split at h
    · cases h
    cases hnode : stackNode isLowerStackName m v with
    | register =>
      simp only [hnode, Option.some.injEq, Prod.mk.injEq] at h
      rw [← h.2]
      decide
    | cast a single =>
      simp only [hnode] at h
      split at h
      · exact ih h
      · cases h
    | move subtract a b =>
      simp only [hnode] at h
      split at h
      · next result hright =>
          cases h
          exact hmove hright
      · split at h
        · cases h
        · exact hmove h
    | other => simp [hnode] at h

/-- A stack register: its value is not a constant. -/
def Register (m : XairModule) (root : ValueId) : Prop := constantSigned m root = none

/-- What an offset of a variable says about a chain to the same register. -/
structure AffineAlong (m : XairModule) (k : Nat) (v root : ValueId) (chain : List ChainStep)
    (offset : Int) : Prop where
  way : stackChain isLowerStackName m k v = some (root, chain)
  casts : CastsSingle chain
  total : chainTotal (constantSigned m) chain = some offset
  fits : SumsFit (constantSigned m) chain

/-- What variables find along a chain to a register is its total. -/
theorem affine_total (hregister : ∀ name, isRegister name = true → isLowerStackName name = true)
    {v root : ValueId} {offset : Int} (hroot : Register m root)
    (h : affineStackFrom m n active v = some (root, offset))
    (hchain : stackChain isRegister m k v = some (root, chain)) :
    AffineAlong m k v root chain offset := by
  induction n generalizing k active v offset chain with
  | zero => cases h
  | succ n ih =>
    cases k with
    | zero => cases hchain
    | succ k =>
      have hoffset := affineStackFrom_fits h
      unfold affineStackFrom at h
      split at h
      · cases h
      by_cases hlower : isLowerStackName (m.valueName v) = true
      · rw [stackNode_register.mpr hlower] at h
        simp only [Option.some.injEq, Prod.mk.injEq] at h
        obtain ⟨rfl, rfl⟩ := h
        rw [(stackChain_register hchain (stackChain_root hchain)).2]
        exact ⟨by simp [stackChain, stackNode_register.mpr hlower], by simp [CastsSingle],
          rfl, trivial⟩
      have hname : isRegister (m.valueName v) = false :=
        Bool.eq_false_iff.mpr fun hname => hlower (hregister _ hname)
      unfold stackChain at hchain
      rw [stackNode_congr hname (Bool.eq_false_iff.mpr hlower)] at hchain
      cases hnode : stackNode isLowerStackName m v with
      | register => exact absurd (stackNode_register.mp hnode) hlower
      | cast a single =>
        simp only [hnode, Option.map_eq_some_iff, Prod.mk.injEq] at h hchain
        obtain ⟨⟨root', inner⟩, hinner, rfl, rfl⟩ := hchain
        split at h
        · next hsingle =>
            have hrest := ih h hinner
            refine ⟨by simp [stackChain, hnode, hrest.way], ?_, hrest.total, hrest.fits⟩
            simpa [CastsSingle, hsingle] using hrest.casts
        · cases h
      | move subtract a b =>
        simp only [hnode, Option.map_eq_some_iff, Prod.mk.injEq] at h hchain
        obtain ⟨⟨root', inner⟩, hinner, rfl, rfl⟩ := hchain
        split at h
        · next result hright =>
            cases h
            obtain ⟨amount, before, hamount, hbefore, _, rfl⟩ := affineMove_some hright
            have hrest := ih hbefore hinner
            refine ⟨by simp [stackChain, hnode, hrest.way], ?_, ?_, hrest.fits, ?_⟩
            · simpa [CastsSingle] using hrest.casts
            · simp only [chainTotal, hrest.total, hamount]
            intro base amount' hbase hamount'
            rw [hrest.total] at hbase
            rw [hamount] at hamount'
            cases hbase
            cases hamount'
            exact hoffset
        · split at h
          · cases h
          -- the other operand is a constant, and the chain cannot go through it
          obtain ⟨amount, before, hamount, _⟩ := affineMove_some h
          cases k with
          | zero => cases hinner
          | succ k =>
            have hconstant : stackNode isRegister m a = .register ∨
                stackNode isRegister m a = .other := stackNode_constant hamount
            unfold stackChain at hinner
            rcases hconstant with hconstant | hconstant
            · simp only [hconstant, Option.some.injEq, Prod.mk.injEq] at hinner
              rw [hinner.1, show constantSigned m root' = none from hroot] at hamount
              cases hamount
            · simp [hconstant] at hinner
      | other => simp [hnode] at h

theorem affineMove_fits {amount before : Int} (hamount : inInt64 amount) (hbefore : inInt64 before)
    (h : inInt64 (movedBy subtract before amount)) :
    affineMove subtract (some amount) (some (root, before)) =
      some (root, movedBy subtract before amount) := by
  have hvalid := (affineValid_iff hbefore hamount).mpr h
  simp only [affineMove, hvalid, if_true]
  rfl

/-- Along a chain whose sums fit, variables find its total.  The values that are being
looked at have longer chains. -/
theorem affine_of_fits {v root : ValueId}
    (hchain : stackChain isLowerStackName m (n + 1) v = some (root, chain))
    (hshort : stackChain isLowerStackName m n v = none)
    (hactive : ∀ u ∈ active, stackChain isLowerStackName m (n + 1) u = none) (hfuel : n < k)
    (hcasts : CastsSingle chain) (htotal : chainTotal (constantSigned m) chain = some total)
    (hfits : SumsFit (constantSigned m) chain) :
    affineStackFrom m k active v = some (root, total) := by
  induction n generalizing k active v total chain with
  | zero =>
    obtain ⟨k, rfl⟩ := Nat.exists_eq_succ_of_ne_zero (by omega : k ≠ 0)
    have hnew : v ∉ active := fun hmem => by
      rw [hactive v hmem] at hchain
      cases hchain
    unfold stackChain at hchain
    cases hnode : stackNode isLowerStackName m v with
    | register =>
      have hlt : v < m.valueCount := stackNode_lt (by rw [hnode]; exact fun h => by cases h)
      simp only [hnode, Option.some.injEq, Prod.mk.injEq] at hchain
      obtain ⟨rfl, rfl⟩ := hchain
      cases htotal
      simp [affineStackFrom, hnew, hnode, hlt]
    | cast a single => simp [hnode, stackChain] at hchain
    | move subtract a b => simp [hnode, stackChain] at hchain
    | other => simp [hnode] at hchain
  | succ n ih =>
    obtain ⟨k, rfl⟩ := Nat.exists_eq_succ_of_ne_zero (by omega : k ≠ 0)
    have hnew : v ∉ active := fun hmem => by
      rw [hactive v hmem] at hchain
      cases hchain
    -- the values that are being looked at, with this one
    have hactive' : ∀ u ∈ v :: active, stackChain isLowerStackName m (n + 1) u = none := by
      intro u hu
      rcases mem_cons.mp hu with rfl | hu
      · exact hshort
      cases hinner : stackChain isLowerStackName m (n + 1) u with
      | none => rfl
      | some chain =>
        have hlonger := hactive u hu
        rw [stackChain_mono hinner] at hlonger
        cases hlonger
    rw [stackChain] at hchain hshort
    cases hnode : stackNode isLowerStackName m v with
    | register => simp [hnode] at hshort
    | cast a single =>
      simp only [hnode, Option.map_eq_some_iff, Prod.mk.injEq, Option.map_eq_none_iff]
        at hchain hshort
      obtain ⟨⟨root', inner⟩, hinner, rfl, rfl⟩ := hchain
      have hsingle : single = true := by
        by_contra hno
        rw [Bool.not_eq_true] at hno
        exact hcasts (hno ▸ mem_cons_self)
      have hlt : v < m.valueCount := stackNode_lt (by rw [hnode]; exact fun h => by cases h)
      have hrest : affineStackFrom m k (v :: active) a = some (root', total) :=
        ih hinner hshort hactive' (Nat.lt_of_succ_lt_succ hfuel)
          (fun h => hcasts (mem_cons_of_mem _ h)) htotal hfits
      simp [affineStackFrom, hnew, hnode, hlt, hsingle, hrest]
    | move subtract a b =>
      simp only [hnode, Option.map_eq_some_iff, Prod.mk.injEq, Option.map_eq_none_iff]
        at hchain hshort
      obtain ⟨⟨root', inner⟩, hinner, rfl, rfl⟩ := hchain
      have hlt : v < m.valueCount := stackNode_lt (by rw [hnode]; exact fun h => by cases h)
      rw [chainTotal] at htotal
      split at htotal
      · next base amount hbase hamount =>
          cases htotal
          have hrest : affineStackFrom m k (v :: active) a = some (root', base) :=
            ih hinner hshort hactive' (Nat.lt_of_succ_lt_succ hfuel)
              (fun h => hcasts (mem_cons_of_mem _ h)) hbase hfits.1
          have hmoved : affineMove subtract (some amount) (some (root', base)) =
              some (root', movedBy subtract base amount) :=
            affineMove_fits (constantSigned_inInt64 hamount) (sumsFit_total hfits.1 hbase)
              (hfits.2 base amount hbase hamount)
          simp [affineStackFrom, hnew, hnode, hlt, hrest, hamount, hmoved]
      · cases htotal
    | other => simp [hnode] at hchain

theorem affineStack_of_fits {v root : ValueId}
    (hchain : stackChain isLowerStackName m 16 v = some (root, chain))
    (hcasts : CastsSingle chain) (htotal : chainTotal (constantSigned m) chain = some total)
    (hfits : SumsFit (constantSigned m) chain) : affineStack m v = some (root, total) := by
  have hlong : ∃ n, (stackChain isLowerStackName m (n + 1) v).isSome := ⟨15, by rw [hchain]; rfl⟩
  have hle : Nat.find hlong ≤ 15 := Nat.find_min' hlong (by rw [hchain]; rfl)
  obtain ⟨found, hfound⟩ := Option.isSome_iff_exists.mp (Nat.find_spec hlong)
  have hsame : found = (root, chain) := by
    rw [stackChain_mono_le (by omega : Nat.find hlong + 1 ≤ 16) hfound] at hchain
    exact Option.some.inj hchain
  have hshort : stackChain isLowerStackName m (Nat.find hlong) v = none := by
    cases hn : Nat.find hlong with
    | zero => rfl
    | succ n =>
      have hmin := Nat.find_min hlong (by omega : n < Nat.find hlong)
      exact Option.not_isSome_iff_eq_none.mp hmin
  exact affine_of_fits (hsame ▸ hfound) hshort (fun u hu => by cases hu) (by omega) hcasts htotal hfits

/-- The three recursions agree on an address: no sum overflows, and where two of them
find an offset from the same stack register, it is the same. -/
structure StackAgreement (m : XairModule) (v : ValueId) : Prop where
  control_fits : stackOffset m 16 v ≠ .overflow
  storage_fits : stackStorage m 16 v ≠ .overflow
  affine_fits : ∀ root offset, affineStack m v = some (root, offset) → inInt64 offset
  control_storage : ∀ root x y, Register m root → stackOffset m 16 v = .offset root x →
    stackStorage m 16 v = .offset root y → x = y
  affine_control : ∀ root x y, Register m root → affineStack m v = some (root, x) →
    stackOffset m 16 v = .offset root y → x = y
  affine_storage : ∀ root x y, Register m root → affineStack m v = some (root, x) →
    stackStorage m 16 v = .offset root y → x = y

/-- Along the chain of an address the constants fit as they are stored, and make up the
same total as their signed readings. -/
structure ConstantsAgree (m : XairModule) (v : ValueId) : Prop where
  control : ∀ root chain, stackChain isStackName m 16 v = some (root, chain) →
    (chainTotal (constantI64 m) chain).isSome → ChainFits (constantI64 m) chain
  storage : ∀ root chain, stackChain isLowerStackName m 16 v = some (root, chain) →
    ChainFits (constantStorage m) chain
  control_readings : ∀ root chain x y, Register m root →
    stackChain isStackName m 16 v = some (root, chain) →
    stackChain isLowerStackName m 16 v = some (root, chain) → CastsSingle chain →
    SumsFit (constantSigned m) chain → chainTotal (constantSigned m) chain = some x →
    chainTotal (constantI64 m) chain = some y → x = y
  storage_readings : ∀ root chain x y, Register m root →
    stackChain isLowerStackName m 16 v = some (root, chain) → CastsSingle chain →
    SumsFit (constantSigned m) chain → chainTotal (constantSigned m) chain = some x →
    chainTotal (constantStorage m) chain = some y → x = y

theorem stackOffset_some {v root : ValueId} {offset : Int}
    (h : stackOffset m 16 v = .offset root offset) :
    ∃ chain, stackChain isStackName m 16 v = some (root, chain) ∧
      chainTotal (constantI64 m) chain = some offset := by
  rw [stackOffset_chain] at h
  split at h
  · next root' chain hchain =>
      split at h
      · obtain ⟨rfl, htotal⟩ := summed_offset h
        exact ⟨chain, hchain, htotal⟩
      · cases h
  · cases h

theorem stackStorage_some {v root : ValueId} {offset : Int}
    (h : stackStorage m 16 v = .offset root offset) :
    ∃ chain, stackChain isLowerStackName m 16 v = some (root, chain) ∧
      chainTotal (constantStorage m) chain = some offset := by
  rw [stackStorage_chain] at h
  split at h
  · next root' chain hchain =>
      obtain ⟨rfl, htotal⟩ := summed_offset h
      exact ⟨chain, hchain, htotal⟩
  · cases h

/-- A stored word is the same constant for loops and for taint. -/
theorem constantStorage_eq {x y : Int} (h : constantI64 m v = some x)
    (h' : constantStorage m v = some y) : x = y := by
  unfold constantI64 at h
  split at h
  · next id o hdef =>
      split at h
      · next hop =>
          cases h
          by_cases hhigh : o.immediateHigh = 0
          · simp [constantStorage, moduleConstant, constantValueFrom, hdef, hop, hhigh] at h'
            exact h'
          · simp [constantStorage, moduleConstant, constantValueFrom, hdef, hop, hhigh,
              isAddition, isSubtraction] at h'
      · cases h
  · cases h

theorem chainTotal_eq {x y : Int} (h : chainTotal (constantI64 m) chain = some x)
    (h' : chainTotal (constantStorage m) chain = some y) : x = y := by
  induction chain generalizing x y with
  | nil =>
    cases h
    cases h'
    rfl
  | cons step rest ih =>
    cases step with
    | cast single => exact ih h h'
    | move subtract b =>
      rw [chainTotal] at h h'
      split at h
      · next base amount hbase hamount =>
          split at h'
          · next base' amount' hbase' hamount' =>
              cases h
              cases h'
              rw [ih hbase hbase', constantStorage_eq hamount hamount']
          · cases h'
      · cases h

/-- For every module and address, the three recursions agree exactly where the constants
on the way fit as they are stored and their signed readings make up the same total. -/
theorem stack_agreement_iff (m : XairModule) (v : ValueId) :
    StackAgreement m v ↔ ConstantsAgree m v := by
  constructor
  · intro h
    have hcontrol : ∀ root chain, stackChain isStackName m 16 v = some (root, chain) →
        (chainTotal (constantI64 m) chain).isSome → ChainFits (constantI64 m) chain := by
      intro root chain hchain hsome
      have hfits := h.control_fits
      rw [stackOffset_chain, hchain] at hfits
      simp only [hsome, if_true] at hfits
      exact summed_ne_overflow.mp hfits
    have hstorage : ∀ root chain, stackChain isLowerStackName m 16 v = some (root, chain) →
        ChainFits (constantStorage m) chain := by
      intro root chain hchain
      have hfits := h.storage_fits
      rw [stackStorage_chain, hchain] at hfits
      exact summed_ne_overflow.mp hfits
    refine ⟨hcontrol, hstorage, ?_, ?_⟩
    · intro root chain x y hroot hchain hlower hcasts hfits hx hy
      refine h.affine_control root x y hroot (affineStack_of_fits hlower hcasts hx hfits) ?_
      have hsome : (chainTotal (constantI64 m) chain).isSome := by
        rw [hy]
        rfl
      rw [stackOffset_chain, hchain]
      simp only [hsome, if_true]
      rw [summed_fits (hcontrol root chain hchain hsome), hy]
      rfl
    · intro root chain x y hroot hchain hcasts hfits hx hy
      refine h.affine_storage root x y hroot (affineStack_of_fits hchain hcasts hx hfits) ?_
      rw [stackStorage_chain, hchain]
      show summed (constantStorage m) root chain = _
      rw [summed_fits (hstorage root chain hchain), hy]
      rfl
  · intro h
    refine ⟨?_, ?_, fun _ _ => affineStackFrom_fits, ?_, ?_, ?_⟩
    · rw [stackOffset_chain]
      split
      · next root chain hchain =>
          split
          · next hsome => exact summed_ne_overflow.mpr (h.control root chain hchain hsome)
          · exact fun h => by cases h
      · exact fun h => by cases h
    · rw [stackStorage_chain]
      split
      · next root chain hchain => exact summed_ne_overflow.mpr (h.storage root chain hchain)
      · exact fun h => by cases h
    · intro root x y _ hx hy
      obtain ⟨chain, hchain, hx⟩ := stackOffset_some hx
      obtain ⟨chain', hchain', hy⟩ := stackStorage_some hy
      rw [stackChain_lower hchain hchain'] at hy
      exact chainTotal_eq hx hy
    · intro root x y hroot hx hy
      obtain ⟨chain, hchain, hy⟩ := stackOffset_some hy
      have halong := affine_total (fun _ => isLowerStackName_of_stack) hroot hx hchain
      exact h.control_readings root chain x y hroot hchain halong.way halong.casts halong.fits
        halong.total hy
    · intro root x y hroot hx hy
      obtain ⟨chain, hchain, hy⟩ := stackStorage_some hy
      have halong := affine_total (fun _ h => h) hroot hx hchain
      exact h.storage_readings root chain x y hroot hchain halong.casts halong.fits halong.total hy

/-- The address `rsp + c` with the constant 0xf8 of 8 bits. -/
def narrowModule : XairModule where
  values :=
    [{ type := { kind := .int, bits := 64 }, name := "rsp" },
     { type := { kind := .int, bits := 8 }, definition := some 0 },
     { type := { kind := .addr, bits := 64 }, definition := some 1 }]
  ops :=
    [{ opcode := .constU64, results := [1], immediateLow := 0xf8 },
     { opcode := .addrAdd, inputs := [0, 1], results := [2] }]
  blocks := []
  opcodeName := fun _ => "op"

/-- Variables find -8 there, and loops find 248. -/
theorem narrow_constant_disagrees : ¬ StackAgreement narrowModule 2 := by
  intro h
  have hregister : Register narrowModule 0 := rfl
  have haffine : affineStack narrowModule 2 = some (0, -8) := by decide
  have hcontrol : stackOffset narrowModule 16 2 = .offset 0 248 := by decide
  have hsame := h.affine_control 0 (-8) 248 hregister haffine hcontrol
  cases hsame

end Airece
