import IndagoRev.Sweeps
import IndagoRev.Airece.VariableView

/-!
# Relevance of values

A pass of `propagate_relevance` is one sweep over the arguments of all edges, and the
loop makes one more of them than there are blocks.  How far relevance gets that way
depends on how often it has to turn back against the order of the arguments, not on how
many blocks there are.
-/

namespace Airece.VariableRecovery

open StdText Sweeps List

/-- The values that are used. -/
def relevantValues (uses : ValueId → Nat) : Set ValueId := {v | uses v ≠ 0}

/-- The arguments and parameters that have a counter. -/
def countedSlots (m : XairModule) (scope : VariableScope) : List (ValueId × ValueId) :=
  (scopeSlots m scope).filter
    (fun slot => decide (slot.1 < m.valueCount) && decide (slot.2 < m.valueCount))

/-- Every edge between blocks of the scope passes relevant arguments for relevant
parameters. -/
def RelevanceClosed (m : XairModule) (scope : VariableScope) (uses : ValueId → Nat) : Prop :=
  ∀ b ∈ scope.blocks, ∀ t, m.terminator b = some t → ∀ edge ∈ t.targets,
    edge.1 ∈ scope.blocks → ∀ i argument parameter : Nat, edge.2[i]? = some argument →
      (m.blockParams edge.1)[i]? = some parameter → argument < m.valueCount →
      parameter < m.valueCount → 0 < uses parameter → 0 < uses argument

variable {m : XairModule} {scope : VariableScope} {uses : ValueId → Nat}

theorem mem_zip_iff {α β : Type} {xs : List α} {ys : List β} {x : α} {y : β} :
    (x, y) ∈ xs.zip ys ↔ ∃ i : Nat, xs[i]? = some x ∧ ys[i]? = some y := by
  rw [mem_iff_getElem?]
  simp only [getElem?_zip_eq_some]

/-- The arguments and parameters of the edges between blocks of the scope. -/
theorem mem_scopeSlots {slot : ValueId × ValueId} : slot ∈ scopeSlots m scope ↔
      ∃ b ∈ scope.blocks, ∃ t, m.terminator b = some t ∧ ∃ edge ∈ t.targets,
        edge.1 ∈ scope.blocks ∧ ∃ i : Nat, edge.2[i]? = some slot.1 ∧
          (m.blockParams edge.1)[i]? = some slot.2 := by
  unfold scopeSlots
  rw [mem_flatMap]
  refine exists_congr fun b => and_congr_right fun _ => ?_
  unfold blockSlots
  cases hterm : m.terminator b with
  | none => simp
  | some t =>
    simp only [Option.some.injEq, exists_eq_left', mem_flatMap]
    refine exists_congr fun edge => and_congr_right fun _ => ?_
    by_cases hin : edge.1 ∈ scope.blocks
    · rw [if_pos hin, ← mem_zip_iff]
      exact ⟨fun h => ⟨hin, h⟩, fun h => h.2⟩
    · simp [hin]

/-- Relevance is closed along the edges if it is closed along the counted arguments. -/
theorem relevanceClosed_iff :
    RelevanceClosed m scope uses ↔ Closed (countedSlots m scope) (relevantValues uses) := by
  constructor
  · intro h slot hslot hused
    obtain ⟨hmem, hcounted⟩ := mem_filter.mp hslot
    simp only [Bool.and_eq_true, decide_eq_true_eq] at hcounted
    obtain ⟨b, hb, t, ht, edge, hedge, hin, i, ha, hp⟩ := mem_scopeSlots.mp hmem
    exact Nat.ne_of_gt
      (h b hb t ht edge hedge hin i slot.1 slot.2 ha hp hcounted.1 hcounted.2
        (Nat.pos_of_ne_zero hused))
  · intro h b hb t ht edge hedge hin i argument parameter ha hp hargument hparameter hused
    have hmem : (argument, parameter) ∈ countedSlots m scope := by
      refine mem_filter.mpr ⟨mem_scopeSlots.mpr ⟨b, hb, t, ht, edge, hedge, hin, i, ha, hp⟩, ?_⟩
      simp [hargument, hparameter]
    exact Nat.pos_of_ne_zero (h _ hmem (Nat.ne_of_gt hused))

/-- What one argument does to the relevant values, and whether it changes them. -/
theorem pushRelevance_spec (s : (ValueId → Nat) × Bool) (slot : ValueId × ValueId) :
    relevantValues (pushRelevance m s slot).1 =
        (if slot.1 < m.valueCount ∧ slot.2 < m.valueCount then push (relevantValues s.1) slot
          else relevantValues s.1) ∧
      ((pushRelevance m s slot).2 = false → (pushRelevance m s slot).1 = s.1 ∧ s.2 = false) := by
  unfold pushRelevance
  by_cases hskip : m.valueCount ≤ slot.2 ∨ m.valueCount ≤ slot.1 ∨ s.1 slot.2 = 0 ∨ s.1 slot.1 ≠ 0
  · rw [if_pos hskip]
    refine ⟨?_, fun h => ⟨rfl, h⟩⟩
    split
    · rename_i hcounted
      ext v
      rw [mem_push]
      constructor
      · exact Or.inl
      rintro (hv | ⟨rfl, hused⟩)
      · exact hv
      have hnonzero : s.1 slot.2 ≠ 0 := hused
      have : s.1 slot.1 ≠ 0 := by
        rcases hskip with h | h | h | h
        · exact absurd hcounted.2 (Nat.not_lt.mpr h)
        · exact absurd hcounted.1 (Nat.not_lt.mpr h)
        · exact absurd h hnonzero
        · exact h
      exact this
    · rfl
  · rw [if_neg hskip]
    simp only [not_or, Nat.not_le, ne_eq, not_not] at hskip
    obtain ⟨hparameter, hargument, hused, hunused⟩ := hskip
    refine ⟨?_, fun h => absurd h (by simp)⟩
    rw [if_pos ⟨hargument, hparameter⟩]
    ext v
    rw [mem_push]
    change Function.update s.1 slot.1 1 v ≠ 0 ↔ s.1 v ≠ 0 ∨ (v = slot.1 ∧ s.1 slot.2 ≠ 0)
    by_cases hv : v = slot.1
    · subst hv
      simp [hused]
    · simp [hv]

/-- A pass is a sweep, and it says that nothing changed only if that is so. -/
theorem relevancePass_spec (m : XairModule) (scope : VariableScope) (uses : ValueId → Nat) :
    relevantValues (relevancePass m scope uses).1 =
        sweep (countedSlots m scope) (relevantValues uses) ∧
      ((relevancePass m scope uses).2 = false → (relevancePass m scope uses).1 = uses) := by
  have hfold : ∀ (slots : List (ValueId × ValueId)) (s : (ValueId → Nat) × Bool),
      relevantValues (slots.foldl (pushRelevance m) s).1 =
          sweep (slots.filter (fun slot =>
            decide (slot.1 < m.valueCount) && decide (slot.2 < m.valueCount)))
            (relevantValues s.1) ∧
        ((slots.foldl (pushRelevance m) s).2 = false →
          (slots.foldl (pushRelevance m) s).1 = s.1 ∧ s.2 = false) := by
    intro slots
    induction slots with
    | nil => exact fun s => ⟨rfl, fun h => ⟨rfl, h⟩⟩
    | cons slot slots ih =>
      intro s
      obtain ⟨hrelevant, hsame⟩ := pushRelevance_spec (m := m) s slot
      obtain ⟨hrest, hrestSame⟩ := ih (pushRelevance m s slot)
      refine ⟨?_, ?_⟩
      · rw [foldl_cons, hrest, hrelevant]
        by_cases hcounted : slot.1 < m.valueCount ∧ slot.2 < m.valueCount
        · rw [if_pos hcounted, filter_cons_of_pos (by simp [hcounted])]
          rfl
        · rw [if_neg hcounted, filter_cons_of_neg (by simpa using hcounted)]
      · intro h
        obtain ⟨hvalue, hflag⟩ := hrestSame h
        obtain ⟨hvalue', hflag'⟩ := hsame hflag
        exact ⟨hvalue.trans hvalue', hflag'⟩
  obtain ⟨hrelevant, hsame⟩ := hfold (scopeSlots m scope) (uses, false)
  exact ⟨hrelevant, fun h => (hsame h).1⟩

/-- The passes make as many sweeps as they may: those that are left out would change
nothing. -/
theorem relevantValues_passes (n : Nat) (uses : ValueId → Nat) :
    relevantValues (passes (relevancePass m scope) n uses) =
      (sweep (countedSlots m scope))^[n] (relevantValues uses) := by
  induction n generalizing uses with
  | zero => rfl
  | succ n ih =>
    obtain ⟨hsweep, hsame⟩ := relevancePass_spec m scope uses
    rw [passes, Function.iterate_succ_apply, ← hsweep]
    split
    · exact ih _
    · rename_i hchanged
      have hvalue := hsame (by simpa using hchanged)
      rw [hvalue] at hsweep ⊢
      exact (sweeps_of_fixed hsweep.symm n).symm

/-- Relevance reaches its fixpoint exactly when no relevant value has to be reached by
turning back, against the order of the arguments, more often than there are blocks. -/
theorem relevance_closed_iff (m : XairModule) (context : VariableContext)
    (scope : VariableScope) (options : VariableOptions) : RelevanceClosed m scope
        (propagateRelevance m scope (collect m context scope options).meaningfulUses) ↔
      FewTurns (countedSlots m scope)
        (relevantValues (collect m context scope options).meaningfulUses) scope.blocks.length := by
  rw [relevanceClosed_iff, propagateRelevance, relevantValues_passes, closed_sweeps_iff]

/-- One block that jumps to itself and passes each of its four parameters on to the next
one. -/
def rotatingModule : XairModule where
  values := List.replicate 4 { type := { kind := .int, bits := 64 } }
  ops := [{ opcode := .other 0, inputs := [3] }]
  blocks := [{
    ops := [0]
    params := [0, 1, 2, 3]
    terminator := { kind := .jump, trueTarget := 0, trueArgs := [0, 0, 1, 2] } }]
  opcodeName := fun _ => []

/-- Two passes take the relevance of the last parameter to the second one, which the first
one is passed for. -/
theorem rotation_outruns_passes :
    ¬ RelevanceClosed rotatingModule { entryBlock := 0, blocks := [0] }
      (propagateRelevance rotatingModule { entryBlock := 0, blocks := [0] }
        (collect rotatingModule {} { entryBlock := 0, blocks := [0] } {}).meaningfulUses) := by
  intro h
  have hfirst := h 0 (by decide) { kind := .jump, trueTarget := 0, trueArgs := [0, 0, 1, 2] } rfl
    (0, [0, 0, 1, 2]) (by decide) (by decide) 1 0 1 rfl rfl (by decide) (by decide) (by decide)
  exact absurd hfirst (by decide)

end Airece.VariableRecovery
