import IndagoRev.Airece.SemanticText

/-!
# What the printed loop condition means

A certified loop is printed with the condition text of its region, whichever of
its two edges leaves the loop.  The reading of a printed loop is the ordinary
one: the body is repeated while the condition holds.  The CFG repeats the body
when the branch block takes an edge to a member of the loop.  The two agree
exactly when the printed text is the branch block's own condition and the edge
taken when it holds is the one that stays inside.
-/

namespace Airece

open StdText

variable (view : CompactFunctionView)

/-- The text under which the emitter shows the branch condition of a block: what
`region_condition` finds for a region that consists of the block alone. -/
def blockCondition (node : NodeId) (condition : ValueId) : Text :=
  regionCondition view { kind := .block, header := node, condition := condition }

/-- The condition that printed loop lines test. -/
def loopTest (lines : List PseudoLine) : Option Text :=
  lines.findSome? fun
    | .whileOpen condition _ => some condition
    | .doClose condition => some condition
    | _ => none

/-- An edge is the one taken when the condition texts have these truth values. -/
def takenUnder (truth : Text → Bool) (t : ControlTransfer) : Prop :=
  t.conditional = true ∧
    truth (blockCondition view t.source t.condition) = t.conditionWhenTrue

variable (region : ControlRegion)

/-- **The polarity claim for one region.**  If the region is printed as a loop,
then under every assignment of truth to condition texts the printed test holds
exactly when the edge that the branch block takes leads to a loop member.  The
branch block is the header of a while loop and the latch of a do-while loop,
which is what `certified_simple_loop` reports as the latch. -/
def LoopTextFaithful : Prop :=
  ∀ body latch, certifiedSimpleLoop view region = some (body, latch) →
    ∀ test, loopTest (renderLoop view region body) = some test →
      ∀ truth : Text → Bool, ∀ t ∈ nodeTransfers view latch, takenUnder view truth t →
        (truth test = true ↔ t.target ∈ region.nodes)

/-- The printed condition belongs to the branch block, and its edges are the
right way round: the true edge stays in the loop and the false edge leaves. -/
def TrueEdgeStaysInside : Prop :=
  ∀ body latch, certifiedSimpleLoop view region = some (body, latch) →
    ∀ t ∈ nodeTransfers view latch, t.conditional = true →
      regionCondition view region = blockCondition view latch t.condition ∧
        (t.conditionWhenTrue = true ↔ t.target ∈ region.nodes)

theorem loopTest_renderPseudoNode_append (node : NodeId) (indent : Text) (rest : List PseudoLine) :
    loopTest (renderPseudoNode view node indent ++ rest) = loopTest rest := by
  unfold renderPseudoNode loopTest
  rw [List.findSome?_append, List.findSome?_map]
  have hnone : List.findSome? ((fun
      | .whileOpen condition _ => some condition
      | .doClose condition => some condition
      | _ => none) ∘ fun s => PseudoLine.statement indent s.1 s.2)
        (throughTerminal (printedStatements view node)) = (none : Option Text) := by
    rw [List.findSome?_eq_none_iff]
    intro s _
    rfl
  rw [hnone, Option.none_or]

/-- Either form of loop is printed with the condition text of its region. -/
theorem loopTest_renderLoop (body : NodeId) :
    loopTest (renderLoop view region body) = some (regionCondition view region) := by
  unfold renderLoop
  by_cases hwhile : region.kind = .whileLoop
  · rw [if_pos hwhile]
    rfl
  · rw [if_neg hwhile]
    have htail := loopTest_renderPseudoNode_append view body "        "
      [.doClose (regionCondition view region)]
    simpa [loopTest] using htail

theorem source_of_mem_nodeTransfers {view : CompactFunctionView} {node : NodeId}
    {t : ControlTransfer} (h : t ∈ nodeTransfers view node) : t.source = node := by
  simp only [nodeTransfers, List.mem_filter, Bool.and_eq_true, beq_iff_eq] at h
  exact h.2.1.1

/-- A truth assignment can set two different texts independently. -/
theorem exists_truth_of_ne {a b : Text} (hne : a ≠ b) (x y : Bool) :
    ∃ truth : Text → Bool, truth a = x ∧ truth b = y :=
  ⟨fun c => if c = a then x else y, if_pos rfl, if_neg (Ne.symm hne)⟩

/-- **Loop polarity, exactly.**  A region is printed as a loop with the meaning
of its CFG branch if and only if the printed condition is the branch block's own
and its true edge is the one that stays inside. -/
theorem loopTextFaithful_iff : LoopTextFaithful view region ↔ TrueEdgeStaysInside view region := by
  constructor
  · intro hfaithful body latch hcert t ht hcond
    have hsource := source_of_mem_nodeTransfers ht
    have hmeaning := hfaithful body latch hcert _ (loopTest_renderLoop view region body)
    have htext : regionCondition view region = blockCondition view latch t.condition := by
      by_contra hne
      -- the two texts are independent, so the printed one can be made wrong
      obtain ⟨truth, hprinted, hown⟩ := exists_truth_of_ne hne
        (!decide (t.target ∈ region.nodes)) t.conditionWhenTrue
      have hiff := hmeaning truth t ht ⟨hcond, by rw [hsource]; exact hown⟩
      rw [hprinted] at hiff
      by_cases hin : t.target ∈ region.nodes <;> simp [hin] at hiff
    refine ⟨htext, ?_⟩
    exact hmeaning (fun _ => t.conditionWhenTrue) t ht ⟨hcond, rfl⟩
  · intro hedges body latch hcert test htest truth t ht htaken
    obtain ⟨htext, hinside⟩ := hedges body latch hcert t ht htaken.1
    rw [loopTest_renderLoop, Option.some.injEq] at htest
    have hvalue : truth test = t.conditionWhenTrue := by
      rw [← htest, htext, ← source_of_mem_nodeTransfers ht]
      exact htaken.2
    rw [hvalue]
    exact hinside

/-- A counted loop as a compiler lays it out: the header leaves when the bound
is reached, so its true edge goes to the block after the loop. -/
def exitOnTrueLoop : ControlRegion :=
  { kind := .whileLoop, header := 1, join := 3, conditionNode := 1, condition := 5,
    nodes := [1, 2] }

/-- The function around `exitOnTrueLoop`. -/
def exitOnTrueView : CompactFunctionView :=
  { statements :=
      [{ kind := .branch, node := 0, text := "goto label_1004" },
       { kind := .branch, node := 1,
         text := "if rcx u>= 0xa:bits64 -> label_1020 else label_1010" },
       { kind := .memoryWrite, node := 2, text := "store64(rdx, rcx)" },
       { kind := .branch, node := 2, text := "goto label_1004" },
       { kind := .returnValue, node := 3, text := "return" }]
    control :=
      { blockOrder := [0, 1, 2, 3]
        regions := [exitOnTrueLoop]
        transfers :=
          [{ edge := 0, kind := .gotoLabel, source := 0, target := 1 },
           { edge := 1, kind := .breakLoop, source := 1, target := 3, condition := 5,
             conditional := true, conditionWhenTrue := true },
           { edge := 2, kind := .branchFalse, source := 1, target := 2, condition := 5,
             conditional := true },
           { edge := 3, kind := .continueLoop, source := 2, target := 1 },
           { edge := 4, kind := .returnFromFunction, source := 3,
             target := cfgInvalidId }] } }

/-- The printed loop `while (rcx u>= 0xa:bits64)` runs its body exactly when the
CFG leaves the loop. -/
theorem exitOnTrueLoop_inverted : ¬ LoopTextFaithful exitOnTrueView exitOnTrueLoop := by
  intro hfaithful
  have hinside := hfaithful 2 1 (by decide) "rcx u>= 0xa:bits64" (by decide)
    (fun _ => true)
    { edge := 1, kind := .breakLoop, source := 1, target := 3, condition := 5,
      conditional := true, conditionWhenTrue := true } (by decide) ⟨by decide, by decide⟩
  revert hinside
  decide

end Airece
