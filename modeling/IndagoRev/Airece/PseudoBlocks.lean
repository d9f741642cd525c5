import IndagoRev.Airece.PseudoLayout

/-!
# No lost, duplicated or dangling block

Two properties of the pseudo view as a document: the printable statements of
every block in the order appear exactly once, and every label that a goto names
is defined by exactly one label line.  Both are decided by the regions, the block
order and the transfers: by the leading regions that show a block, by what stands
after its first terminal statement, and by the jumps into a region.

The labels of the lines are the heads (`definedLabels_pseudoLines`), and those
that are named are the targets of plain heads (`namedLabels_pseudoLines`).  Main
result: `everyBlockOnce_iff`.
-/

namespace Airece

open StdText List

/-- The statement that a line prints, by its position in the view. -/
def PseudoLine.printedIndex : PseudoLine → Option Nat
  | .statement _ _ index => some index
  | _ => none

variable (lines : List PseudoLine)

/-- The statements that some lines print, by their positions in the view. -/
def printedIndices : List Nat :=
  lines.filterMap PseudoLine.printedIndex

/-- The node whose label a line defines. -/
def PseudoLine.definedLabel : PseudoLine → Option NodeId
  | .label node => some node
  | _ => none

/-- The nodes whose labels some lines define, once for every label line. -/
def definedLabels : List NodeId :=
  lines.filterMap PseudoLine.definedLabel

/-- The labels named by a goto, a `goto_one_of` or a switch fallback line. -/
def PseudoLine.namedLabels : PseudoLine → List NodeId
  | .caseGoto _ _ target => [target]
  | .defaultGoto target => [target]
  | .ifGoto _ t f => [t, f]
  | .gotoLabel target => [target]
  | .gotoOneOf _ targets => targets
  | _ => []

/-- **No lost, duplicated or dangling block**, as a property of the lines. -/
structure EveryBlockOnce (view : CompactFunctionView) : Prop where
  /-- Every printable statement of a block in the order is printed exactly once. -/
  statements : ∀ index s, view.statements[index]? = some s →
    s.node ∈ view.control.blockOrder → s.isPrinted = true →
    (printedIndices (pseudoLines view)).count index = 1
  /-- Every label that is named is defined by exactly one label line. -/
  labels : ∀ line ∈ pseudoLines view, ∀ target ∈ line.namedLabels,
    (definedLabels (pseudoLines view)).count target = 1

/-- The local blocks to which `render_fallback_transfers` prints a goto. -/
def fallbackTargets (view : CompactFunctionView) (node : NodeId) : List NodeId :=
  if nodeIsTerminal view node then []
  else match switchRegionFor view node with
  | some region => switchTargets region
  | none =>
    match fallbackBranch view node with
    | some (t, f) => [t.target, f.target]
    | none =>
      ((plainTransfers view node).map (·.target)).filter
        (fun target => view.control.blockOrder.contains target) ++
        sortedTargets (indirectTargets view node)

/-- The condition on the regions, the block order and the transfers.  A block
with something to print is shown by one leading block only, once, and has
nothing to print after a terminal statement.  A plain block jumps only to blocks
of the order that no region takes which leads before. -/
structure LaidOutOnce (view : CompactFunctionView) : Prop where
  once : ∀ node ∈ view.control.blockOrder, printedStatements view node ≠ [] →
    ∃ head, Leads view head ∧ (renderedNodes view head).count node = 1 ∧
      ∀ other, Leads view other → node ∈ renderedNodes view other → other = head
  terminalLast : ∀ node ∈ view.control.blockOrder,
    ∀ s ∈ (printedStatements view node).dropLast, s.1.isTerminal = false
  entered : ∀ head, Leads view head → isPlain view head = true →
    ∀ target ∈ fallbackTargets view head, ∃ i, view.control.blockOrder[i]? = some target ∧
      ∀ j, j < i → ∀ other, LeadsAt view j other → target ∉ absorbs view other

/-- Cutting at the first terminal statement keeps an initial part. -/
theorem throughTerminal_isPrefix (ss : List (SemanticStatement × Nat)) :
    throughTerminal ss <+: ss := by
  induction ss with
  | nil => exact prefix_refl _
  | cons s rest ih =>
    by_cases hterm : s.1.isTerminal = true
    · simp [throughTerminal, hterm]
    · simpa [throughTerminal, hterm] using ih

/-- Nothing is cut exactly when only the last statement may be terminal. -/
theorem throughTerminal_eq_self_iff (ss : List (SemanticStatement × Nat)) :
    throughTerminal ss = ss ↔ ∀ s ∈ ss.dropLast, s.1.isTerminal = false := by
  induction ss with
  | nil => simp [throughTerminal]
  | cons s rest ih =>
    cases rest with
    | nil => by_cases hterm : s.1.isTerminal = true <;> simp [throughTerminal, hterm]
    | cons s' rest =>
      by_cases hterm : s.1.isTerminal = true
      · simp [throughTerminal, hterm]
      have hstep : throughTerminal (s :: s' :: rest) =
          s :: throughTerminal (s' :: rest) := by
        rw [throughTerminal, if_neg hterm]
      rw [hstep, cons_inj_right, ih, dropLast_cons_cons]
      simp [hterm]

variable (view : CompactFunctionView)

/-- The positions that one rendering of a block prints. -/
def nodeIndices (node : NodeId) : List Nat :=
  (throughTerminal (printedStatements view node)).map (·.2)

variable {node : NodeId}

theorem mem_printedStatements {s : SemanticStatement × Nat} : s ∈ printedStatements view node ↔
      view.statements[s.2]? = some s.1 ∧ s.1.node = node ∧ s.1.isPrinted = true := by
  simp [printedStatements, mem_zipIdx_iff_getElem?]

/-- A position occurs in one rendering of a block at most once. -/
theorem nodeIndices_nodup (node : NodeId) : (nodeIndices view node).Nodup := by
  have hall : (view.statements.zipIdx.map (·.2)).Nodup := by
    rw [zipIdx_map_snd]
    exact nodup_range'
  refine hall.sublist ?_
  refine List.Sublist.map _ ?_
  exact (throughTerminal_isPrefix _).sublist.trans filter_sublist

variable {index : Nat}

/-- A position printed for a block belongs to a statement of that block. -/
theorem node_of_mem_nodeIndices (h : index ∈ nodeIndices view node) :
    ∃ s, view.statements[index]? = some s ∧ s.node = node ∧ s.isPrinted = true ∧
      (s, index) ∈ throughTerminal (printedStatements view node) := by
  obtain ⟨s, hs, rfl⟩ := mem_map.mp h
  have hmem := (mem_printedStatements view).mp ((throughTerminal_isPrefix _).subset hs)
  exact ⟨s.1, hmem.1, hmem.2.1, hmem.2.2, hs⟩

variable {s : SemanticStatement}

theorem count_nodeIndices_of_ne (hs : view.statements[index]? = some s) (hne : s.node ≠ node) :
    (nodeIndices view node).count index = 0 := by
  rw [count_eq_zero]
  intro hmem
  obtain ⟨s', hs', hnode, _⟩ := node_of_mem_nodeIndices view hmem
  rw [hs] at hs'
  exact hne (Option.some.inj hs' ▸ hnode)

/-- The statement lines of a block print the positions of the block. -/
theorem printedIndices_renderPseudoNode (node : NodeId) (indent : Text) :
    printedIndices (renderPseudoNode view node indent) = nodeIndices view node := by
  unfold printedIndices renderPseudoNode nodeIndices
  rw [filterMap_map]
  exact congrFun filterMap_eq_map _

theorem printedIndices_append (a b : List PseudoLine) :
    printedIndices (a ++ b) = printedIndices a ++ printedIndices b :=
  filterMap_append

theorem printedIndices_cons (line : PseudoLine) (rest : List PseudoLine) :
    printedIndices (line :: rest) = line.printedIndex.toList ++ printedIndices rest := by
  cases h : line.printedIndex <;> simp [printedIndices, h]

theorem printedIndices_nil : printedIndices [] = [] := rfl

variable (target : NodeId)

theorem printedIndices_renderSwitchArm :
    printedIndices (renderSwitchArm view target) = nodeIndices view target := by
  unfold renderSwitchArm
  rw [printedIndices_append, printedIndices_renderPseudoNode]
  by_cases hterm : nodeIsTerminal view target = true <;>
    simp [hterm, printedIndices, PseudoLine.printedIndex]

/-- The lines after the statements of a switch header print its arms. -/
theorem printedIndices_switchCases (items : List ControlSwitchCase) :
    printedIndices (items.flatMap (fun item =>
      .caseLabel item.value item.target :: renderSwitchArm view item.target)) =
      (items.map (·.target)).flatMap (nodeIndices view) := by
  induction items with
  | nil => rfl
  | cons item items ih =>
    rw [flatMap_cons, printedIndices_append, printedIndices_cons,
      printedIndices_renderSwitchArm, ih]
    rfl

variable {line : PseudoLine}

/-- Every line of the transfers of a block is a goto or a remark. -/
theorem mem_renderFallbackTransfers (h : line ∈ renderFallbackTransfers view node) :
    line.printedIndex = none ∧ line.definedLabel = none := by
  have htransfer := isTransfer_of_mem_renderFallbackTransfers h
  cases line <;> first | exact ⟨rfl, rfl⟩ | cases htransfer

theorem printedIndices_renderFallbackTransfers (node : NodeId) :
    printedIndices (renderFallbackTransfers view node) = [] :=
  filterMap_eq_nil_iff.mpr fun _ h => (mem_renderFallbackTransfers view h).1

/-- The lines of a plain head print the statements of the head. -/
theorem printedIndices_renderPlain (node : NodeId) :
    printedIndices (renderPlain view node) = nodeIndices view node := by
  have hboth : printedIndices (renderPseudoNode view node "    " ++
      renderFallbackTransfers view node) = nodeIndices view node := by
    rw [printedIndices_append, printedIndices_renderPseudoNode,
      printedIndices_renderFallbackTransfers, append_nil]
  unfold renderPlain
  by_cases hempty : (renderPseudoNode view node "    " ++
      renderFallbackTransfers view node).isEmpty = true
  · rw [List.isEmpty_iff.mp hempty] at hboth
    simp only [hempty, if_true, ← hboth]
    rfl
  · simp only [hempty]
    exact hboth

/-- The lines of a head print the positions of the blocks it lays out. -/
theorem printedIndices_renderBlock (node : NodeId) : printedIndices (renderBlock view node).1 =
      (renderedNodes view node).flatMap (nodeIndices view) := by
  rcases renderBlock_cases view node with
    ⟨region, body, latch, _, _, _, hlines, hnodes⟩ | ⟨region, _, _, _, _, hlines, hnodes⟩ |
      ⟨region, t, f, _, _, _, _, _, _, hlines, hnodes⟩ | ⟨_, hlines, hnodes⟩
  · rw [hlines, hnodes]
    unfold renderLoop
    split <;>
      simp [printedIndices_append, printedIndices_cons, printedIndices_nil,
        printedIndices_renderPseudoNode, PseudoLine.printedIndex]
  · rw [hlines, hnodes]
    simp [renderSwitch, switchTargets, printedIndices_append, printedIndices_cons,
      printedIndices_nil, printedIndices_renderPseudoNode, printedIndices_switchCases,
      printedIndices_renderSwitchArm, PseudoLine.printedIndex]
  · rw [hlines, hnodes]
    simp [renderIf, printedIndices_append, printedIndices_cons, printedIndices_nil,
      printedIndices_renderPseudoNode, PseudoLine.printedIndex]
  · rw [hlines, hnodes, printedIndices_renderPlain]
    simp

/-- Head by head, the pseudo view prints the positions of the blocks laid out. -/
theorem printedIndices_pseudoLines :
    printedIndices (pseudoLines view) = (laidOut view).flatMap (nodeIndices view) := by
  have hheads : ∀ heads : List NodeId,
      printedIndices (heads.flatMap (fun node => .label node :: (renderBlock view node).1)) =
        (heads.flatMap (renderedNodes view)).flatMap (nodeIndices view) := by
    intro heads
    induction heads with
    | nil => rfl
    | cons head heads ih =>
      rw [flatMap_cons, printedIndices_append, ih, flatMap_cons,
        flatMap_append, printedIndices_cons, printedIndices_renderBlock]
      rfl
  rw [pseudoLines_eq]
  simp only [cons_append, printedIndices_cons, printedIndices_append, hheads]
  simp [laidOut, printedIndices, PseudoLine.printedIndex]

/-- A statement is printed as often as its block is laid out, if one rendering
of the block prints it at all. -/
theorem count_printedIndices
    (hs : view.statements[index]? = some s) : (printedIndices (pseudoLines view)).count index =
      (laidOut view).count s.node * (nodeIndices view s.node).count index := by
  rw [printedIndices_pseudoLines]
  induction laidOut view with
  | nil => simp
  | cons node nodes ih =>
    rw [flatMap_cons, count_append, ih]
    by_cases hnode : node = s.node
    · subst hnode
      rw [count_cons_self, Nat.add_mul, Nat.one_mul, Nat.add_comm]
    · rw [count_nodeIndices_of_ne view hs (Ne.symm hnode), count_cons_of_ne hnode]
      omega

theorem labels_of_mem_renderPseudoNode {indent : Text}
    (h : line ∈ renderPseudoNode view node indent) :
    line.definedLabel = none ∧ line.namedLabels = [] := by
  obtain ⟨s, _, rfl⟩ := mem_map.mp h
  exact ⟨rfl, rfl⟩

theorem labels_of_mem_renderSwitchArm {target : NodeId} (h : line ∈ renderSwitchArm view target) :
    line.definedLabel = none ∧ line.namedLabels = [] := by
  rcases mem_append.mp h with hnode | hbreak
  · exact labels_of_mem_renderPseudoNode view hnode
  split at hbreak
  · simp at hbreak
  · rw [mem_singleton.mp hbreak]
    exact ⟨rfl, rfl⟩

/-- A structured head defines and names no label after its own. -/
theorem labels_of_mem_structured (hplain : isPlain view node = false)
    (h : line ∈ (renderBlock view node).1) : line.definedLabel = none ∧ line.namedLabels = [] := by
  rcases renderBlock_cases view node with
    ⟨region, body, latch, _, _, _, hlines, _⟩ | ⟨region, _, _, _, _, hlines, _⟩ |
      ⟨region, t, f, _, _, _, _, _, _, hlines, _⟩ | ⟨hp, _, _⟩
  · rw [hlines] at h
    unfold renderLoop at h
    split at h <;>
    · simp only [cons_append, mem_cons, mem_append, not_mem_nil,
        or_false] at h
      rcases h with rfl | hbody | rfl
      · exact ⟨rfl, rfl⟩
      · exact labels_of_mem_renderPseudoNode view hbody
      · exact ⟨rfl, rfl⟩
  · rw [hlines] at h
    simp only [renderSwitch, mem_append, mem_cons, mem_flatMap,
      not_mem_nil, or_false] at h
    rcases h with ((hheader | rfl | ⟨item, _, rfl | harm⟩) | rfl | hdefault) | rfl
    · exact labels_of_mem_renderPseudoNode view hheader
    · exact ⟨rfl, rfl⟩
    · exact ⟨rfl, rfl⟩
    · exact labels_of_mem_renderSwitchArm view harm
    · exact ⟨rfl, rfl⟩
    · exact labels_of_mem_renderSwitchArm view hdefault
    · exact ⟨rfl, rfl⟩
  · rw [hlines] at h
    simp only [renderIf, mem_append, mem_cons, not_mem_nil, or_false] at h
    rcases h with ((hheader | rfl | ht) | rfl | hf) | rfl
    · exact labels_of_mem_renderPseudoNode view hheader
    · exact ⟨rfl, rfl⟩
    · exact labels_of_mem_renderPseudoNode view ht
    · exact ⟨rfl, rfl⟩
    · exact labels_of_mem_renderPseudoNode view hf
    · exact ⟨rfl, rfl⟩
  · rw [hp] at hplain
    exact absurd hplain (by decide)

/-- A transfer printed on its own names its target if that is a local block. -/
theorem namedLabels_transferLine (t : ControlTransfer) (target : NodeId) :
    target ∈ (transferLine view t).namedLabels ↔
      t.target = target ∧ view.control.blockOrder.contains target = true := by
  unfold transferLine
  by_cases hlocal : view.control.blockOrder.contains t.target = true
  · rw [if_pos hlocal]
    constructor
    · intro h
      obtain rfl := mem_singleton.mp h
      exact ⟨rfl, hlocal⟩
    · rintro ⟨rfl, _⟩
      exact mem_singleton.mpr rfl
  · rw [if_neg hlocal]
    constructor
    · intro h
      simp [PseudoLine.namedLabels] at h
    · rintro ⟨rfl, h⟩
      exact absurd h hlocal

/-- The labels that the transfers of a block name are its fallback targets. -/
theorem namedLabels_renderFallbackTransfers (node target : NodeId) :
    (∃ line ∈ renderFallbackTransfers view node, target ∈ line.namedLabels) ↔
      target ∈ fallbackTargets view node := by
  by_cases hterminal : nodeIsTerminal view node = true
  · simp [renderFallbackTransfers, fallbackTargets, hterminal]
  cases hswitch : switchRegionFor view node with
  | some region =>
    simp [renderFallbackTransfers, fallbackTargets, hterminal, hswitch, switchTargets,
      PseudoLine.namedLabels, or_and_right, exists_or, eq_comm]
  | none =>
    cases hbranch : fallbackBranch view node with
    | some branch =>
      simp [renderFallbackTransfers, fallbackTargets, hterminal, hswitch, hbranch,
        PseudoLine.namedLabels]
    | none =>
      simp only [renderFallbackTransfers, fallbackTargets, if_neg hterminal, hswitch,
        hbranch, mem_append, or_and_right, exists_or]
      refine or_congr ?_ ?_
      · simp only [mem_map, mem_filter, exists_exists_and_eq_and]
        constructor
        · rintro ⟨t, ht, hnamed⟩
          obtain ⟨rfl, hlocal⟩ := (namedLabels_transferLine view t target).mp hnamed
          exact ⟨⟨t, ht, rfl⟩, hlocal⟩
        · rintro ⟨⟨t, ht, rfl⟩, hlocal⟩
          exact ⟨t, ht, (namedLabels_transferLine view t _).mpr ⟨rfl, hlocal⟩⟩
      · by_cases hempty : (indirectTargets view node).isEmpty = true
        · simp [List.isEmpty_iff.mp hempty, sortedTargets]
        · simp [hempty, PseudoLine.namedLabels]

/-- Only a head whose lines are its own fallback lines names labels. -/
theorem namedLabels_renderBlock (node target : NodeId) :
    (∃ line ∈ (renderBlock view node).1, target ∈ line.namedLabels) ↔
      isPlain view node = true ∧ target ∈ fallbackTargets view node := by
  by_cases hplain : isPlain view node = true
  · rcases renderBlock_cases view node with
      ⟨region, _, _, hloop, _⟩ | ⟨region, hswitch, _⟩ | ⟨region, _, _, hif, _⟩ | ⟨_, hlines, _⟩
    · simp [isPlain, hloop] at hplain
    · simp [isPlain, hswitch] at hplain
    · simp [isPlain, hif] at hplain
    rw [hlines, ← namedLabels_renderFallbackTransfers]
    simp only [hplain, true_and, renderPlain]
    constructor
    · rintro ⟨line, hline, hnamed⟩
      split at hline
      · rw [mem_singleton.mp hline] at hnamed
        simp [PseudoLine.namedLabels] at hnamed
      rcases mem_append.mp hline with hnode | hfallback
      · rw [(labels_of_mem_renderPseudoNode view hnode).2] at hnamed
        simp at hnamed
      · exact ⟨line, hfallback, hnamed⟩
    · rintro ⟨line, hline, hnamed⟩
      refine ⟨line, ?_, hnamed⟩
      rw [if_neg]
      · exact mem_append_right _ hline
      intro hempty
      rw [List.isEmpty_iff, append_eq_nil_iff] at hempty
      rw [hempty.2] at hline
      simp at hline
  · constructor
    · rintro ⟨line, hline, hnamed⟩
      rw [(labels_of_mem_structured view (Bool.eq_false_iff.mpr hplain) hline).2] at hnamed
      simp at hnamed
    · rintro ⟨hp, _⟩
      exact absurd hp hplain

theorem definedLabel_renderBlock
    (h : line ∈ (renderBlock view node).1) : line.definedLabel = none := by
  by_cases hplain : isPlain view node = true
  · rcases renderBlock_cases view node with
      ⟨region, _, _, hloop, _⟩ | ⟨region, hswitch, _⟩ | ⟨region, _, _, hif, _⟩ | ⟨_, hlines, _⟩
    · simp [isPlain, hloop] at hplain
    · simp [isPlain, hswitch] at hplain
    · simp [isPlain, hif] at hplain
    rw [hlines] at h
    unfold renderPlain at h
    dsimp only at h
    split at h
    · rw [mem_singleton.mp h]
      rfl
    · rcases mem_append.mp h with hnode | hfallback
      · exact (labels_of_mem_renderPseudoNode view hnode).1
      · exact (mem_renderFallbackTransfers view hfallback).2
  · exact (labels_of_mem_structured view (Bool.eq_false_iff.mpr hplain) h).1

theorem definedLabels_pseudoLines : definedLabels (pseudoLines view) = printedHeads view := by
  have hheads : ∀ heads : List NodeId,
      definedLabels (heads.flatMap (fun node => .label node :: (renderBlock view node).1)) =
        heads := by
    intro heads
    induction heads with
    | nil => rfl
    | cons head heads ih =>
      have hnone : definedLabels (renderBlock view head).1 = [] :=
        filterMap_eq_nil_iff.mpr fun _ h => definedLabel_renderBlock view h
      unfold definedLabels at hnone ih ⊢
      rw [flatMap_cons, filterMap_append, ih, filterMap_cons, hnone]
      rfl
  rw [pseudoLines_eq]
  have hmiddle := hheads (printedHeads view)
  unfold definedLabels at hmiddle ⊢
  rw [filterMap_append, filterMap_cons_none rfl, filterMap_cons_none rfl, hmiddle]
  exact append_nil _

/-- A label named anywhere is named by the fallback lines of a plain head. -/
theorem namedLabels_pseudoLines : (∃ line ∈ pseudoLines view, target ∈ line.namedLabels) ↔
      ∃ head ∈ printedHeads view, isPlain view head = true ∧
        target ∈ fallbackTargets view head := by
  rw [pseudoLines_eq]
  constructor
  · rintro ⟨line, hline, hnamed⟩
    simp only [cons_append, mem_cons, mem_append, mem_flatMap,
      not_mem_nil, or_false] at hline
    rcases hline with rfl | rfl | ⟨head, hhead, rfl | hline⟩ | rfl
    · simp [PseudoLine.namedLabels] at hnamed
    · simp [PseudoLine.namedLabels] at hnamed
    · simp [PseudoLine.namedLabels] at hnamed
    · exact ⟨head, hhead, (namedLabels_renderBlock view head target).mp ⟨line, hline, hnamed⟩⟩
    · simp [PseudoLine.namedLabels] at hnamed
  · rintro ⟨head, hhead, htarget⟩
    obtain ⟨line, hline, hnamed⟩ := (namedLabels_renderBlock view head target).mpr htarget
    refine ⟨line, ?_, hnamed⟩
    simp only [cons_append, mem_cons, mem_append, mem_flatMap]
    exact Or.inr (Or.inr (Or.inl ⟨head, hhead, Or.inr hline⟩))

/-- The statements of a block are printed once each exactly when the block is
laid out once and nothing follows its first terminal statement. -/
theorem statements_once_iff (node : NodeId) (hprinted : printedStatements view node ≠ []) :
    (∀ s ∈ printedStatements view node, (printedIndices (pseudoLines view)).count s.2 = 1) ↔
      (laidOut view).count node = 1 ∧
        ∀ s ∈ (printedStatements view node).dropLast, s.1.isTerminal = false := by
  have hcount : ∀ s ∈ printedStatements view node,
      (printedIndices (pseudoLines view)).count s.2 =
        (laidOut view).count node * (nodeIndices view node).count s.2 := by
    intro s hs
    obtain ⟨hget, hnode, _⟩ := (mem_printedStatements view).mp hs
    rw [← hnode]
    exact count_printedIndices view hget
  rw [← throughTerminal_eq_self_iff]
  constructor
  · intro hall
    obtain ⟨first, rest, hfirst⟩ := exists_cons_of_ne_nil hprinted
    have honce : (laidOut view).count node = 1 := by
      have h := hall first (by simp [hfirst])
      rw [hcount first (by simp [hfirst])] at h
      exact Nat.eq_one_of_mul_eq_one_right h
    refine ⟨honce, ?_⟩
    -- an initial part that contains every element is the whole list
    obtain ⟨cut, hcut⟩ := throughTerminal_isPrefix (printedStatements view node)
    cases cut with
    | nil => simpa using hcut
    | cons lost cut =>
      exfalso
      have hlost : lost ∈ printedStatements view node := by
        rw [← hcut]
        simp
      have hmem : lost.2 ∈ nodeIndices view node := by
        have h := hall lost hlost
        rw [hcount lost hlost, honce, Nat.one_mul] at h
        exact count_pos_iff.mp (by omega)
      have hnodup : ((printedStatements view node).map (·.2)).Nodup := by
        have hfull : (view.statements.zipIdx.map (·.2)).Nodup := by
          rw [zipIdx_map_snd]
          exact nodup_range'
        exact hfull.sublist (List.Sublist.map _ filter_sublist)
      rw [← hcut, map_append, nodup_append] at hnodup
      exact hnodup.2.2 lost.2 hmem lost.2 (by simp) rfl
  · rintro ⟨honce, hlast⟩ s hs
    rw [hcount s hs, honce, Nat.one_mul]
    refine count_eq_one_of_mem (nodeIndices_nodup view node) ?_
    unfold nodeIndices
    rw [hlast]
    exact mem_map_of_mem hs

/-- An element occurs once in what distinct lists contribute exactly when one of
them has it once and no other has it. -/
theorem count_flatMap_eq_one {f : NodeId → List NodeId} {heads : List NodeId} (h : heads.Nodup)
    (node : NodeId) : (heads.flatMap f).count node = 1 ↔ ∃ head ∈ heads, (f head).count node = 1 ∧
      ∀ other ∈ heads, node ∈ f other → other = head := by
  induction heads with
  | nil => simp
  | cons first rest ih =>
    rw [nodup_cons] at h
    have hne : ∀ head ∈ rest, first ≠ head := fun head hhead hsame => h.1 (hsame ▸ hhead)
    rw [flatMap_cons, count_append]
    by_cases hfirst : node ∈ f first
    · have hpos := count_pos_iff.mpr hfirst
      constructor
      · intro hone
        have hrest : (rest.flatMap f).count node = 0 := by omega
        refine ⟨first, mem_cons_self, by omega, ?_⟩
        intro other hother hshown
        rcases mem_cons.mp hother with rfl | hother
        · rfl
        · exact absurd (mem_flatMap.mpr ⟨other, hother, hshown⟩) (count_eq_zero.mp hrest)
      · rintro ⟨head, hhead, hone, honly⟩
        obtain rfl := honly first mem_cons_self hfirst
        rw [hone, count_eq_zero.mpr]
        intro hmem
        obtain ⟨other, hother, hshown⟩ := mem_flatMap.mp hmem
        exact hne other hother (honly other (mem_cons_of_mem _ hother) hshown).symm
    · rw [count_eq_zero.mpr hfirst, Nat.zero_add, ih h.2]
      constructor
      · rintro ⟨head, hhead, hone, honly⟩
        refine ⟨head, mem_cons_of_mem _ hhead, hone, ?_⟩
        intro other hother hshown
        rcases mem_cons.mp hother with rfl | hother
        · exact absurd hshown hfirst
        · exact honly other hother hshown
      · rintro ⟨head, hhead, hone, honly⟩
        rcases mem_cons.mp hhead with rfl | hhead
        · exact absurd (count_pos_iff.mp (by omega)) hfirst
        · exact ⟨head, hhead, hone, fun other hother => honly other (mem_cons_of_mem _ hother)⟩

/-- A block is laid out once exactly when one leading block shows it, once. -/
theorem laidOut_once_iff (node : NodeId) : (laidOut view).count node = 1 ↔
    ∃ head, Leads view head ∧ (renderedNodes view head).count node = 1 ∧
      ∀ other, Leads view other → node ∈ renderedNodes view other → other = head := by
  simp only [laidOut, count_flatMap_eq_one (printedHeads_nodup view), mem_printedHeads]

/-- **No lost, duplicated or dangling block, exactly.**  The pseudo view prints
every printable statement of the order once and defines every label it names
once, if and only if one leading region shows every block with something to
print, no block has anything to print after a terminal statement, and no plain
block jumps into a region. -/
theorem everyBlockOnce_iff : EveryBlockOnce view ↔ LaidOutOnce view := by
  constructor
  · intro h
    have hnode : ∀ node ∈ view.control.blockOrder, ∀ s ∈ printedStatements view node,
        (printedIndices (pseudoLines view)).count s.2 = 1 := by
      intro node hnode s hs
      obtain ⟨hget, rfl, hp⟩ := (mem_printedStatements view).mp hs
      exact h.statements s.2 s.1 hget hnode hp
    refine ⟨?_, ?_, ?_⟩
    · intro node hmem hprinted
      rw [← laidOut_once_iff]
      exact ((statements_once_iff view node hprinted).mp (hnode node hmem)).1
    · intro node hmem
      by_cases hprinted : printedStatements view node = []
      · simp [hprinted]
      · exact ((statements_once_iff view node hprinted).mp (hnode node hmem)).2
    intro head hhead hplain target htarget
    obtain ⟨line, hline, hnamed⟩ :=
      (namedLabels_pseudoLines view target).mpr
        ⟨head, (mem_printedHeads view).mpr hhead, hplain, htarget⟩
    have hone := h.labels line hline target hnamed
    rw [definedLabels_pseudoLines] at hone
    have hmem : target ∈ printedHeads view := count_pos_iff.mp (by omega)
    obtain ⟨i, hi⟩ := (mem_printedHeads view).mp hmem
    exact ⟨i, (leadsAt_iff view).mp hi⟩
  · intro h
    refine ⟨?_, ?_⟩
    · intro index s hget hmem hp
      have hs : (s, index) ∈ printedStatements view s.node :=
        (mem_printedStatements view).mpr ⟨hget, rfl, hp⟩
      have hprinted : printedStatements view s.node ≠ [] := ne_nil_of_mem hs
      exact (statements_once_iff view s.node hprinted).mpr
        ⟨(laidOut_once_iff view s.node).mpr (h.once s.node hmem hprinted),
          h.terminalLast s.node hmem⟩ (s, index) hs
    · intro line hline target hnamed
      obtain ⟨head, hhead, hplain, htarget⟩ :=
        (namedLabels_pseudoLines view target).mp ⟨line, hline, hnamed⟩
      rw [definedLabels_pseudoLines]
      obtain ⟨i, hi⟩ := h.entered head ((mem_printedHeads view).mp hhead) hplain target htarget
      exact count_eq_one_of_mem (printedHeads_nodup view)
        ((mem_printedHeads view).mpr ⟨i, (leadsAt_iff view).mpr hi⟩)

/-- The region of a jump table: two cases and the default of its bounds check. -/
def jumpTableRegion : ControlRegion :=
  { kind := .switchRegion, header := 1, join := 5, conditionNode := 1, condition := 7,
    nodes := [1], switchCases := [{ value := 0, target := 2 }, { value := 1, target := 3 }],
    switchDefault := 4, switchMappingComplete := true }

/-- A function with a bounds-checked jump table.  Block 0 compares the index and
goes to the default block 4 or to the indirect jump of block 1, and every arm
continues at block 5. -/
def jumpTableView : CompactFunctionView :=
  { statements :=
      [{ kind := .branch, node := 0,
         text := "if 0x1:bits64 u< rcx -> label_1040 else label_1010" },
       { kind := .indirectTarget, node := 1,
         text := "switch rcx targets: 0x1020, 0x1030" },
       { kind := .memoryWrite, node := 2, text := "store64(rdx, rcx)" },
       { kind := .memoryWrite, node := 3, text := "store64(rdx, r8)" },
       { kind := .memoryWrite, node := 4, text := "store64(rdx, r9)" },
       { kind := .returnValue, node := 5, text := "return" }]
    control :=
      { blockOrder := [0, 1, 3, 2, 4, 5]
        regions :=
          [{ kind := .ifElse, header := 0, join := 5, conditionNode := 0, condition := 6,
             nodes := [0] },
           jumpTableRegion]
        transfers :=
          [{ edge := 0, kind := .branchTrue, source := 0, target := 4, condition := 6,
             conditional := true, conditionWhenTrue := true },
           { edge := 1, kind := .branchFalse, source := 0, target := 1, condition := 6,
             conditional := true },
           { edge := 2, kind := .switchCase, source := 1, target := 2 },
           { edge := 3, kind := .switchCase, source := 1, target := 3 },
           { edge := 4, kind := .gotoLabel, source := 2, target := 5 },
           { edge := 5, kind := .gotoLabel, source := 3, target := 5 },
           { edge := 6, kind := .gotoLabel, source := 4, target := 5 },
           { edge := 7, kind := .returnFromFunction, source := 5,
             target := cfgInvalidId }] } }

/-- The bounds check names the label of block 4, which the switch absorbed as its
default arm: no line defines that label. -/
theorem jumpTable_label_dangling : ¬ EveryBlockOnce jumpTableView := by
  intro h
  have hcount := h.labels (.ifGoto "0x1:bits64 u< rcx" 4 1) (by decide) 4 (by decide)
  revert hcount
  decide

end Airece
