import IndagoRev.Airece.PseudoProgram

/-!
# Where the printed blocks lead

A printed block leaves its lines in one of four ways: always to the same place,
by one truth, by one index, or by the choice of one indirect jump.  `pieceExits`
reads that off the layout: the form of the head, and the head printed after it.
Following the text gives the same answer, so control flow is preserved exactly
when every layout exit agrees with the transfers of its block.
-/

namespace Airece

open StdText List

/-- How a printed block is left. -/
inductive BlockExit where
  | always (exit : Exit)
  | branch (condition : Text) (whenTrue whenFalse : Exit)
  | select (index : Text) (choose : Int → Option NodeId)
  | pick (node : NodeId) (choose : NodeId → Option NodeId)

/-- Control enters a block, or is stuck when there is none. -/
def enter : Option NodeId → Exit
  | some node => .block node
  | none => .stuck

/-- The place that a block exit leads to under an evaluation. -/
def BlockExit.eval (env : Evaluation) : BlockExit → Exit
  | .always exit => exit
  | .branch condition a b => if env.truth condition then a else b
  | .select index choose => enter (choose (env.index index))
  | .pick node choose => enter (choose (env.pick node))

/-- The block that a goto reaches. -/
def landing (labels : List NodeId) (target : NodeId) : Option NodeId :=
  if labels.contains target then some target else none

variable (view : CompactFunctionView)

/-- Where a transfer printed on its own leads. -/
def transferExit (labels : List NodeId) (t : ControlTransfer) : Exit :=
  if view.control.blockOrder.contains t.target then gotoExit labels t.target
  else .outside t.rawTarget

/-- A terminal block ends the function whatever is printed after it. -/
def orEnded (node : NodeId) (exit : BlockExit) : BlockExit :=
  if nodeIsTerminal view node then .always .ended else exit

/-- How a block with explicit transfers is left; without any, control falls to
the next head. -/
def fallbackExit (labels : List NodeId) (next : Option NodeId) (node : NodeId) : BlockExit :=
  match switchRegionFor view node with
  | some region =>
    .select (regionCondition view region) (fun v => landing labels (selectCase region v))
  | none =>
    match fallbackBranch view node with
    | some (t, f) =>
      .branch (blockCondition view node t.condition)
        (gotoExit labels t.target) (gotoExit labels f.target)
    | none =>
      match plainTransfers view node with
      | t :: _ => .always (transferExit view labels t)
      | [] =>
        if (indirectTargets view node).isEmpty then .always (enter next)
        else .pick node (fun v =>
          if (indirectTargets view node).contains v then landing labels v else none)

/-- The blocks printed in the lines of one head, each with the way it is left.
The arms of a conditional and of a switch fall to the next head. -/
def pieceExits (labels : List NodeId)
    (next : Option NodeId) (node : NodeId) : List (NodeId × BlockExit) :=
  match structuredLoop view node with
  | some _ => []
  | none =>
    match structuredSwitch view node with
    | some region =>
      (node, orEnded view node
        (.select (regionCondition view region) (fun v => some (selectCase region v)))) ::
      (switchTargets region).map
        (fun target => (target, orEnded view target (.always (enter next))))
    | none =>
      match structuredIf view node, ifArms view node with
      | some region, some (t, f) =>
        [(node, orEnded view node (.branch (regionCondition view region) (.block t) (.block f))),
          (t, orEnded view t (.always (enter next))),
          (f, orEnded view f (.always (enter next)))]
      | _, _ => [(node, orEnded view node (fallbackExit view labels next node))]

/-- The layout exits of a sequence of heads. -/
def exitsFrom (view : CompactFunctionView) (labels : List NodeId) :
    List NodeId → List (NodeId × BlockExit)
  | [] => []
  | node :: rest => pieceExits view labels rest.head? node ++ exitsFrom view labels rest

/-- Every printed block that is not in a loop, with the way it is left. -/
def blockExits : List (NodeId × BlockExit) :=
  exitsFrom view (printedHeads view) (printedHeads view)

variable (view : CompactFunctionView) (labels : List NodeId) (env : Evaluation)

attribute [local simp] runLines

/-- A block stops at a terminal statement exactly when it is terminal. -/
theorem any_throughTerminal (statements : List (SemanticStatement × Nat)) :
    (throughTerminal statements).any (fun s => s.1.isTerminal) =
      statements.any (fun s => s.1.isTerminal) := by
  induction statements with
  | nil => rfl
  | cons s rest ih =>
    by_cases hterminal : s.1.isTerminal = true
    · simp [throughTerminal, hterminal]
    · simp [throughTerminal, hterminal, ih]

theorem isPrinted_of_isTerminal {s : SemanticStatement} (h : s.isTerminal = true) :
    s.isPrinted = true := by
  cases hkind : s.kind <;> simp_all [SemanticStatement.isTerminal, SemanticStatement.isPrinted]

/-- Whether a block is terminal can be read off its printed statements. -/
theorem any_printedStatements (node : NodeId) :
    (printedStatements view node).any (fun s => s.1.isTerminal) = nodeIsTerminal view node := by
  rw [Bool.eq_iff_iff]
  simp only [any_eq_true, nodeIsTerminal, printedStatements, mem_filter,
    Bool.and_eq_true, beq_iff_eq]
  constructor
  · rintro ⟨s, ⟨hmem, hnode, -⟩, hterminal⟩
    exact ⟨s.1, fst_mem_of_mem_zipIdx hmem, hnode, hterminal⟩
  rintro ⟨s, hmem, hnode, hterminal⟩
  obtain ⟨i, hi⟩ := mem_iff_getElem?.mp hmem
  exact ⟨(s, i), ⟨mk_mem_zipIdx_iff_getElem?.mpr hi, hnode,
    isPrinted_of_isTerminal hterminal⟩, hterminal⟩

/-- Executing statements either ends at a terminal one or passes them all. -/
theorem runLines_statements (indent : Text) (statements : List (SemanticStatement × Nat))
    (rest : List PseudoLine) : runLines labels env .execute
        (statements.map (fun s => .statement indent s.1 s.2) ++ rest) =
      if statements.any (fun s => s.1.isTerminal) then .ended
      else runLines labels env .execute rest := by
  induction statements with
  | nil => rfl
  | cons s more ih =>
    by_cases hterminal : s.1.isTerminal = true
    · simp [runLines, hterminal]
    · have hpasses : s.1.isTerminal = false := by simpa using hterminal
      rw [any_cons, hpasses, Bool.false_or, ← ih]
      simp [runLines, hpasses]

/-- Executing the statements of a block ends if the block is terminal and goes
on to the line after them otherwise. -/
theorem runLines_renderPseudoNode (node : NodeId) (indent : Text) (rest : List PseudoLine) :
    runLines labels env .execute (renderPseudoNode view node indent ++ rest) =
      if nodeIsTerminal view node then .ended else runLines labels env .execute rest := by
  rw [renderPseudoNode, runLines_statements, any_throughTerminal, any_printedStatements]

/-- Skipping to the end of a region passes every line that does not close it. -/
theorem runLines_skip (lines : List PseudoLine) (h : ∀ l ∈ lines, l ≠ .close)
    (rest : List PseudoLine) : runLines labels env .skipToClose (lines ++ .close :: rest) =
      runLines labels env .execute rest := by
  induction lines with
  | nil => rfl
  | cons l more ih =>
    have hl : l ≠ .close := h l mem_cons_self
    have hmore := ih (fun x hx => h x (mem_cons_of_mem _ hx))
    cases l <;> first | exact hmore | exact absurd rfl hl

/-- An arm of a switch ends, or breaks to the line after the switch. -/
theorem runLines_arm {more : List PseudoLine} (h : ∀ l ∈ more, l ≠ .close)
    (target : NodeId) (rest : List PseudoLine) :
    runLines labels env .execute (renderSwitchArm view target ++ (more ++ .close :: rest)) =
      if nodeIsTerminal view target then .ended else runLines labels env .execute rest := by
  rw [renderSwitchArm, append_assoc, runLines_renderPseudoNode]
  by_cases hterminal : nodeIsTerminal view target = true
  · rw [if_pos hterminal, if_pos hterminal]
  · rw [if_neg hterminal, if_neg hterminal, if_neg hterminal]
    exact runLines_skip labels env more h rest

theorem runLines_seek_arm (value : Int) (target : NodeId) (rest : List PseudoLine) :
    runLines labels env (.seekCase value) (renderSwitchArm view target ++ rest) =
      runLines labels env (.seekCase value) rest := by
  have hstatements : ∀ (statements : List (SemanticStatement × Nat)) (after : List PseudoLine),
      runLines labels env (.seekCase value)
        (statements.map (fun s => .statement "        " s.1 s.2) ++ after) =
          runLines labels env (.seekCase value) after := by
    intro statements after
    induction statements with
    | nil => rfl
    | cons s more ih => exact ih
  rw [renderSwitchArm, renderPseudoNode, append_assoc, hstatements]
  by_cases hterminal : nodeIsTerminal view target = true
  · simp [hterminal]
  · simp [hterminal, runLines]

/-- A structured switch selects the block of its mapping, whatever follows. -/
theorem runLines_seek_cases (value : Int) (cases : List ControlSwitchCase)
    (target : NodeId) (rest : List PseudoLine) : runLines labels env (.seekCase value)
        (cases.flatMap
          (fun item => .caseLabel item.value item.target :: renderSwitchArm view item.target) ++
          .defaultLabel target :: rest) =
      .block (match cases.find? (fun item => item.value == value) with
        | some item => item.target
        | none => target) := by
  induction cases with
  | nil => rfl
  | cons item more ih =>
    rw [flatMap_cons, cons_append, cons_append, append_assoc]
    by_cases hvalue : item.value = value
    · simp [runLines, hvalue]
    · simpa [runLines, hvalue, runLines_seek_arm] using ih

/-- The explicit gotos of a switch go to the block of its mapping. -/
theorem runLines_caseGotos (index : Text) (cases : List ControlSwitchCase)
    (target : NodeId) (rest : List PseudoLine) : runLines labels env .execute
        (cases.map (fun item => .caseGoto index item.value item.target) ++
          .defaultGoto target :: rest) =
      gotoExit labels (match cases.find? (fun item => item.value == env.index index) with
        | some item => item.target
        | none => target) := by
  induction cases with
  | nil => rfl
  | cons item more ih =>
    by_cases hvalue : env.index index = item.value
    · simp [runLines, hvalue]
    · have hother : ¬ item.value = env.index index := Ne.symm hvalue
      simpa [runLines, hvalue, hother] using ih

variable (target : NodeId)

/-- A goto enters the block that its label defines, or is stuck. -/
theorem gotoExit_eq_enter : gotoExit labels target = enter (landing labels target) := by
  by_cases hmem : target ∈ labels <;> simp [gotoExit, landing, enter, hmem]

variable {rest : List PseudoLine} {next : Option NodeId}

/-- Following the explicit transfers of a block leads where its fallback exit
says. -/
theorem runLines_renderFallbackTransfers
    (hrest : runLines labels env .execute rest = enter next) {node : NodeId}
    (hterminal : nodeIsTerminal view node = false) :
    runLines labels env .execute (renderFallbackTransfers view node ++ rest) =
      (fallbackExit view labels next node).eval env := by
  unfold renderFallbackTransfers fallbackExit
  rw [hterminal]
  cases hswitch : switchRegionFor view node with
  | some region =>
    simp only [Bool.false_eq_true, if_false, append_assoc, singleton_append]
    rw [runLines_caseGotos, gotoExit_eq_enter]
    rfl
  | none =>
    cases hbranch : fallbackBranch view node with
    | some arms =>
      by_cases htruth : env.truth (blockCondition view node arms.1.condition) = true
      · have hshown := htruth
        rw [blockCondition] at hshown
        simp [runLines, BlockExit.eval, htruth, hshown]
      · have hshown := htruth
        rw [blockCondition] at hshown
        simp [runLines, BlockExit.eval, htruth, hshown]
    | none =>
      cases hplain : plainTransfers view node with
      | cons t more =>
        by_cases hlocal : t.target ∈ view.control.blockOrder <;>
          simp [runLines, transferLine, transferExit, BlockExit.eval, hlocal]
      | nil =>
        by_cases hempty : (indirectTargets view node).isEmpty = true
        · simpa [hempty, BlockExit.eval] using hrest
        · by_cases hmem : env.pick node ∈ indirectTargets view node <;>
            simp [hempty, runLines, BlockExit.eval, sortedTargets, hmem, gotoExit_eq_enter, enter]

/-- Every place of some lines where a block begins, with the run from there. -/
def codeRuns (labels : List NodeId) (lines : List PseudoLine) :
    List (NodeId × (Evaluation → Exit)) :=
  (blockCode lines).map (fun code => (code.1, fun env => runLines labels env .execute code.2))

/-- A list of layout exits as a list of runs. -/
def exitRuns (exits : List (NodeId × BlockExit)) : List (NodeId × (Evaluation → Exit)) :=
  exits.map (fun x => (x.1, fun env => x.2.eval env))

theorem codeRuns_pass {lines : List PseudoLine} (h : ∀ l ∈ lines, l.opens = none)
    (rest : List PseudoLine) : codeRuns labels (lines ++ rest) = codeRuns labels rest := by
  induction lines with
  | nil => rfl
  | cons l more ih =>
    rw [← ih (fun x hx => h x (mem_cons_of_mem _ hx))]
    simp [codeRuns, blockCode, h l mem_cons_self]

theorem codeRuns_open {line : PseudoLine} {node : NodeId}
    (h : line.opens = some node) (hloop : startsLoop rest = false) :
    codeRuns labels (line :: rest) =
      (node, fun env => runLines labels env .execute rest) :: codeRuns labels rest := by
  simp [codeRuns, blockCode, h, hloop]

theorem opens_renderPseudoNode (node : NodeId) (indent : Text) :
    ∀ l ∈ renderPseudoNode view node indent, l.opens = none := by
  intro l hl
  obtain ⟨s, -, rfl⟩ := mem_map.mp hl
  rfl

theorem opens_renderSwitchArm : ∀ l ∈ renderSwitchArm view target, l.opens = none := by
  intro l hl
  rcases mem_append.mp hl with hstatement | hbreak
  · exact opens_renderPseudoNode view target _ l hstatement
  by_cases hterminal : nodeIsTerminal view target = true
  · simp [hterminal] at hbreak
  · simp [hterminal] at hbreak
    subst hbreak
    rfl

theorem opens_renderFallbackTransfers (node : NodeId) :
    ∀ l ∈ renderFallbackTransfers view node, l.opens = none := by
  intro l hl
  have htransfer := isTransfer_of_mem_renderFallbackTransfers hl
  cases l <;> first | rfl | cases htransfer

theorem ne_close_renderSwitchArm : ∀ l ∈ renderSwitchArm view target, l ≠ .close := by
  intro l hl
  rcases mem_append.mp hl with hstatement | hbreak
  · obtain ⟨s, -, rfl⟩ := mem_map.mp hstatement
    exact PseudoLine.noConfusion
  by_cases hterminal : nodeIsTerminal view target = true
  · simp [hterminal] at hbreak
  · simp [hterminal] at hbreak
    subst hbreak
    exact PseudoLine.noConfusion

theorem startsLoop_renderPseudoNode (node : NodeId) (indent : Text) (h : startsLoop rest = false) :
    startsLoop (renderPseudoNode view node indent ++ rest) = false := by
  unfold renderPseudoNode
  cases throughTerminal (printedStatements view node) with
  | nil => exact h
  | cons s more => rfl

theorem startsLoop_renderSwitchArm
    (h : startsLoop rest = false) : startsLoop (renderSwitchArm view target ++ rest) = false := by
  rw [renderSwitchArm, append_assoc]
  apply startsLoop_renderPseudoNode
  by_cases hterminal : nodeIsTerminal view target = true
  · simpa [hterminal] using h
  · simp [hterminal, startsLoop]

theorem eval_arm (hrest : ∀ env, runLines labels env .execute rest = enter next) (target : NodeId)
    (more : List PseudoLine) (h : ∀ l ∈ more, l ≠ .close) : (fun env => runLines labels env .execute
      (renderSwitchArm view target ++ (more ++ .close :: rest))) =
    fun env => (orEnded view target (.always (enter next))).eval env := by
  funext env
  rw [runLines_arm view labels env h, hrest, orEnded]
  split <;> rfl

theorem codeRuns_switchArms (hrest : ∀ env, runLines labels env .execute rest = enter next)
    (cases : List ControlSwitchCase) (target : NodeId) : codeRuns labels (cases.flatMap
        (fun item => .caseLabel item.value item.target :: renderSwitchArm view item.target) ++
          .defaultLabel target :: (renderSwitchArm view target ++ .close :: rest)) =
      exitRuns ((cases.map (·.target) ++ [target]).map
        (fun n => (n, orEnded view n (.always (enter next))))) ++ codeRuns labels rest := by
  induction cases with
  | nil =>
    have harm := eval_arm view labels hrest target [] (by simp)
    have hclose : codeRuns labels (.close :: rest) = codeRuns labels rest := rfl
    rw [flatMap_nil, nil_append, codeRuns_open labels (by rfl)
      (startsLoop_renderSwitchArm view target rfl),
      codeRuns_pass labels (opens_renderSwitchArm view target), hclose]
    simpa [exitRuns] using harm
  | cons item more ih =>
    -- everything after this arm up to the closing line of the switch
    have hopen : ∀ l ∈ more.flatMap (fun item =>
        .caseLabel item.value item.target :: renderSwitchArm view item.target) ++
          .defaultLabel target :: renderSwitchArm view target, l ≠ .close := by
      intro l hl
      simp only [mem_append, mem_flatMap, mem_cons] at hl
      rcases hl with ⟨other, -, rfl | harm⟩ | rfl | harm
      · exact PseudoLine.noConfusion
      · exact ne_close_renderSwitchArm view other.target l harm
      · exact PseudoLine.noConfusion
      · exact ne_close_renderSwitchArm view target l harm
    have harm := eval_arm view labels hrest item.target _ hopen
    have hstart : startsLoop (more.flatMap (fun item =>
        .caseLabel item.value item.target :: renderSwitchArm view item.target) ++
          .defaultLabel target :: (renderSwitchArm view target ++ .close :: rest)) = false := by
      cases more <;> rfl
    rw [flatMap_cons, cons_append, cons_append, append_assoc,
      codeRuns_open labels (by rfl) (startsLoop_renderSwitchArm view item.target hstart),
      codeRuns_pass labels (opens_renderSwitchArm view item.target), ih]
    simpa [exitRuns] using harm

theorem codeRuns_switch (hrest : ∀ env, runLines labels env .execute rest = enter next)
    (region : ControlRegion) (node : NodeId) :
    codeRuns labels (.label node :: (renderSwitch view region node ++ rest)) =
      exitRuns ((node, orEnded view node (.select (regionCondition view region)
          (fun v => some (selectCase region v)))) :: (switchTargets region).map
          (fun target => (target, orEnded view target (.always (enter next))))) ++
        codeRuns labels rest := by
  have harms := codeRuns_switchArms view labels hrest region.switchCases region.switchDefault
  have hpass : ∀ tail, codeRuns labels (.switchOpen (regionCondition view region) :: tail) =
      codeRuns labels tail := fun _ => rfl
  have hlines : renderSwitch view region node ++ rest =
      renderPseudoNode view node "    " ++ (.switchOpen (regionCondition view region) ::
        (region.switchCases.flatMap (fun item =>
            .caseLabel item.value item.target :: renderSwitchArm view item.target) ++
          .defaultLabel region.switchDefault ::
            (renderSwitchArm view region.switchDefault ++ .close :: rest))) := by
    simp [renderSwitch]
  rw [hlines, codeRuns_open labels (by rfl) (startsLoop_renderPseudoNode view node _ rfl),
    codeRuns_pass labels (opens_renderPseudoNode view node _), hpass, harms]
  have hheader : ∀ env, runLines labels env .execute
      (renderPseudoNode view node "    " ++ (.switchOpen (regionCondition view region) ::
        (region.switchCases.flatMap (fun item =>
            .caseLabel item.value item.target :: renderSwitchArm view item.target) ++
          .defaultLabel region.switchDefault ::
            (renderSwitchArm view region.switchDefault ++ .close :: rest)))) =
      (orEnded view node (.select (regionCondition view region)
        (fun v => some (selectCase region v)))).eval env := by
    intro env
    rw [runLines_renderPseudoNode, orEnded, runLines, runLines_seek_cases]
    split <;> rfl
  simp only [hheader]
  rfl

theorem codeRuns_if (hrest : ∀ env, runLines labels env .execute rest = enter next)
    (region : ControlRegion) (node t f : NodeId) :
    codeRuns labels (.label node :: (renderIf view region node t f ++ rest)) =
      exitRuns [(node, orEnded view node
          (.branch (regionCondition view region) (.block t) (.block f))),
        (t, orEnded view t (.always (enter next))),
        (f, orEnded view f (.always (enter next)))] ++ codeRuns labels rest := by
  have helse : ∀ env, runLines labels env .execute
      (renderPseudoNode view f "        " ++ .close :: rest) =
        (orEnded view f (.always (enter next))).eval env := by
    intro env
    rw [runLines_renderPseudoNode, orEnded, runLines, hrest]
    split <;> rfl
  have hthen : ∀ env, runLines labels env .execute
      (renderPseudoNode view t "        " ++ .elseOpen f ::
        (renderPseudoNode view f "        " ++ .close :: rest)) =
        (orEnded view t (.always (enter next))).eval env := by
    intro env
    have hskip := runLines_skip labels env
      (renderPseudoNode view f "        ") (fun l hl => by
        obtain ⟨s, -, rfl⟩ := mem_map.mp hl
        exact PseudoLine.noConfusion) rest
    rw [runLines_renderPseudoNode, orEnded, runLines, hskip, hrest]
    split <;> rfl
  have hheader : ∀ env, runLines labels env .execute
      (renderPseudoNode view node "    " ++ .ifOpen (regionCondition view region) t f ::
        (renderPseudoNode view t "        " ++ .elseOpen f ::
          (renderPseudoNode view f "        " ++ .close :: rest))) =
      (orEnded view node
        (.branch (regionCondition view region) (.block t) (.block f))).eval env := by
    intro env
    rw [runLines_renderPseudoNode, orEnded, runLines]
    split
    · rfl
    · by_cases htruth : env.truth (regionCondition view region) = true <;>
        simp [BlockExit.eval, htruth]
  have hlines : renderIf view region node t f ++ rest =
      renderPseudoNode view node "    " ++ .ifOpen (regionCondition view region) t f ::
        (renderPseudoNode view t "        " ++ .elseOpen f ::
          (renderPseudoNode view f "        " ++ .close :: rest)) := by
    simp [renderIf]
  rw [hlines, codeRuns_open labels (by rfl) (startsLoop_renderPseudoNode view node _ rfl),
    codeRuns_pass labels (opens_renderPseudoNode view node _),
    codeRuns_open labels (by rfl) (startsLoop_renderPseudoNode view t _ rfl),
    codeRuns_pass labels (opens_renderPseudoNode view t _),
    codeRuns_open labels (by rfl) (startsLoop_renderPseudoNode view f _ rfl),
    codeRuns_pass labels (opens_renderPseudoNode view f _)]
  simp only [helse, hthen, hheader]
  rfl

theorem codeRuns_plain (hrest : ∀ env, runLines labels env .execute rest = enter next)
    (hloop : startsLoop rest = false) (node : NodeId) :
    codeRuns labels (.label node :: (renderPlain view node ++ rest)) =
      exitRuns [(node, orEnded view node (fallbackExit view labels next node))] ++
        codeRuns labels rest := by
  have hfallback : ∀ env, runLines labels env .execute
      (renderPseudoNode view node "    " ++ (renderFallbackTransfers view node ++ rest)) =
      (orEnded view node (fallbackExit view labels next node)).eval env := by
    intro env
    rw [runLines_renderPseudoNode, orEnded]
    by_cases hterminal : nodeIsTerminal view node = true
    · rw [if_pos hterminal, if_pos hterminal]
      rfl
    · rw [if_neg hterminal, if_neg hterminal,
        runLines_renderFallbackTransfers view labels env (hrest env)
          (Bool.eq_false_iff.mpr hterminal)]
  have hopens : ∀ l ∈ renderPseudoNode view node "    " ++
      renderFallbackTransfers view node, l.opens = none := by
    intro l hl
    rcases mem_append.mp hl with h | h
    · exact opens_renderPseudoNode view node _ l h
    · exact opens_renderFallbackTransfers view node l h
  unfold renderPlain
  by_cases hempty : (renderPseudoNode view node "    " ++
      renderFallbackTransfers view node).isEmpty = true
  · -- nothing to print: the remark stands in for the lines, and control passes it
    have hnil := isEmpty_iff.mp hempty
    have hrun : ∀ env, runLines labels env .execute (.noStatements :: rest) =
        (orEnded view node (fallbackExit view labels next node)).eval env := by
      intro env
      rw [← hfallback env, ← append_assoc, hnil]
      rfl
    have hpass : codeRuns labels (.noStatements :: rest) = codeRuns labels rest := rfl
    simp only [hempty, if_true, singleton_append]
    rw [codeRuns_open labels (by rfl) rfl, hpass]
    simp only [hrun]
    rfl
  · have hstart : startsLoop (renderPseudoNode view node "    " ++
        (renderFallbackTransfers view node ++ rest)) = false := by
      apply startsLoop_renderPseudoNode
      cases htransfers : renderFallbackTransfers view node with
      | nil => exact hloop
      | cons l more =>
        have hl := isTransfer_of_mem_renderFallbackTransfers
          (htransfers ▸ mem_cons_self : l ∈ renderFallbackTransfers view node)
        cases l <;> first | rfl | cases hl
    rw [if_neg hempty, append_assoc, codeRuns_open labels (by rfl) hstart,
      ← append_assoc, codeRuns_pass labels hopens, append_assoc]
    simp only [hfallback]
    rfl

/-- **One head.**  The places in the lines of a head, with the runs from there,
are its layout exits. -/
theorem codeRuns_renderBlock (hrest : ∀ env, runLines labels env .execute rest = enter next)
    (hloop : startsLoop rest = false) (node : NodeId) :
    codeRuns labels (.label node :: ((renderBlock view node).1 ++ rest)) =
      exitRuns (pieceExits view labels next node) ++ codeRuns labels rest := by
  rcases renderBlock_cases view node with
    ⟨region, body, latch, htable, _, _, hlines, _⟩ | ⟨region, htable, hno, _, _, hlines, _⟩ |
      ⟨region, t, f, htable, hno, hno', _, _, harms, hlines, _⟩ | ⟨hplain, hlines, _⟩
  · rw [hlines]
    have hskip : codeRuns labels (.label node :: (renderLoop view region body ++ rest)) =
        codeRuns labels (renderLoop view region body ++ rest) := by
      unfold renderLoop codeRuns
      split <;> rfl
    have hopens : ∀ l ∈ renderLoop view region body, l.opens = none := by
      intro l hl
      unfold renderLoop at hl
      split at hl <;> simp only [mem_append, mem_cons, not_mem_nil, or_false] at hl
      · rcases hl with (rfl | hl) | rfl
        · rfl
        · exact opens_renderPseudoNode view body _ l hl
        · rfl
      rcases hl with (rfl | hl) | rfl
      · rfl
      · exact opens_renderPseudoNode view body _ l hl
      · rfl
    rw [hskip, codeRuns_pass labels hopens]
    simp [pieceExits, htable, exitRuns]
  · rw [hlines, codeRuns_switch view labels hrest]
    simp [pieceExits, hno, htable]
  · rw [hlines, codeRuns_if view labels hrest]
    simp [pieceExits, hno, hno', htable, harms]
  · rw [hlines, codeRuns_plain view labels hrest hloop]
    simp only [isPlain, Bool.and_eq_true, Option.isNone_iff_eq_none] at hplain
    simp [pieceExits, hplain]

variable (heads : List NodeId)

/-- The lines printed for a sequence of heads, up to the end of the function. -/
def headLines : List PseudoLine :=
  heads.flatMap (fun node => .label node :: (renderBlock view node).1) ++ [.closeBrace]

/-- Falling onto the lines of some heads enters the first of them. -/
theorem runLines_headLines :
    runLines labels env .execute (headLines view heads) = enter heads.head? := by
  cases heads <;> rfl

theorem codeRuns_headLines :
    codeRuns labels (headLines view heads) = exitRuns (exitsFrom view labels heads) := by
  induction heads with
  | nil => rfl
  | cons node rest ih =>
    have hsplit : headLines view (node :: rest) =
        .label node :: ((renderBlock view node).1 ++ headLines view rest) := by
      simp [headLines]
    have hloop : startsLoop (headLines view rest) = false := by
      cases rest <;> rfl
    rw [hsplit, codeRuns_renderBlock view labels
      (fun env => runLines_headLines view labels env rest) hloop, ih]
    simp [exitsFrom, exitRuns]

/-- **The whole text.**  Following the text from every printed block that is not
in a loop leads where its layout exit says. -/
theorem codeRuns_pseudoLines :
    codeRuns (printedHeads view) (pseudoLines view) = exitRuns (blockExits view) := by
  have hopening : ∀ lines, codeRuns (printedHeads view) (.signature :: .openBrace :: lines) =
      codeRuns (printedHeads view) lines := fun _ => rfl
  rw [pseudoLines_eq, cons_append, cons_append, hopening]
  exact codeRuns_headLines view _ _

end Airece
