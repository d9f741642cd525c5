import IndagoRev.Airece.CompactView

/-!
# The pseudo view emitter

`render_pseudo` walks the block order once.  A block that heads a certified
region is printed as that region, and the blocks it absorbs are marked consumed;
every other block is printed with its label, its statements and explicit
gotos.

The emitter appends strings.  Here a line is first built as a `PseudoLine`,
one constructor for every form of line the emitter writes, and
`PseudoLine.text` is the string that is appended for it.
-/

namespace Airece

open StdText

/-- `qualified_label`. -/
def qualifiedLabel (view : CompactFunctionView) (node : NodeId) : Text :=
  "F" ++ hexDigits view.entry ++ "_L" ++ decimal node

/-- The text an `if` or `switch` statement carries for its condition. -/
def statementCondition (s : SemanticStatement) : Option Text :=
  if s.kind = .branch ∧ startsWith "if " s.text then
    (findFrom " -> " 3 s.text).map (fun stop => substr 3 (stop - 3) s.text)
  else if s.kind = .indirectTarget ∧ startsWith "switch " s.text then
    (findFrom " targets:" 7 s.text).map (fun stop => substr 7 (stop - 7) s.text)
  else none

/-- `region_condition`. -/
def regionCondition (view : CompactFunctionView) (region : ControlRegion) : Text :=
  let conditionNode :=
    if region.conditionNode = cfgInvalidId then region.header else region.conditionNode
  match (view.statements.filter (fun s => s.node == conditionNode)).findSome?
      statementCondition with
  | some text => text
  | none =>
    if region.condition = invalidId then "unknown_condition"
    else 'v' :: decimal region.condition

/-- A statement after which a block is left: the kinds that `node_is_terminal`
and the end of `render_pseudo_node` look for. -/
def SemanticStatement.isTerminal (s : SemanticStatement) : Bool :=
  s.kind == .returnValue || s.kind == .trap || s.kind == .fault ||
    (s.kind == .call && s.noReturn)

/-- The statements that `render_pseudo_node` prints at all. -/
def SemanticStatement.isPrinted (s : SemanticStatement) : Bool :=
  s.kind != .branch && s.kind != .indirectTarget &&
    !(s.kind == .unresolved &&
      (s.semanticId == "undefined_x86_flag" ||
        s.semanticId == "multi_bit_shift_of"))

/-- `node_is_terminal`. -/
def nodeIsTerminal (view : CompactFunctionView) (node : NodeId) : Bool :=
  view.statements.any (fun s => s.node == node && s.isTerminal)

/-- `transfer_of_kind`. -/
def transferOfKind (view : CompactFunctionView) (source : NodeId)
    (kind : ControlTransferKind) : Option ControlTransfer :=
  view.control.transfers.find? (fun t => t.source == source && t.kind == kind)

/-- `conditional_transfer`. -/
def conditionalTransfer (view : CompactFunctionView) (source : NodeId)
    (whenTrue : Bool) : Option ControlTransfer :=
  view.control.transfers.find? (fun t =>
    t.source == source && t.conditional && t.conditionWhenTrue == whenTrue)

/-- The transfers of a block that are not calls. -/
def outgoing (view : CompactFunctionView) (source : NodeId) : List ControlTransfer :=
  view.control.transfers.filter (fun t => t.source == source && t.kind != .callTarget)

/-- The transfers into a block that are not calls. -/
def incoming (view : CompactFunctionView) (target : NodeId) : List ControlTransfer :=
  view.control.transfers.filter (fun t => t.target == target && t.kind != .callTarget)

/-- `direct_arm_to_join`. -/
def directArmToJoin (view : CompactFunctionView) (arm join : NodeId) : Bool :=
  !nodeIsTerminal view arm && (outgoing view arm).all (fun t => t.target == join) &&
    (outgoing view arm).length == 1

/-- `uniquely_entered_from`. -/
def uniquelyEnteredFrom (view : CompactFunctionView) (node source : NodeId) : Bool :=
  (incoming view node).all (fun t => t.source == source) &&
    (incoming view node).length == 1

/-- The two arms of a conditional: the targets of its first true and its first
false transfer. -/
def ifArms (view : CompactFunctionView) (header : NodeId) : Option (NodeId × NodeId) :=
  match transferOfKind view header .branchTrue, transferOfKind view header .branchFalse with
  | some t, some f => some (t.target, f.target)
  | _, _ => none

/-- `certified_if_region`. -/
def certifiedIfRegion (view : CompactFunctionView) (region : ControlRegion) : Bool :=
  (region.kind == .ifElse || region.kind == .terminalIf) &&
  match ifArms view region.header with
  | none => false
  | some (t, f) =>
    t != f && uniquelyEnteredFrom view t region.header &&
    uniquelyEnteredFrom view f region.header &&
    if region.kind == .terminalIf then nodeIsTerminal view t && nodeIsTerminal view f
    else region.join != cfgInvalidId && directArmToJoin view t region.join &&
      directArmToJoin view f region.join

/-- `node_transfers`. -/
def nodeTransfers (view : CompactFunctionView) (source : NodeId) : List ControlTransfer :=
  view.control.transfers.filter (fun t =>
    t.source == source && t.kind != .callTarget && t.kind != .returnFromFunction)

/-- `node_has_nonstructural_statement`. -/
def nodeHasNonstructuralStatement (view : CompactFunctionView) (node : NodeId) : Bool :=
  view.statements.any (fun s => s.node == node && s.kind != .branch &&
    s.kind != .constant && s.kind != .indirectTarget)

/-- Whether a transfer of a loop header goes to another member of the loop. -/
def entersLoop (region : ControlRegion) (t : ControlTransfer) : Bool :=
  region.nodes.contains t.target && t.target != region.header

/-- The scan over the header transfers of a while loop.  Each match overwrites
the one before it, so the last transfer of either sort is the one kept. -/
def whileTransfers (region : ControlRegion) (transfers : List ControlTransfer) :
    Option ControlTransfer × Option ControlTransfer :=
  transfers.foldl (fun (inside, outside) t =>
    if entersLoop region t then (some t, outside)
    else if t.target == region.join then (inside, some t)
    else (inside, outside)) (none, none)

/-- The `while_loop` half of `certified_simple_loop`. -/
def certifiedWhileLoop (view : CompactFunctionView) (region : ControlRegion) :
    Option (NodeId × NodeId) :=
  if nodeHasNonstructuralStatement view region.header then none
  else if (nodeTransfers view region.header).length != 2 then none
  else match whileTransfers region (nodeTransfers view region.header) with
  | (some inside, some _) =>
    if uniquelyEnteredFrom view inside.target region.header &&
        !nodeIsTerminal view inside.target &&
        (nodeTransfers view inside.target).map (·.target) == [region.header]
    then some (inside.target, region.header) else none
  | _ => none

/-- The `do_while_loop` half of `certified_simple_loop`. -/
def certifiedDoWhileLoop (view : CompactFunctionView) (region : ControlRegion) :
    Option (NodeId × NodeId) :=
  let latch := region.conditionNode
  if latch == cfgInvalidId || latch == region.header || !region.nodes.contains latch ||
      nodeIsTerminal view region.header || nodeIsTerminal view latch ||
      nodeHasNonstructuralStatement view latch then none
  else if (nodeTransfers view region.header).map (·.target) != [latch] then none
  else if (nodeTransfers view latch).length != 2 then none
  else if (nodeTransfers view latch).any (·.target == region.header) &&
      (nodeTransfers view latch).any (·.target == region.join)
  then some (region.header, latch) else none

/-- `certified_simple_loop`: the body and the latch of an accepted loop. -/
def certifiedSimpleLoop (view : CompactFunctionView) (region : ControlRegion) :
    Option (NodeId × NodeId) :=
  if region.nodes.length != 2 || region.join == cfgInvalidId ||
      region.condition == invalidId then none
  else if region.kind = .whileLoop then certifiedWhileLoop view region
  else if region.kind = .doWhileLoop then certifiedDoWhileLoop view region
  else none

/-- The check that `safe_target` makes of one switch target, apart from the
target being new. -/
def safeTarget (view : CompactFunctionView) (region : ControlRegion) (target : NodeId) : Bool :=
  target != region.header &&
    (nodeIsTerminal view target ||
      (region.join != cfgInvalidId && directArmToJoin view target region.join))

/-- The case targets of a switch, followed by its default. -/
def switchTargets (region : ControlRegion) : List NodeId :=
  region.switchCases.map (·.target) ++ [region.switchDefault]

/-- `certified_switch_region`. -/
def certifiedSwitchRegion (view : CompactFunctionView) (region : ControlRegion) : Bool :=
  region.kind == .switchRegion && region.switchMappingComplete &&
    !region.switchCases.isEmpty && region.switchDefault != cfgInvalidId &&
    (switchTargets region).all (safeTarget view region) &&
    decide (switchTargets region).Nodup

/-- `switch_region_for`. -/
def switchRegionFor (view : CompactFunctionView) (header : NodeId) : Option ControlRegion :=
  view.control.regions.find? (fun region =>
    region.kind == .switchRegion && region.header == header &&
      region.switchMappingComplete && region.switchDefault != cfgInvalidId)

/-- One line of the pseudo view.  Some constructors carry more than the text
shows: `statement` its position in the view, `ifOpen`, `elseOpen`, `whileOpen`,
`doOpen`, `caseLabel` and `defaultLabel` the node whose statements follow, and
`gotoOneOf` the node whose transfer it is. -/
inductive PseudoLine where
  | signature
  | openBrace
  | closeBrace
  | label (node : NodeId)
  | statement (indent : Text) (s : SemanticStatement) (index : Nat)
  | whileOpen (condition : Text) (body : NodeId)
  | doOpen (body : NodeId)
  | doClose (condition : Text)
  | ifOpen (condition : Text) (thenNode elseNode : NodeId)
  | elseOpen (elseNode : NodeId)
  | switchOpen (index : Text)
  | caseLabel (value : Int) (target : NodeId)
  | defaultLabel (target : NodeId)
  | breakSwitch
  | close
  | caseGoto (index : Text) (value : Int) (target : NodeId)
  | defaultGoto (target : NodeId)
  | ifGoto (condition : Text) (thenTarget elseTarget : NodeId)
  | gotoLabel (target : NodeId)
  | leaves (rawTarget : Nat)
  | gotoOneOf (node : NodeId) (targets : List NodeId)
  | noStatements
  deriving DecidableEq

/-- `function_signature`. -/
def functionSignature (view : CompactFunctionView) : Text :=
  "fn 0x".toList ++ hexDigits view.entry ++ " ".toList ++ view.name ++ "(".toList ++
    List.intercalate ", ".toList
      (view.parameters.map (fun p => p.name ++ ":".toList ++ p.type)) ++
    ") -> ".toList ++
    match view.returns with
    | [] => "void".toList
    | r :: _ => r.type

/-- The string appended for a line, without its line break. -/
def PseudoLine.text (view : CompactFunctionView) : PseudoLine → Text
  | .signature => functionSignature view
  | .openBrace => "\x7b"
  | .closeBrace => "\x7d"
  | .label node => qualifiedLabel view node ++ ":"
  | .statement indent s _ =>
    indent ++ s.text ++ ";  // " ++ s.stableId ++
      if s.evidenceId.isEmpty then " @0x" ++ hexDigits s.address
      else " " ++ s.evidenceId
  | .whileOpen condition _ => "    while (" ++ condition ++ ") \x7b"
  | .doOpen _ => "    do \x7b"
  | .doClose condition => "    \x7d while (" ++ condition ++ ");"
  | .ifOpen condition _ _ => "    if (" ++ condition ++ ") \x7b"
  | .elseOpen _ => "    \x7d else \x7b"
  | .switchOpen index => "    switch (" ++ index ++ ") \x7b"
  | .caseLabel value _ => "    case " ++ decimalInt value ++ ":"
  | .defaultLabel _ => "    default:"
  | .breakSwitch => "        break;"
  | .close => "    \x7d"
  | .caseGoto index value target =>
    "    if (" ++ index ++ " == " ++ decimalInt value ++ ") goto " ++
      qualifiedLabel view target ++ ";"
  | .defaultGoto target =>
    "    goto " ++ qualifiedLabel view target ++ "; /* exact default */"
  | .ifGoto condition t f =>
    "    if (" ++ condition ++ ") goto " ++ qualifiedLabel view t ++
      "; else goto " ++ qualifiedLabel view f ++ ";"
  | .gotoLabel target => "    goto " ++ qualifiedLabel view target ++ ";"
  | .leaves rawTarget =>
    "    /* control leaves function at 0x" ++ hexDigits rawTarget ++ " */"
  | .gotoOneOf _ targets =>
    "    goto_one_of(" ++
      List.intercalate ", " (targets.map (qualifiedLabel view)) ++
      "); /* switch case values unresolved */"
  | .noStatements => "    /* no recovered XAIR statements */"

/-- The statements of a block up to and including the first terminal one. -/
def throughTerminal : List (SemanticStatement × Nat) → List (SemanticStatement × Nat)
  | [] => []
  | s :: rest => if s.1.isTerminal then [s] else s :: throughTerminal rest

/-- The statements of a block that are printed at all, in presentation order and
with their positions in the view. -/
def printedStatements (view : CompactFunctionView) (node : NodeId) :
    List (SemanticStatement × Nat) :=
  view.statements.zipIdx.filter (fun s => s.1.node == node && s.1.isPrinted)

/-- `render_pseudo_node`. -/
def renderPseudoNode (view : CompactFunctionView) (node : NodeId) (indent : Text) :
    List PseudoLine :=
  (throughTerminal (printedStatements view node)).map (fun s => .statement indent s.1 s.2)

/-- The targets that `goto_one_of` lists: sorted, without repetitions. -/
def sortedTargets (targets : List NodeId) : List NodeId :=
  (targets.insertionSort (· ≤ ·)).dedup

/-- The transfers that the last part of `render_fallback_transfers` prints one
by one. -/
def plainTransfers (view : CompactFunctionView) (node : NodeId) : List ControlTransfer :=
  (nodeTransfers view node).filter (fun t => t.kind != .switchCase)

/-- The local targets of the unresolved switch transfers of a block. -/
def indirectTargets (view : CompactFunctionView) (node : NodeId) : List NodeId :=
  (((nodeTransfers view node).filter (fun t => t.kind == .switchCase)).map
    (·.target)).filter (fun target => view.control.blockOrder.contains target)

/-- One transfer printed on its own: a goto, or a remark that control leaves. -/
def transferLine (view : CompactFunctionView) (t : ControlTransfer) : PseudoLine :=
  if view.control.blockOrder.contains t.target then .gotoLabel t.target
  else .leaves t.rawTarget

/-- The true and false transfers that the fallback path looks at. -/
def fallbackBranch (view : CompactFunctionView) (node : NodeId) :
    Option (ControlTransfer × ControlTransfer) :=
  match (transferOfKind view node .branchTrue).or (conditionalTransfer view node true),
      (transferOfKind view node .branchFalse).or (conditionalTransfer view node false) with
  | some t, some f =>
    if view.control.blockOrder.contains t.target && view.control.blockOrder.contains f.target
    then some (t, f) else none
  | _, _ => none

/-- `render_fallback_transfers`.  The function reports whether it wrote a line;
that is whether the list is nonempty. -/
def renderFallbackTransfers (view : CompactFunctionView) (node : NodeId) : List PseudoLine :=
  if nodeIsTerminal view node then []
  else match switchRegionFor view node with
  | some region =>
    region.switchCases.map
      (fun item => .caseGoto (regionCondition view region) item.value item.target) ++
      [.defaultGoto region.switchDefault]
  | none =>
    match fallbackBranch view node with
    | some (t, f) =>
      [.ifGoto (regionCondition view
          { kind := .block, header := node, condition := t.condition })
        t.target f.target]
    | none =>
      (plainTransfers view node).map (transferLine view) ++
        if (indirectTargets view node).isEmpty then []
        else [.gotoOneOf node (sortedTargets (indirectTargets view node))]

/-- The first certified loop region of a header (`structured_loops`). -/
def structuredLoop (view : CompactFunctionView) (node : NodeId) : Option ControlRegion :=
  view.control.regions.find? (fun r =>
    r.header == node && (certifiedSimpleLoop view r).isSome)

/-- The first certified switch region of a header (`structured_switches`). -/
def structuredSwitch (view : CompactFunctionView) (node : NodeId) : Option ControlRegion :=
  view.control.regions.find? (fun r => r.header == node && certifiedSwitchRegion view r)

/-- The first certified if region of a header (`structured`). -/
def structuredIf (view : CompactFunctionView) (node : NodeId) : Option ControlRegion :=
  view.control.regions.find? (fun r => r.header == node && certifiedIfRegion view r)

/-- The lines of a certified loop. -/
def renderLoop (view : CompactFunctionView) (region : ControlRegion) (body : NodeId) :
    List PseudoLine :=
  if region.kind = .whileLoop then
    .whileOpen (regionCondition view region) body ::
      renderPseudoNode view body "        " ++ [.close]
  else
    .doOpen body :: renderPseudoNode view body "        " ++
      [.doClose (regionCondition view region)]

/-- One arm of a certified switch, after its `case` or `default` line. -/
def renderSwitchArm (view : CompactFunctionView) (target : NodeId) : List PseudoLine :=
  renderPseudoNode view target "        " ++
    if nodeIsTerminal view target then [] else [.breakSwitch]

/-- The lines of a certified switch. -/
def renderSwitch (view : CompactFunctionView) (region : ControlRegion) (node : NodeId) :
    List PseudoLine :=
  renderPseudoNode view node "    " ++
    .switchOpen (regionCondition view region) ::
    region.switchCases.flatMap
      (fun item => .caseLabel item.value item.target :: renderSwitchArm view item.target) ++
    .defaultLabel region.switchDefault :: renderSwitchArm view region.switchDefault ++
    [.close]

/-- The lines of a certified conditional with the arms `t` and `f`. -/
def renderIf (view : CompactFunctionView) (region : ControlRegion) (node t f : NodeId) :
    List PseudoLine :=
  renderPseudoNode view node "    " ++
    .ifOpen (regionCondition view region) t f ::
    renderPseudoNode view t "        " ++
    .elseOpen f :: renderPseudoNode view f "        " ++
    [.close]

/-- The lines of a block that heads no certified region. -/
def renderPlain (view : CompactFunctionView) (node : NodeId) : List PseudoLine :=
  let lines := renderPseudoNode view node "    " ++ renderFallbackTransfers view node
  if lines.isEmpty then [.noStatements] else lines

/-- The lines of one block of the order after its label, and the blocks that
become consumed with it. -/
def renderBlock (view : CompactFunctionView) (node : NodeId) : List PseudoLine × List NodeId :=
  match structuredLoop view node with
  | some region =>
    match certifiedSimpleLoop view region with
    | some (body, latch) => (renderLoop view region body, [region.header, body, latch])
    | none => ([], [])
  | none =>
    match structuredSwitch view node with
    | some region =>
      (renderSwitch view region node, node :: switchTargets region)
    | none =>
      match structuredIf view node, ifArms view node with
      | some region, some (t, f) => (renderIf view region node t f, [node, t, f])
      | _, _ => (renderPlain view node, [node])

/-- The loop of `render_pseudo` over the block order. -/
def renderBlocks (view : CompactFunctionView) : List NodeId → List NodeId → List PseudoLine
  | [], _ => []
  | node :: rest, consumed =>
    if consumed.contains node then renderBlocks view rest consumed
    else .label node :: (renderBlock view node).1 ++
      renderBlocks view rest ((renderBlock view node).2 ++ consumed)

/-- Every line that `render_pseudo` passes to its writer. -/
def pseudoLines (view : CompactFunctionView) : List PseudoLine :=
  .signature :: .openBrace :: renderBlocks view view.control.blockOrder [] ++ [.closeBrace]

/-- `BudgetWriter`. -/
structure BudgetWriter where
  limit : Nat
  text : Text := []
  omitted : Nat := 0

/-- `BudgetWriter::line`. -/
def BudgetWriter.line (w : BudgetWriter) (value : Text) : BudgetWriter :=
  if w.limit ≠ 0 ∧ w.limit < w.text.length + (value.length + 1) then
    { w with omitted := w.omitted + 1 }
  else { w with text := w.text ++ value ++ ['\n'] }

/-- The lines of a rendering, passed to a writer one after the other. -/
def writeLines (view : CompactFunctionView) (w : BudgetWriter) (lines : List PseudoLine) :
    BudgetWriter :=
  lines.foldl (fun w l => w.line (l.text view)) w

/-- One counter of the footer, printed when it is not zero. -/
def footerCount (title : Text) (count : Nat) : Text :=
  if count = 0 then []
  else "  " ++ title ++ ": " ++ decimal count ++ ['\n']

/-- `omitted_footer`. -/
def omittedFooter (view : CompactFunctionView) (renderOmitted callOffset : Nat) : Text :=
  let omitted := { view.omitted with statements := view.omitted.statements + renderOmitted }
  if !omitted.any then []
  else
    "omitted:\n" ++ footerCount "calls" omitted.calls ++
      footerCount "branches" omitted.branches ++
      footerCount "statements" omitted.statements ++
      footerCount "evidence" omitted.evidence ++
      footerCount "regions" omitted.regions ++
      footerCount "transfers" omitted.transfers ++
      "continue-with:\n  airece fn <binary> 0x" ++ hexDigits view.entry ++
      " --view compact --calls --offset " ++
      decimal (callOffset + (view.totalCalls - omitted.calls)) ++ ['\n']

/-- `RenderedSemanticText`. -/
structure RenderedSemanticText where
  text : Text := []
  truncated : Bool := false
  omittedLines : Nat := 0

/-- `render_pseudo`. -/
def renderPseudo (view : CompactFunctionView) (maxBytes callOffset : Nat) : RenderedSemanticText :=
  if !view.ok then {}
  else
    let writer := writeLines view { limit := maxBytes } (pseudoLines view)
    let footer := omittedFooter view writer.omitted callOffset
    { text := writer.text ++ footer
      truncated := view.truncated || writer.omitted != 0 || !footer.isEmpty
      omittedLines := writer.omitted }

end Airece
