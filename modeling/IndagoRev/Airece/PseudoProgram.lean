import IndagoRev.Airece.PseudoLayout
import IndagoRev.Airece.LoopPolarity

/-!
# The pseudo view as a program

The lines of the pseudo view are read as a structured program: labels and gotos,
`if`/`else`, `switch` with `break`, terminal statements, and falling off a line
goes to the next one.  `runLines` follows the text from the first line of a block
to the place where control leaves the block.  What the control view says about
the same block is `mayTake`: which of its transfers apply when every condition
has been evaluated.
-/

namespace Airece

open StdText

/-- One evaluation of everything that control depends on: the truth of condition
texts, the value of switch indices, and the target that the unresolved indirect
jump of a node takes. -/
structure Evaluation where
  truth : Text → Bool
  index : Text → Int
  pick : NodeId → NodeId

/-- Where control goes when it leaves a block. -/
inductive Exit where
  /-- To another block of the function. -/
  | block (node : NodeId)
  /-- Out of the function, to an address. -/
  | outside (rawTarget : Nat)
  /-- The function ends: a return, a trap, a fault or a call that never returns. -/
  | ended
  /-- Nowhere: past the last line, or to a label that no line defines. -/
  | stuck
  deriving DecidableEq

/-- A goto goes to the block of its label if some line defines the label. -/
def gotoExit (labels : List NodeId) (target : NodeId) : Exit :=
  if labels.contains target then .block target else .stuck

/-- What the reader of the text is doing: executing lines, skipping to the end of
the enclosing `if` or `switch`, or looking for the case of a value. -/
inductive Reading where
  | execute
  | skipToClose
  | seekCase (value : Int)

/-- Control follows the text until it enters a block, ends, or is stuck.  The
loop lines stand for themselves and are not followed. -/
def runLines (labels : List NodeId) (env : Evaluation) : Reading → List PseudoLine → Exit
  | _, [] => .stuck
  | .skipToClose, .close :: rest => runLines labels env .execute rest
  | .skipToClose, _ :: rest => runLines labels env .skipToClose rest
  | .seekCase value, .caseLabel v target :: rest =>
    if v = value then .block target else runLines labels env (.seekCase value) rest
  | .seekCase _, .defaultLabel target :: _ => .block target
  | .seekCase value, _ :: rest => runLines labels env (.seekCase value) rest
  | .execute, .statement _ s _ :: rest =>
    if s.isTerminal then .ended else runLines labels env .execute rest
  | .execute, .label node :: _ => .block node
  | .execute, .ifOpen condition t f :: _ => .block (if env.truth condition then t else f)
  | .execute, .elseOpen _ :: rest => runLines labels env .skipToClose rest
  | .execute, .switchOpen index :: rest =>
    runLines labels env (.seekCase (env.index index)) rest
  | .execute, .caseLabel _ target :: _ => .block target
  | .execute, .defaultLabel target :: _ => .block target
  | .execute, .breakSwitch :: rest => runLines labels env .skipToClose rest
  | .execute, .close :: rest => runLines labels env .execute rest
  | .execute, .caseGoto index value target :: rest =>
    if env.index index = value then gotoExit labels target
    else runLines labels env .execute rest
  | .execute, .defaultGoto target :: _ => gotoExit labels target
  | .execute, .ifGoto condition t f :: _ =>
    gotoExit labels (if env.truth condition then t else f)
  | .execute, .gotoLabel target :: _ => gotoExit labels target
  | .execute, .leaves rawTarget :: _ => .outside rawTarget
  | .execute, .gotoOneOf node targets :: _ =>
    if targets.contains (env.pick node) then gotoExit labels (env.pick node) else .stuck
  | .execute, .noStatements :: rest => runLines labels env .execute rest
  | .execute, _ :: _ => .stuck

/-- The block whose statements a line opens. -/
def PseudoLine.opens : PseudoLine → Option NodeId
  | .label node => some node
  | .ifOpen _ t _ => some t
  | .elseOpen f => some f
  | .caseLabel _ target => some target
  | .defaultLabel target => some target
  | _ => none

/-- Whether some lines begin with a loop. -/
def startsLoop : List PseudoLine → Bool
  | .whileOpen _ _ :: _ => true
  | .doOpen _ :: _ => true
  | _ => false

/-- Every place where the text of a block begins, with the lines from there on,
except the label of a loop. -/
def blockCode : List PseudoLine → List (NodeId × List PseudoLine)
  | [] => []
  | line :: rest =>
    match line.opens with
    | some node => if startsLoop rest then blockCode rest else (node, rest) :: blockCode rest
    | none => blockCode rest

/-- The node that a switch region selects for an index value. -/
def selectCase (region : ControlRegion) (value : Int) : NodeId :=
  match region.switchCases.find? (fun item => item.value == value) with
  | some item => item.target
  | none => region.switchDefault

variable (view : CompactFunctionView)

/-- Where a transfer leads. -/
def destination (t : ControlTransfer) : Exit :=
  if t.kind = .returnFromFunction then .ended
  else if view.control.blockOrder.contains t.target then .block t.target
  else .outside t.rawTarget

/-- Whether an evaluation allows a transfer.  A conditional transfer depends on
the condition of its block, and the transfer of an indirect jump on the value
that the recovered mapping selects it for, or on the jump's own choice when there
is no mapping.  A target that the mapping never selects is not constrained by
it. -/
def mayTake (env : Evaluation) (t : ControlTransfer) : Prop :=
  if t.conditional then
    env.truth (blockCondition view t.source t.condition) = t.conditionWhenTrue
  else if t.kind = .switchCase then
    match switchRegionFor view t.source with
    | some region =>
      selectCase region (env.index (regionCondition view region)) = t.target ∨
        ∀ value, selectCase region value ≠ t.target
    | none => env.pick t.source = t.target
  else True

/-- **Control-flow preservation.**  From every printed block that is not a loop,
the text leaves to the destination of an outgoing transfer exactly under the
evaluations in which a transfer with that destination applies. -/
def ControlFlowPreserved : Prop :=
  ∀ code ∈ blockCode (pseudoLines view), ∀ t ∈ outgoing view code.1, ∀ env : Evaluation,
    runLines (printedHeads view) env .execute code.2 = destination view t ↔
      ∃ t' ∈ outgoing view code.1, destination view t' = destination view t ∧
        mayTake view env t'

end Airece
