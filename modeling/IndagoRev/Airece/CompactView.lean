import IndagoRev.Airece.ControlView

/-!
# The compact view of a function

The records that `CompactRecovery` hands to the emitters: the statements of a
function in presentation order, its control view, and the count of what was
left out.
-/

namespace Airece

open StdText

/-- `SemanticStatementKind`. -/
inductive SemanticStatementKind where
  | call | branch | returnValue | memoryRead | memoryWrite | globalReference
  | stringReference | constant | importReference | indirectTarget | effect
  | unresolved | trap | fault
  deriving DecidableEq

/-- `SemanticStatement`, with the fields that the text emitters read. -/
structure SemanticStatement where
  stableId : Text := []
  kind : SemanticStatementKind
  text : Text
  semanticId : Text := []
  address : Nat := 0
  node : NodeId
  evidenceId : Text := []
  noReturn : Bool := false
  deriving DecidableEq

/-- `OmittedSemanticItems`. -/
structure OmittedSemanticItems where
  calls : Nat := 0
  branches : Nat := 0
  statements : Nat := 0
  evidence : Nat := 0
  regions : Nat := 0
  transfers : Nat := 0

/-- `OmittedSemanticItems::any`. -/
def OmittedSemanticItems.any (o : OmittedSemanticItems) : Bool :=
  o.calls != 0 || o.branches != 0 || o.statements != 0 || o.evidence != 0 ||
    o.regions != 0 || o.transfers != 0

/-- The name and type texts of a `PresentationVariable`. -/
structure SignatureVariable where
  name : Text
  type : Text

/-- `CompactFunctionView`, with the fields that the pseudo view reads. -/
structure CompactFunctionView where
  ok : Bool := true
  entry : Nat := 0
  name : Text := []
  parameters : List SignatureVariable := []
  returns : List SignatureVariable := []
  statements : List SemanticStatement
  control : ControlView
  omitted : OmittedSemanticItems := {}
  totalCalls : Nat := 0
  truncated : Bool := false

end Airece
