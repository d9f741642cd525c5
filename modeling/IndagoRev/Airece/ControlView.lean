import IndagoRev.Text

/-!
# The control view of a function

The presentation records that `ControlRecovery` produces: regions over the
nodes of one function, and one transfer for every CFG edge that leaves a node
of the function.
-/

namespace Airece

open StdText

/-- `xair_cfg_node_id`. -/
abbrev NodeId := Nat
/-- `xair_cfg_edge_id`. -/
abbrev EdgeId := Nat
/-- `xair_value_id`. -/
abbrev ValueId := Nat

/-- `XAIR_CFG_INVALID_ID`: the id of no node.  The headers of XAIR are not part
of this repository; only that the id names no node of a CFG is ever used. -/
def cfgInvalidId : Nat := 0xFFFFFFFF

/-- `XAIR_INVALID_ID`: the id of no value, operation or block. -/
def invalidId : Nat := 0xFFFFFFFF

/-- `ControlRegionKind`. -/
inductive ControlRegionKind where
  | sequence | terminalIf | ifElse | earlyReturn | whileLoop | doWhileLoop
  | switchRegion | irreducible | block
  deriving DecidableEq

/-- `ControlTransferKind`. -/
inductive ControlTransferKind where
  | fallthrough | branchTrue | branchFalse | switchCase | callTarget | gotoLabel
  | breakLoop | continueLoop | returnFromFunction | trap | fault | unresolved
  deriving DecidableEq

/-- `ControlSwitchCase`: one case value of a switch and the node it selects. -/
structure ControlSwitchCase where
  value : Int
  target : NodeId
  rawTarget : Nat := 0

/-- `ControlRegion`, without the evidence and induction records that no
rendering reads. -/
structure ControlRegion where
  kind : ControlRegionKind
  header : NodeId
  join : NodeId := cfgInvalidId
  conditionNode : NodeId := cfgInvalidId
  condition : ValueId := invalidId
  nodes : List NodeId := []
  switchCases : List ControlSwitchCase := []
  switchDefault : NodeId := cfgInvalidId
  switchMappingComplete : Bool := false

/-- `ControlTransfer`: one CFG edge with its classification. -/
structure ControlTransfer where
  edge : EdgeId
  kind : ControlTransferKind
  source : NodeId
  target : NodeId
  condition : ValueId := invalidId
  rawTarget : Nat := 0
  conditional : Bool := false
  conditionWhenTrue : Bool := false
  deriving DecidableEq

/-- `ControlView`. -/
structure ControlView where
  entry : NodeId := cfgInvalidId
  blockOrder : List NodeId
  regions : List ControlRegion
  transfers : List ControlTransfer
  irreducible : Bool := false
  fallback : Bool := false
  truncated : Bool := false

end Airece
