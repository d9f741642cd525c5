import IndagoRev.Agent.QuestionProgress
import IndagoRev.Agent.WorkflowPending
import IndagoRev.Airece.ArgumentLabels
import IndagoRev.Airece.CallPaths
import IndagoRev.Airece.InductionSteps
import IndagoRev.Airece.LoadOverrides
import IndagoRev.Airece.LoopConditions
import IndagoRev.Airece.Negation
import IndagoRev.Airece.PresentationNames
import IndagoRev.Airece.PseudoBlocks
import IndagoRev.Airece.PseudoPreservation
import IndagoRev.Airece.Relevance
import IndagoRev.Airece.SingleExpansion
import IndagoRev.Airece.StoreForwarding
import IndagoRev.Airece.SwitchMappings
import IndagoRev.Airece.TaintClosure
import IndagoRev.Airece.TruncatedViews
import IndagoRev.Airece.Unambiguity
import IndagoRev.Models.InvestigationPages
import IndagoRev.Models.InvestigationProgress
import IndagoRev.Models.InvestigationQueue
import IndagoRev.Models.ModelHarness
import IndagoRev.Models.ModelStream
import IndagoRev.Runtime.AddressConversion
import IndagoRev.Runtime.CallPairing
import IndagoRev.Runtime.CollectorRuns
import IndagoRev.Runtime.MiParser
import IndagoRev.Runtime.RuntimePages
import IndagoRev.Runtime.RuntimeRun
import IndagoRev.Workbench.BatchResume
import IndagoRev.Workbench.BundleAuthority
import IndagoRev.Workbench.CalculationRuns
import IndagoRev.Workbench.Citations
import IndagoRev.Workbench.ContextBudget
import IndagoRev.Workbench.Coverage
import IndagoRev.Workbench.EvidenceTiles
import IndagoRev.Workbench.GraphNeighborhood
import IndagoRev.Workbench.HarnessResults
import IndagoRev.Workbench.Impact
import IndagoRev.Workbench.IndexHistory
import IndagoRev.Workbench.InitializerRuns
import IndagoRev.Workbench.PacketMembership
import IndagoRev.Workbench.RetentionRuns
import IndagoRev.Workbench.SystemManifest
import IndagoRev.Workbench.Transforms
