import IndagoRev.Workbench.HarnessBudget

/-!
# Frames of the harness

Only a proposal adds an action, and only a publication or a put adds a revision.
The other transactions of a harness change rows that are there already, and so do
the runs that are made of them.
-/

namespace Indago

open StdText Tables Transactions Interleaving Program

variable {sha256 : Text → Text} {dump : KnowledgeRecord → Text}
  {dumpRequest : ActionRequest → Text}
variable {store store' : HarnessStore}

/-- The revisions of a store. -/
def HarnessStore.records (store : HarnessStore) : List RecordRow := store.knowledge.records

/-- The tables that transactions add rows to: the revisions, and how many actions
there are. -/
def HarnessStore.tables (store : HarnessStore) : List RecordRow × Nat :=
  (store.records, store.actions.length)

/-- An action that adds no row to these tables. -/
def AddsNoRow (_ : Option HarnessLabel) (_ : HarnessInput) (store store' : HarnessStore) : Prop :=
  store'.tables = store.tables

section Leaves

variable {project id aid : Text}

theorem leaves_loadInvestigation : Leaves HarnessStore.tables (loadInvestigation project id) :=
  fun _ _ _ h => by rw [(loadInvestigation_ok.mp h).2]

theorem leaves_actionRecord : Leaves HarnessStore.tables (actionRecord project id aid) :=
  fun _ _ _ h => by rw [(actionRecord_ok.mp h).2.2]

theorem leaves_updateInvestigation {change : InvestigationRow → InvestigationRow} :
    Leaves HarnessStore.tables (updateInvestigation project id change) :=
  leaves_modify (fun _ => rfl)

theorem leaves_updateAction {change : ActionRow → ActionRow} :
    Leaves HarnessStore.tables (updateAction project aid change) :=
  leaves_modify (fun _ => by simp [HarnessStore.tables, HarnessStore.records, rewrite])

variable {inv : Investigation}

theorem leaves_saveInvestigation : Leaves HarnessStore.tables (saveInvestigation project id inv) :=
  leaves_updateInvestigation.bind (fun _ => leaves_pure _)

variable {expected : Option Nat}

theorem leaves_checkRevision : Leaves HarnessStore.tables (checkRevision expected inv) :=
  fun _ _ _ h => by rw [(Prod.mk.inj (checkRevision_ok.mp h).2).2]

variable {caller : Caller}

theorem leaves_checkController : Leaves HarnessStore.tables (checkController caller inv) :=
  fun _ _ _ h => by rw [(Prod.mk.inj (checkController_ok.mp h).2).2]

theorem leaves_checkOwnership {now : Nat} {token : Text} {row : InvestigationRow} :
    Leaves HarnessStore.tables (checkOwnership sha256 now token row) :=
  fun _ _ _ h => by rw [(Prod.mk.inj (checkOwnership_ok.mp h).2).2]

variable {env : HarnessInput}

theorem leaves_checkIdle : Leaves HarnessStore.tables (checkIdle env project id caller) :=
  fun _ _ _ h => by rw [(Prod.mk.inj (checkIdle_ok.mp h).2).2]

theorem leaves_overJobs {α : Type} {t : JobTx α} : Leaves HarnessStore.tables (overJobs t) := by
  intro s a s' h
  obtain ⟨jobs, _, hstore⟩ := overJobs_ok.mp h
  dsimp only at hstore
  rw [hstore]
  rfl

theorem leaves_jobTarget {request : JobRequest} : Leaves HarnessStore.tables (jobTarget request) :=
  fun _ _ _ h => by rw [← jobTarget_same h]

theorem leaves_createInvestigation {request : CreateRequest} :
    Leaves HarnessStore.tables (createInvestigation sha256 env request) := by
  refine leaves_get.bind fun store => ?_
  split
  · exact leaves_throw _
  split
  · exact leaves_throw _
  split
  · exact leaves_throw _
  · refine Leaves.bind (leaves_modify ?_) fun _ => leaves_pure _
    exact fun _ => rfl

theorem leaves_claimInvestigation {controller expected : Option Nat} :
    Leaves HarnessStore.tables (claimInvestigation sha256 env project id controller expected) := by
  refine leaves_loadInvestigation.bind fun found => leaves_checkRevision.bind fun _ =>
    leaves_get.bind fun store => ?_
  split
  · exact leaves_throw _
  · exact leaves_updateInvestigation.bind fun _ => leaves_saveInvestigation

theorem leaves_renewInvestigation :
    Leaves HarnessStore.tables (renewInvestigation sha256 env project id caller) :=
  leaves_loadInvestigation.bind fun _ => leaves_checkOwnership.bind fun _ =>
    leaves_updateInvestigation

theorem leaves_cancelInvestigation :
    Leaves HarnessStore.tables (cancelInvestigation sha256 env project id caller) := by
  refine leaves_loadInvestigation.bind fun found => leaves_checkOwnership.bind fun _ => ?_
  split
  · exact leaves_pure _
  · exact leaves_saveInvestigation

theorem leaves_releaseInvestigation {next : Option Owner} : Leaves HarnessStore.tables
      (releaseInvestigation sha256 env project id caller expected next) := by
  refine leaves_loadInvestigation.bind fun found => leaves_checkOwnership.bind fun _ =>
    leaves_checkRevision.bind fun _ => leaves_checkIdle.bind fun _ => leaves_get.bind fun store => ?_
  split
  · exact leaves_throw _
  split
  · exact leaves_throw _
  have hrest : ∀ inv, Leaves HarnessStore.tables
      (do updateInvestigation project id (fun r => { r with tokenHash := [], deadline := 0 })
          saveInvestigation project id inv : HarnessTx Investigation) :=
    fun inv => leaves_updateInvestigation.bind fun _ => leaves_saveInvestigation
  cases next with
  | none => exact hrest _
  | some owner =>
    refine Leaves.bind (leaves_modify ?_) fun _ => hrest _
    exact fun _ => rfl

theorem leaves_noteInvestigation {note : InvestigationNote} : Leaves HarnessStore.tables
      (noteInvestigation sha256 env project id caller expected note) := by
  refine leaves_loadInvestigation.bind fun found => leaves_checkOwnership.bind fun _ =>
    leaves_checkRevision.bind fun _ => leaves_checkIdle.bind fun _ => leaves_get.bind fun store => ?_
  split
  · exact leaves_throw _
  split
  · exact leaves_throw _
  · split
    · exact leaves_throw _
    · exact leaves_saveInvestigation

theorem leaves_finishInvestigation {request : FinishRequest} :
    Leaves HarnessStore.tables (finishInvestigation sha256 env caller request) := by
  refine leaves_loadInvestigation.bind fun found => leaves_checkController.bind fun _ =>
    leaves_checkOwnership.bind fun _ => leaves_checkRevision.bind fun _ =>
    leaves_checkIdle.bind fun _ => leaves_get.bind fun store => ?_
  split
  · exact leaves_throw _
  split
  · exact leaves_throw _
  split
  · exact leaves_throw _
  · split
    · exact leaves_throw _
    · exact leaves_saveInvestigation

variable {opts : ActionOptions}

theorem leaves_beatAction {token : Text} :
    Leaves HarnessStore.tables (beatAction sha256 env opts token) := by
  refine leaves_get.bind fun store => ?_
  split
  · exact leaves_throw _
  · split
    · exact leaves_throw _
    · exact leaves_updateAction.bind fun _ => leaves_updateInvestigation

theorem leaves_changeLibrary {change : LibraryChange} :
    Leaves HarnessStore.tables (changeLibrary change) := by
  intro store a store' h
  obtain ⟨library, _, rfl⟩ := changeLibrary_ok h
  rfl

theorem leaves_claimAction {runner : Nat} : Leaves HarnessStore.tables
      (claimAction sha256 env caller project id aid expected runner) := by
  refine leaves_loadInvestigation.bind fun found => leaves_checkController.bind fun _ =>
    leaves_checkOwnership.bind fun _ => leaves_actionRecord.bind fun current => ?_
  split
  · exact leaves_pure _
  split
  · exact leaves_throw _
  · exact leaves_checkIdle.bind fun _ => leaves_checkRevision.bind fun _ =>
      leaves_updateAction.bind fun _ => leaves_updateAction.bind fun _ =>
      leaves_saveInvestigation.bind fun _ => leaves_pure _

theorem leaves_markDispatch {action : ActionRecord} :
    Leaves HarnessStore.tables (markDispatch env opts action) := by
  refine leaves_loadInvestigation.bind fun found => ?_
  split
  · exact leaves_pure _
  refine leaves_get.bind fun store => ?_
  split
  · exact leaves_pure _
  · split
    · exact leaves_pure _
    · exact leaves_updateAction.bind fun _ => leaves_pure _

theorem leaves_settleAction {result : ActionResult} :
    Leaves HarnessStore.tables (settleAction env opts result) := by
  intro store _ store' h
  obtain ⟨_, _, _, _, _, hsettled, _⟩ := settleAction_ok h
  rw [hsettled.written]
  simp [HarnessStore.tables, HarnessStore.records, HarnessStore.revised,
    HarnessStore.withInvestigation, HarnessStore.withAction, rewrite]

end Leaves

section Programs

variable {ρ α : Type} {t : HarnessInput → HarnessTx α} {label : HarnessLabel}

theorem each_query (h : ∀ env s a s', t env s = .ok (a, s') → AddsNoRow (some label) env s s') :
    (query label t : HarnessProgram ρ α).Each AddsNoRow := by
  apply each_atomically
  · exact fun _ _ => rfl
  intro env s a s' ht
  by_cases hbusy : env.busy = true
  · rw [if_pos hbusy] at ht
    exact absurd ht throw_ok
  · rw [if_neg hbusy] at ht
    exact h env s a s' ht

theorem each_leaves (h : ∀ env, Leaves HarnessStore.tables (t env)) :
    (query label t : HarnessProgram ρ α).Each AddsNoRow :=
  each_query (fun env s a s' ht => h env s a s' ht)

variable {opts : ActionOptions}

theorem each_readAction : (readAction opts : HarnessProgram ρ ActionRecord).Each AddsNoRow :=
  each_leaves (fun _ => leaves_actionRecord.bind fun _ => leaves_pure _)

theorem each_recoverOr {action : ActionRecord} {diagnostic : String} :
    (recoverOr sha256 dump dumpRequest action diagnostic : HarnessProgram ρ ActionResult).Each
      AddsNoRow := by
  unfold recoverOr
  split
  · exact each_leaves (fun _ _ _ _ h => by rw [← (recoverPublication_ok h).2])
  · exact each_pure _

theorem each_runWorkbench : (runWorkbench sha256 dump dumpRequest opts).Each AddsNoRow := by
  refine each_get.bind fun data => ?_
  split
  · exact each_recoverOr
  refine (each_leaves fun env => ?_).bind fun _ =>
    (each_leaves fun _ => leaves_markDispatch).bind fun outcome => ?_
  · exact fun _ _ _ h => by rw [← (normalizeAgain_ok h).2]
  cases outcome with
  | cancelled => exact each_pure _
  | lost => exact (each_modify _).bind fun _ => each_throw _
  | marked => exact (each_modify _).bind fun _ => each_readAction.bind fun _ => each_recoverOr

theorem each_executeJob {job : Job} : (executeJob job).Each AddsNoRow := by
  refine (each_leaves fun _ => leaves_overJobs).bind fun prior => ?_
  split
  · exact each_pure _
  refine (each_leaves fun _ => leaves_overJobs).bind fun ticket => each_leaves fun env => ?_
  refine leaves_jobTarget.bind fun target => ?_
  split
  · exact leaves_throw _
  · exact leaves_overJobs

theorem each_runStatic : (runStatic opts).Each AddsNoRow := by
  refine each_get.bind fun data => ?_
  split
  · exact each_throw _
  split
  · exact each_throw _
  refine (each_leaves fun env => ?_).bind fun job => (each_modify _).bind fun _ =>
    (each_leaves fun _ => leaves_updateAction).bind fun _ => ?_
  · refine leaves_jobTarget.bind fun target => ?_
    split
    · exact leaves_throw _
    · split
      · exact leaves_throw _
      · exact leaves_overJobs
  · split
    · exact each_pure _
    · exact each_executeJob.bind fun _ => each_pure _
    · split
      · exact each_pure _
      · exact each_pure _

theorem each_afterFailure {e : String} :
    (afterFailure sha256 dump dumpRequest opts e).Each AddsNoRow := by
  refine each_get.bind fun data => ?_
  split
  · exact Each.tryCatch (each_readAction.bind fun _ => each_recoverOr) (fun _ => each_pure _)
  · exact each_pure _

theorem each_runAction : (runAction sha256 dump dumpRequest opts).Each AddsNoRow := by
  refine Each.bind (Each.tryCatch ?_ fun _ => each_afterFailure) fun result =>
    each_leaves fun _ => leaves_settleAction
  refine each_get.bind fun data => ?_
  split
  · exact each_runWorkbench
  · exact each_runStatic

end Programs

end Indago
