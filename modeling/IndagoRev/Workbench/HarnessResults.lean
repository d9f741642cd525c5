import IndagoRev.Workbench.HarnessBudget

/-!
# Settled results

A run of a static action stores its job into the action record without asking
whether it still holds the row. As long as no such write meets an action that has
a result already, a result that was stored stays.
-/

namespace Indago

open StdText Tables Transactions Interleaving

variable {sha256 : Text → Text} {dump : KnowledgeRecord → Text}
  {dumpRequest : ActionRequest → Text}

instance (n : Nat) (label : HarnessLabel) (store : HarnessStore) :
    Decidable ((harnessDiscipline sha256 dump dumpRequest true).meets n label store) :=
  match label with
  | .storeJob project action =>
    decidable_of_iff
      ((store.action project action).all (fun row => row.record.result.isNone) = true)
      (by simp [harnessDiscipline, Option.all_eq_true])
  | .access | .publish _ _ _ => isTrue (fun _ => trivial)

/-- What later states keep of an action that has a result. A publication that was
committed may replace a result that does not know the outcome. -/
structure ActionRow.ResultStays (row row' : ActionRow) : Prop where
  identity : row'.identity = row.identity
  settled : row.record.settled = true →
    row'.record.result = row.record.result ∧ row'.record.status = row.record.status ∧
      row'.record.publication = row.record.publication
  recovered : ∀ publication result, row.record.publication = some publication →
    row.record.result = some result → result.outcomeUnknown = true →
    row'.record.publication = some publication ∧
      ∃ result', row'.record.result = some result' ∧ result'.Tells publication

/-- In a run without a stale job every result that was stored stays. -/
theorem settled_results_stay (sha256 : Text → Text) (dump : KnowledgeRecord → Text)
    (dumpRequest : ActionRequest → Text) (jobs : JobStore) (library : Library)
    (events more : List (Event HarnessInput HarnessCall))
    (hfresh : (harnessDiscipline sha256 dump dumpRequest true).Meets
      (harnessMachine sha256 dump dumpRequest) (idleHarness jobs library) (events ++ more)) :
    ∀ project id row, ((harnessMachine sha256 dump dumpRequest).run (idleHarness jobs library)
        events).store.action project id = some row →
      ∃ row', ((harnessMachine sha256 dump dumpRequest).run (idleHarness jobs library)
        (events ++ more)).store.action project id = some row' ∧ row.ResultStays row' := by
  intro project id row hrow
  obtain ⟨hevents, hmore⟩ := (Discipline.meets_append _).mp hfresh
  have hidle : (harnessDiscipline sha256 dump dumpRequest true).Holds
      (idleHarness jobs library) := idleHarness_holds jobs library
  obtain ⟨hholds, -⟩ := hidle.run harness_starts events hevents
  have hevolves := (hholds.run harness_starts more hmore).2
  rw [Machine.run_append]
  obtain ⟨row', hrow', hkept⟩ := hevolves.actions project id row hrow
  refine ⟨row', hrow', hkept.identity, hkept.settled rfl, ?_⟩
  intro publication result hpublication hresult hunknown
  exact ⟨hkept.published publication hpublication,
    hkept.recovered rfl publication result hpublication hresult hunknown⟩

/-- The first runner keeps its row and settles it. -/
def undisturbedRun : List (Event HarnessInput HarnessCall) :=
  smallRun ++ (List.range 7).map (fun k => .step 2 (smallInput (3 + k) []))

/-- The first runner prepares its job and stalls. Its row expires, and the second
runner settles the action. -/
def takeoverRun : List (Event HarnessInput HarnessCall) :=
  smallRun ++
    [.step 2 (smallInput 3 []),
      .start (.renew "p" "i" smallCaller) (smallInput 50000 []),
      .start (.run smallCaller "p" "i" "x" (some 3)) (smallInput 70000 [])] ++
    (List.range 6).map (fun k => .step 4 (smallInput (70001 + k) []))

theorem settled_results_stay_undisturbed :
    ∃ row row', (smallMachine.run (idleHarness smallJobs smallLibrary)
        undisturbedRun).store.action "p" "x" = some row ∧
      (smallMachine.run (idleHarness smallJobs smallLibrary)
        (undisturbedRun ++ [.crash 2])).store.action "p" "x" = some row' ∧
      row.record.settled = true ∧ row.ResultStays row' := by
  have hstored : ∃ row, (smallMachine.run (idleHarness smallJobs smallLibrary)
      undisturbedRun).store.action "p" "x" = some row ∧
        row.record.settled = true := by
    have hsettled : ((smallMachine.run (idleHarness smallJobs smallLibrary)
        undisturbedRun).store.action "p" "x").any
          (fun row => row.record.settled) = true := by decide
    simpa [Option.any_eq_true] using hsettled
  obtain ⟨row, hrow, hsettled⟩ := hstored
  obtain ⟨row', hrow', hstays⟩ := settled_results_stay _ _ _ smallJobs smallLibrary
    undisturbedRun [.crash 2] (by decide) _ _ row hrow
  exact ⟨row, row', hrow, hrow', hsettled, hstays⟩

/-- The first runner resumes, and the result of the second one is gone. -/
theorem stale_job_erases_result :
    let before := (smallMachine.run (idleHarness smallJobs smallLibrary) takeoverRun).store
    let after := (smallMachine.run (idleHarness smallJobs smallLibrary)
      (takeoverRun ++ [.step 2 (smallInput 70007 [])])).store
    (before.action "p" "x").map
        (fun row => (row.record.status, row.record.settled, row.runner)) =
          some (.ended .completed, true, none) ∧
      (after.action "p" "x").map
        (fun row => (row.record.status, row.record.result.isSome, row.runner)) =
          some (.running, false, none) := by
  decide

end Indago
