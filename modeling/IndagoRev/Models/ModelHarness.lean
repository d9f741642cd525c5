import IndagoRev.Models.ModelBudget
import IndagoRev.Workbench.Freshness
import IndagoRev.Workbench.HarnessPublication

/-!
# What a harness promises while a model drives it

Explorations of an investigation propose and run actions beside every other command, crash
and are taken over.  The only command left out is a hand-over of that investigation to another
owner, which ends its run.  The tables of the harness stay sound as they do without a model.

Main results: `exploration_keeps_harness` for budgets, publications and knowledge,
`exploration_keeps_runners` for the actions that are held.  Both read the invariant of the run
(`exploration_holds`).
-/

namespace Indago

open StdText Interleaving

/-- Budgets are counted and kept, a key has one action, an action one revision, and
the knowledge its history. -/
structure HarnessKept (ctx : ExploreContext) (store : HarnessStore) : Prop where
  budgets : ∀ project id row, store.investigation project id = some row →
    row.record.reserved = Reserved.of (store.requests project id) ∧
      row.record.reserved.Within row.record.limits row.record.envelope.derivedArtifacts
  keyed : ∀ r ∈ store.actions, ∀ r' ∈ store.actions, r.slot = r'.slot → r = r'
  once : ∀ row ∈ store.actions, (store.revisionsOf row).length ≤ 1
  published : ∀ row ∈ store.actions, ∀ publication, row.record.publication = some publication →
    ∃ found ∈ store.records, row.Published ctx.sha256 ctx.dumpRequest publication found
  pointed : ∀ found ∈ store.records, ∀ origin, found.record.harnessOrigin = some origin →
    ∃ row ∈ store.actions, row.project = found.project ∧ row.id = origin.action ∧
      row.record.publication = some ⟨found.id, found.revision, found.sha, origin⟩
  contiguous : ∀ project id, store.knowledge.revisions project id =
    List.range' 1 ((store.knowledge.head project id).getD 0)
  shown : FreshnessDecided ctx.sha256 ctx.dump store.knowledge

/-- Who holds an action is running it, nobody runs one in an investigation that is
closed, and only what was dispatched before is published. -/
structure RunnersKept (store : HarnessStore) : Prop where
  held : ∀ row ∈ store.actions, row.runner.isSome = true →
    row.record.status = .running ∧ row.record.settled = false
  closed : ∀ project id row, store.investigation project id = some row →
    row.record.status.closed = true → ∀ action ∈ store.actionsOf project id, action.runner = none
  dispatched : ∀ row ∈ store.actions, row.record.publication.isSome = true →
    row.record.request.work.workbench = true ∧ row.record.dispatchStarted = true

variable (ctx : ExploreContext) (jobs : JobStore) (library : Library)
  (events : List (Event ExploreInput ExploreCall))

theorem exploration_holds : (exploreDiscipline ctx).Holds
    ((exploreMachine ctx).run (idleExplore jobs library) events) :=
  (Discipline.Holds.run explore_starts (idleExplore_holds jobs library) events
    (explore_meets _ _)).1

/-- **The harness under exploration.**  Budgets, publications and knowledge stay sound. -/
theorem exploration_keeps_harness : HarnessKept ctx
    ((exploreMachine ctx).run (idleExplore jobs library) events).store.harness := by
  have hinv := (exploration_holds ctx jobs library events).inv
  have hsound := hinv.harness
  constructor
  · intro project id row hrow
    obtain ⟨rfl, rfl⟩ := investigation_name hrow
    have hbudget := hsound.investigations _ _ row hrow
    exact ⟨hbudget.counted, hbudget.within⟩
  · exact hinv.single
  · exact fun row hrow => revisionsOf_le_one hsound hrow
  · exact hsound.published
  · exact hsound.origins
  · exact hsound.knowledge.contiguous
  · exact hsound.knowledge.freshness

/-- **Runners under exploration.**  Held actions are running, in investigations that are open. -/
theorem exploration_keeps_runners : RunnersKept
    ((exploreMachine ctx).run (idleExplore jobs library) events).store.harness := by
  have hsound := (exploration_holds ctx jobs library events).inv.harness
  constructor
  · intro row hrow hheld
    exact ⟨(hsound.rows row hrow).running hheld, (hsound.rows row hrow).held hheld⟩
  · intro project id row hrow
    obtain ⟨rfl, rfl⟩ := investigation_name hrow
    exact (hsound.investigations _ _ row hrow).closed
  · intro row hrow hpublished
    refine ⟨?_, (hsound.rows row hrow).dispatched hpublished⟩
    by_contra hstatic
    have hnone := ((hsound.rows row hrow).static (by simpa using hstatic)).1
    simp [hnone] at hpublished

end Indago
