import IndagoRev.Models.ModelRuns

/-!
# The budget of a model run

In every state that the runners of an investigation reach, the stored counters agree
with what was reserved and sent, no request goes out twice, a request that a crash
interrupted stays the last one, and a request of a decision has one action.

Main result: `model_budget_kept`, from `explore_starts` and the invariant of a run.
-/

namespace Indago

open StdText Tables Transactions Interleaving Program List

variable {ctx : ExploreContext} {request : ExploreRequest} {store : ExploreStore}
  {limit n k : Nat}

theorem each_worker {opts : ActionOptions} :
    (workbenchWorker ctx.sha256 ctx.dump ctx.dumpRequest opts).Each KeepsActions := by
  refine Each.bind (keepsActions_each (each_leaves fun env => ?_)) fun action =>
    (keepsActions_each (each_leaves fun _ => leaves_loadInvestigation)).bind fun inv =>
    each_ite (each_pure _) (each_ite (each_throw _) ?_)
  · refine leaves_actionRecord.bind fun found => ?_
    split
    · exact leaves_pure _
    · exact leaves_throw _
  refine (keepsActions_each (each_leaves fun env => ?_)).bind fun normal =>
    Each.bind (each_atomically ?_ ?_) fun _ => each_pure _
  · exact fun _ _ _ h => by rw [← (normalizeAgain_ok h).2]
  · exact fun _ _ => rfl
  intro env s a s' h
  by_cases hbusy : env.busy = true
  · rw [if_pos hbusy] at h
    exact absurd h throw_ok
  · rw [if_neg hbusy] at h
    obtain ⟨row, knowledge, hstep⟩ := publishRecord_ok h
    obtain ⟨change, _, _, hwritten⟩ := hstep.written
    rw [hwritten]
    simp [KeepsActions, HarnessStore.withAction, rewrite]

variable {before after : HarnessStore}

/-- What a transaction of the harness does with the keys of its actions. -/
theorem single_of_rows (hsound : before.Sound ctx.sha256 ctx.dump ctx.dumpRequest k)
    (hcommits : (harnessDiscipline ctx.sha256 ctx.dump ctx.dumpRequest false).Commits k before
      after) (hcount : after.actions.length = before.actions.length) :
    before.Single → after.Single := by
  have hafter := hcommits.keeps (k + 1) (Nat.lt_succ_self k) (hsound.mono (Nat.le_succ k))
  refine single_of_count hsound.names hafter.names ?_ hcount
  intro project id row hrow
  obtain ⟨row', hrow', hevolves⟩ := hcommits.evolves.actions project id row hrow
  exact ⟨row', hrow', hevolves.identity⟩

variable {a : Unit}

theorem transaction_count {env : HarnessInput} {call : HarnessCall}
    (hcall : ∀ caller propose, call ≠ .propose caller propose)
    (h : call.transaction ctx.sha256 ctx.dump ctx.dumpRequest env before = .ok (a, after)) :
    after.actions.length = before.actions.length := by
  have hplain : ∀ {t : HarnessTx Unit}, Leaves HarnessStore.tables t →
      t before = .ok (a, after) → after.actions.length = before.actions.length :=
    fun hview ht => (Prod.mk.inj (hview before a after ht)).2
  have hleaves : ∀ {α : Type} {t : HarnessTx α}, Leaves HarnessStore.tables t →
      (do let _ ← t : HarnessTx Unit) before = .ok (a, after) →
      after.actions.length = before.actions.length :=
    fun hview ht => hplain (hview.bind fun _ => leaves_pure _) ht
  cases call with
  | create request => exact hleaves leaves_createInvestigation h
  | claim project id controller expected => exact hleaves leaves_claimInvestigation h
  | renew project id caller => exact hplain leaves_renewInvestigation h
  | cancel project id caller => exact hleaves leaves_cancelInvestigation h
  | release project id caller expected next => exact hleaves leaves_releaseInvestigation h
  | note project id caller expected note => exact hleaves leaves_noteInvestigation h
  | propose caller propose => exact absurd rfl (hcall caller propose)
  | finish caller request => exact hleaves leaves_finishInvestigation h
  | run | worker =>
    cases h
    rfl
  | beat opts token => exact hplain leaves_beatAction h
  | controllers rows =>
    cases modify_ok.mp h
    rfl
  | put request internal =>
    obtain ⟨record, middle, hput, hend⟩ := bind_ok.mp h
    cases hend
    obtain ⟨knowledge, _, hstore⟩ := overKnowledge_ok.mp hput
    dsimp only at hstore
    rw [hstore]
  | library change => exact hplain leaves_changeLibrary h
  | target imported =>
    have hview : Leaves HarnessStore.tables (addTarget imported) := by
      refine leaves_changeLibrary.bind fun _ => leaves_modify ?_
      exact fun _ => rfl
    exact hplain hview h
  | job call => exact hleaves leaves_overJobs h

/-- How a call of the harness starts. -/
structure HarnessStart (ctx : ExploreContext) (k : Nat) (before : HarnessStore)
    (started : HarnessStore × Proc HarnessInput HarnessLabel HarnessStore Unit) : Prop where
  commits : (harnessDiscipline ctx.sha256 ctx.dump ctx.dumpRequest false).Commits k before started.1
  single : before.Single → started.1.Single
  safe : (harnessDiscipline ctx.sha256 ctx.dump ctx.dumpRequest false).Safe k started.2
    (fun _ _ => True) started.1
  each : started.2.Each KeepsActions

theorem harness_start {before : HarnessStore} (call : HarnessCall) (env : HarnessInput)
    (hsound : before.Sound ctx.sha256 ctx.dump ctx.dumpRequest k) : HarnessStart ctx k before
      ((harnessMachine ctx.sha256 ctx.dump ctx.dumpRequest).start call k env before) := by
  have hstill : HarnessStart ctx k before (before, .done ()) :=
    ⟨.refl _ k before, id, trivial, trivial⟩
  have hcall : ∀ call : HarnessCall,
      (harnessMachine ctx.sha256 ctx.dump ctx.dumpRequest).start call k env before =
        before.answered (call.transaction ctx.sha256 ctx.dump ctx.dumpRequest env before) →
      HarnessStart ctx k before
        ((harnessMachine ctx.sha256 ctx.dump ctx.dumpRequest).start call k env before) := by
    intro call hstart
    rw [hstart]
    cases h : call.transaction ctx.sha256 ctx.dump ctx.dumpRequest env before with
    | error e => exact hstill
    | ok answer =>
      have hcommits : (harnessDiscipline ctx.sha256 ctx.dump ctx.dumpRequest false).Commits k
          before answer.2 := commits_transaction env call before answer.1 answer.2 h ⟨k, hsound⟩
      refine ⟨hcommits, ?_, trivial, trivial⟩
      by_cases hpropose : ∃ caller propose, call = .propose caller propose
      · obtain ⟨caller, propose, rfl⟩ := hpropose
        obtain ⟨action, middle, hproposed, hend⟩ := bind_ok.mp h
        cases hend
        exact (proposed_single hproposed (hsound.mono (Nat.le_succ k))
          (hcommits.keeps (k + 1) (Nat.lt_succ_self k) (hsound.mono (Nat.le_succ k)))).1
      · exact single_of_rows hsound hcommits
          (transaction_count (fun caller propose h => hpropose ⟨caller, propose, h⟩) h)
  cases call with
  | run caller project id action expected =>
    simp only [harnessMachine]
    cases h : claimAction ctx.sha256 env caller project id action expected k before with
    | error e => exact hstill
    | ok answer =>
      obtain ⟨claimed, after⟩ := answer
      have hstep := claimAction_ok hsound h
      have hcommits : (harnessDiscipline ctx.sha256 ctx.dump ctx.dumpRequest false).Commits k
          before after := commits_claimAction hstep
      have hcount : after.actions.length = before.actions.length :=
        (Prod.mk.inj (leaves_claimAction before claimed after h)).2
      cases claimed with
      | answered record =>
        exact ⟨hcommits, single_of_rows hsound hcommits hcount, trivial, trivial⟩
      | runs record inv =>
        have hrun : Ensures (harnessDiscipline ctx.sha256 ctx.dump ctx.dumpRequest false) k
            (runAction ctx.sha256 ctx.dump ctx.dumpRequest ⟨project, id, action, k⟩)
            (fun _ _ _ => True) ⟨record, inv⟩ after :=
          ensures_runAction (claimed_copy hsound hstep)
        exact ⟨hcommits, single_of_rows hsound hcommits hcount, hrun.process,
          (keepsActions_each each_runAction).process _⟩
  | worker opts =>
    have hworker : Ensures (harnessDiscipline ctx.sha256 ctx.dump ctx.dumpRequest false) k
        (workbenchWorker ctx.sha256 ctx.dump ctx.dumpRequest opts) (fun _ _ s => before.Kept s)
        () before := steady_workbenchWorker () before
    exact ⟨.refl _ k before, id, hworker.process, each_worker.process ()⟩
  | create | claim | renew | cancel | release | note | propose | finish | beat | controllers | put |
    library | target | job => exact hcall _ rfl

variable {store' : ExploreStore} {runner now : Nat}

theorem beatController_ok {token : Text}
    (h : beatController ctx runner now token store = .ok (a, store')) :
    ∃ row found, store.row = some row ∧ row.runner = some runner ∧
      store.harness.investigation ctx.project ctx.id = some found ∧ store' = { store with
        row := some { row with deadline := now + 60000 }
        harness := (ExploreStore.visible ctx
          { store with row := some { row with deadline := now + 60000 } }).withInvestigation
            ctx.project ctx.id (fun r => { r with deadline := now + 60000 }) } := by
  simp only [beatController, bind_ok, get_ok] at h
  obtain ⟨_, _, hget, h⟩ := h
  cases hget
  cases hrow : store.row with
  | none =>
    rw [hrow] at h
    exact absurd h throw_ok
  | some row =>
    rw [hrow] at h
    dsimp only at h
    split at h
    · next hrunner =>
        simp only [bind_ok, set_ok] at h
        obtain ⟨_, _, hset, h⟩ := h
        cases hset
        obtain ⟨harness, h, hstore⟩ := overHarness_ok h
        simp only [bind_ok, loadInvestigation_ok] at h
        obtain ⟨found, _, ⟨hfound, rfl⟩, h⟩ := h
        split at h
        · exact absurd h throw_ok
        · rw [updateInvestigation_ok] at h
          cases h
          exact ⟨row, found, rfl, hrunner, hfound, hstore⟩
    · exact absurd h throw_ok

theorem commits_beatController {token : Text}
    (h : beatController ctx runner now token store = .ok (a, store')) :
    (exploreDiscipline ctx).Commits n store store' := by
  obtain ⟨row, found, hrow, _, hfound, rfl⟩ := beatController_ok h
  have hleased : (exploreDiscipline ctx).Commits n store
      { store with row := some { row with deadline := now + 60000 } } :=
    commits_leased hrow rfl (fun _ hm => hm)
  apply hleased.trans
  exact commits_rows (commits_visible.trans
    (commits_lease (fun _ => rfl) (fun _ => rfl) hfound)) rfl

theorem ExploreStore.Sound.mono (h : store.Sound ctx n) (hle : n ≤ k) : store.Sound ctx k :=
  { h with harness := h.harness.mono hle }

theorem explore_start {p : Proc ExploreInput ExploreLabel ExploreStore Unit}
    (hsound : store.Sound ctx k) (h : (exploreDiscipline ctx).Commits k store store')
    (hsafe : (exploreDiscipline ctx).Safe k p (fun _ _ => True) store') :
    store'.Sound ctx (k + 1) ∧ (∀ m, m < k → store.Relies ctx m store') ∧
      store.effects <+: store'.effects ∧
      (exploreDiscipline ctx).Safe k p (fun _ _ => True) store' :=
  ⟨h.keeps (k + 1) (Nat.lt_succ_self k) (hsound.mono (Nat.le_succ k)),
    fun m hm => h.others m (Nat.ne_of_lt hm), h.evolves, hsafe⟩

theorem safe_outside {p : Proc HarnessInput HarnessLabel HarnessStore Unit} {s : ExploreStore}
    (h : (harnessDiscipline ctx.sha256 ctx.dump ctx.dumpRequest false).Safe k p (fun _ _ => True)
      s.harness) (heach : p.Each KeepsActions) :
    (exploreDiscipline ctx).Safe k (p.embed (harnessPart .outside)) (fun _ _ => True) s := by
  have hstable : ∀ s s' : ExploreStore, (exploreDiscipline ctx).rely k s s' → True → True :=
    fun _ _ _ _ => trivial
  have hsafe := Discipline.Safe.embed (explore_contains (n := k) .outside) hstable
    (fun _ _ _ _ => trivial) h heach trivial
  exact hsafe.mono fun _ _ _ => trivial

/-- Every call starts a process that keeps the discipline. -/
theorem explore_starts : (exploreDiscipline ctx).Starts (exploreMachine ctx) := by
  intro call k env store hsound
  cases call with
  | explore request rounds =>
    have hrun : Ensures (exploreDiscipline ctx) k (harnessExplore ctx request k rounds)
        (fun _ _ _ => True) (.initial ctx) store := ensures_harnessExplore
    exact explore_start hsound (.refl _ k store) hrun.process
  | heartbeat runner token =>
    have hbeat : Ensures (exploreDiscipline ctx) k (Program.atomically (.runner runner) (fun env =>
        if env.harness.busy then throw (.other "database is locked")
        else beatController ctx runner env.harness.now token) : ExploreProgram Unit)
        (fun _ _ _ => True) (.initial ctx) store := by
      apply ensures_atomically
      intro s' _ k' _ _ _
      refine ⟨trivial, fun env => ⟨fun a s'' h => ⟨?_, trivial⟩, fun _ _ => trivial⟩⟩
      exact commits_beatController (exploreQuery_ok h)
    exact explore_start hsound (.refl _ k store) hbeat.process
  | harness call =>
    simp only [exploreMachine]
    split
    · have hstart := harness_start call env.harness (visible_sound hsound)
      have hcommits : (exploreDiscipline ctx).Commits k store { store with
          harness := ((harnessMachine ctx.sha256 ctx.dump ctx.dumpRequest).start call k
            env.harness (store.visible ctx)).1 } :=
        commits_tables (commits_visible.trans hstart.commits) (fun _ _ _ => hstart.single)
      refine explore_start hsound hcommits ?_
      exact safe_outside hstart.safe hstart.each
    · exact explore_start hsound (.refl _ k store) trivial

theorem idleExplore_holds (jobs : JobStore) (library : Library) :
    (exploreDiscipline ctx).Holds (idleExplore jobs library) where
  inv :=
    { harness := HarnessStore.Sound.fresh jobs library
      single := fun _ h => absurd h not_mem_nil
      lawful := .nil
      unstarted := fun _ => rfl
      counted := fun _ h => by cases h
      balanced := fun _ h => by cases h
      closed := fun _ h => by cases h
      turned := fun _ _ _ _ h => absurd h not_mem_nil }
  safe := fun _ _ h => by cases h

theorem explore_meets (st : Machine.State ExploreInput ExploreLabel ExploreStore)
    (events : List (Event ExploreInput ExploreCall)) :
    (exploreDiscipline ctx).Meets (exploreMachine ctx) st events :=
  Discipline.meets_of_forall (fun _ _ _ => trivial) st events

theorem explore_each (call : ExploreCall) (n : Nat) (env : ExploreInput) (store : ExploreStore) :
    RowRule none env store ((exploreMachine ctx).start call n env store).1 ∧
      ((exploreMachine ctx).start call n env store).2.Each RowRule := by
  cases call with
  | explore request rounds => exact ⟨Or.inl rfl, each_harnessExplore.process _⟩
  | heartbeat runner token =>
    refine ⟨Or.inl rfl, Each.process (each_atomically (fun _ _ => Or.inl rfl) ?_) _⟩
    intro env s a s' h
    obtain ⟨row, _, hrow, hrunner, _⟩ := beatController_ok (exploreQuery_ok h)
    exact Or.inr ⟨runner, rfl, Or.inl ⟨row, hrow, hrunner⟩⟩
  | harness call =>
    simp only [exploreMachine]
    split
    · exact ⟨Or.inl rfl, Proc.each_embed (fun _ _ _ _ => Or.inl rfl) _⟩
    · exact ⟨Or.inl rfl, trivial⟩

/-- Each effect of a lawful ledger was allowed by those before it. -/
theorem Lawful.allowed {log : List ModelEffect} (h : Lawful log) {before after : List ModelEffect}
    {e : ModelEffect} (hlog : log = before ++ e :: after) : e.Allowed before := by
  induction h generalizing after with
  | nil => simp at hlog
  | snoc log last h hlast ih =>
    rcases eq_nil_or_concat' after with rfl | ⟨more, e', rfl⟩
    · obtain ⟨rfl, hsame⟩ := append_inj' hlog rfl
      cases hsame
      exact hlast
    · rw [← cons_append, ← append_assoc] at hlog
      exact ih (append_inj' hlog rfl).1

theorem ExploreStore.Sound.stands_single (h : store.Sound ctx k) {part : DecisionRequest}
    {a a' : Text} (hstands : store.Stands ctx part a) (hstands' : store.Stands ctx part a') :
    a = a' := by
  obtain ⟨row, hrow, hinvestigation, hkey⟩ := hstands
  obtain ⟨row', hrow', hinvestigation', hkey'⟩ := hstands'
  have hname := action_name hrow
  have hname' := action_name hrow'
  have hsame : row = row' := by
    apply h.single row (row_some_mem hrow) row' (row_some_mem hrow')
    simp only [ActionRow.slot, Prod.mk.injEq]
    exact ⟨hname.1.trans hname'.1.symm, hinvestigation.trans hinvestigation'.symm,
      hkey.trans hkey'.symm⟩
  rw [← hname.2, ← hname'.2, hsame]

/-- What the runners of an investigation keep to, in a state and whatever follows. -/
structure ModelGuarantee (ctx : ExploreContext)
    (st : Machine.State ExploreInput ExploreLabel ExploreStore) : Prop where
  /-- The counter is within its limit. -/
  within : ∀ row, st.store.row = some row →
    row.record.generations ≤ row.record.maxGenerations ∧ row.record.maxGenerations ≤ 128
  /-- It counts the generations that were not given back, numbered from one on. -/
  counted : ∀ row, st.store.row = some row →
    row.record.generations = (reservations st.store.effects).length
  numbered : (reservations st.store.effects).map Prod.snd =
    List.range' 1 (reservations st.store.effects).length
  /-- Every request has a counted generation, and no generation has two. -/
  requested : ∀ p ∈ transports st.store.effects, p ∈ reservations st.store.effects
  once : ((transports st.store.effects).map Prod.snd).Nodup
  /-- A generation is given back only if its request was not sent. -/
  refunded : ∀ before after n g, st.store.effects = before ++ .returned n g :: after →
    (n, g) ∈ reservations before ∧ (n, g) ∉ transports before
  /-- The reservations of tokens and time agree with the counter. -/
  tokens : ∀ row, st.store.row = some row →
    row.record.reservedOutputTokens = ctx.profile.outputTokens * row.record.generations
  duration : ∀ row, st.store.row = some row →
    row.record.reservedGenerationMs = ctx.profile.generationMs * row.record.generations
  /-- A decision asks for its analysis or for the steps of its workflow, and each
  such request has one action. -/
  asked : ∀ g d part a, ModelEffect.turned g d part a ∈ st.store.effects → d.Asks ctx g part
  single : ∀ g g' d d' part a a', ModelEffect.turned g d part a ∈ st.store.effects →
    ModelEffect.turned g' d' part a' ∈ st.store.effects → a = a'
  /-- What a process reserved before it crashed is not sent afterwards. -/
  unsent : ∀ n g more, n < st.procs.length → (n, g) ∈ reservations st.store.effects →
    ∀ m, (m, g) ∈ transports ((exploreMachine ctx).run st (.crash n :: more)).store.effects →
      (m, g) ∈ transports st.store.effects
  /-- And while its request was on its way, no generation is counted afterwards. -/
  interrupted : ∀ n more row, n < st.procs.length → st.store.row = some row →
    row.record.phase = .requestInflight →
    (n, row.record.generations) ∈ reservations st.store.effects →
    reservations ((exploreMachine ctx).run st (.crash n :: more)).store.effects =
      reservations st.store.effects
  /-- The row changes for its owner, or is taken over once its lease has ended. -/
  owned : ∀ e, Machine.Does RowRule st ((exploreMachine ctx).next st e).store e

/-- After the crash of a runner the others do what they may do beside it. -/
theorem crashed_relies {st : Machine.State ExploreInput ExploreLabel ExploreStore}
    (h : (exploreDiscipline ctx).Holds st) (hn : n < st.procs.length)
    (more : List (Event ExploreInput ExploreCall)) :
    st.store.Relies ctx n ((exploreMachine ctx).run st (.crash n :: more)).store :=
  Discipline.Holds.run_rely explore_starts (h.crash n) (Machine.crash_done hn) more
    (explore_meets _ _)

/-- Over any sequence of runs, beats, crashes, takeovers and other commands the
budget of the model is kept. -/
theorem model_budget_kept (ctx : ExploreContext) (jobs : JobStore) (library : Library)
    (events : List (Event ExploreInput ExploreCall)) :
    ModelGuarantee ctx ((exploreMachine ctx).run (idleExplore jobs library) events) := by
  have hidle : (exploreDiscipline ctx).Holds (idleExplore jobs library) :=
    idleExplore_holds jobs library
  have hholds := (hidle.run explore_starts events (explore_meets _ _)).1
  have hlater : ∀ more, ((exploreMachine ctx).run
      ((exploreMachine ctx).run (idleExplore jobs library) events) more).store.Sound ctx
      ((exploreMachine ctx).run
        ((exploreMachine ctx).run (idleExplore jobs library) events) more).procs.length :=
    fun more => (hholds.run explore_starts more (explore_meets _ _)).1.inv
  have hsound := hholds.inv
  exact
    { within := fun row hrow => ⟨(hsound.balanced row hrow).within,
        (hsound.balanced row hrow).bounded⟩
      counted := hsound.counted
      numbered := hsound.lawful.numbers
      requested := hsound.lawful.transports.1
      once := by
        apply List.Nodup.map_on _ hsound.lawful.transports.2
        intro p hp q hq hsame
        have hp' := hsound.lawful.transports.1 p hp
        have hq' := hsound.lawful.transports.1 q hq
        obtain ⟨n, g⟩ := p
        obtain ⟨m, g'⟩ := q
        obtain rfl : g = g' := hsame
        rw [hsound.lawful.unique hp' hq']
      refunded := fun before after n g hlog => by
        have hallowed := hsound.lawful.allowed hlog
        exact ⟨mem_of_getLast? hallowed.1, hallowed.2⟩
      tokens := fun row hrow => (hsound.balanced row hrow).tokens
      duration := fun row hrow => (hsound.balanced row hrow).duration
      asked := fun g d part a hmem => (hsound.turned g d part a hmem).1
      single := fun g g' d d' part a a' hmem hmem' =>
        hsound.stands_single (hsound.turned g d part a hmem).2 (hsound.turned g' d' part a' hmem').2
      unsent := fun n g more hn hmem m hsent => by
        have hrelies := crashed_relies hholds hn more
        have hafter := hlater (.crash n :: more)
        -- a later request of this number has the same runner
        have hown := hafter.lawful.unique (hafter.lawful.transports.1 _ hsent)
          (hrelies.reserved g hmem)
        subst hown
        exact (hrelies.sent g).mp hsent
      interrupted := fun n more row hn hrow hphase hmem => by
        have hrelies := crashed_relies hholds hn more
        refine (hrelies.locked ⟨row, row.record.generations, hrow, Or.inl hphase, ?_⟩).2
        have hcount := hsound.counted row hrow
        rw [hcount] at hmem ⊢
        exact hsound.lawful.last hmem
      owned := fun e => Machine.run_each explore_each (fun _ hp => absurd hp not_mem_nil)
        events e }

def smallContext : ExploreContext where
  project := "p"
  id := "i"
  profile := ⟨[], 4096, 64, 1000, by decide, by decide⟩
  sha256 := fun t => t.filter (· ≠ ':')
  dump := fun _ => []
  dumpRequest := fun _ => []
  dumpDraft := fun _ => []
  page := fun _ => .ok ("a", "0x10")

def smallExplore : ExploreRequest := ⟨"token", true, some 1, none, none⟩

def smallWorkflow : Decision := .function false (.direct ⟨"e", "/program/entry"⟩)

/-- The surroundings of one step, with the id that is drawn next. -/
def smallSurroundings (freshId : Text) (busy : Bool) : ExploreInput where
  harness := { smallInput 1 freshId with busy := busy }
  cancelled := false
  refused := none
  bodyBytes := 0
  transport := .decoded smallWorkflow 0
  draft := ⟨none, none, none, none, .static [] [] [] [] [], [], none, none, none⟩
  feedback := ⟨[], none, none⟩
  inventory := none
  calls := []
  recovered := false
  reasoning := []
  status := .partialAnswer
  answer := []
  claims := []
  gaps := []
  notes := []

/-- A run up to the second action of its first decision. -/
def smallExploreRun : List (Event ExploreInput ExploreCall) :=
  [.start (.harness (.create { smallCreate with
      owner := ⟨true, "owner"⟩, wallMs := some 600000, outputBytes := some 8388608 }))
      (smallSurroundings "i" false),
    .start (.explore smallExplore 1) (smallSurroundings [] false)] ++
  List.replicate 20 (.step 1 (smallSurroundings "x" false)) ++
  [.step 1 (smallSurroundings "x" true)] ++
  List.replicate 6 (.step 1 (smallSurroundings "y" false))

/-- One decision of one generation is turned into two actions. -/
theorem decision_turned_twice :
    let log := ((exploreMachine smallContext).run (idleExplore smallJobs smallLibrary)
      smallExploreRun).store.effects
    ¬ ∀ g d part part' a a', ModelEffect.turned g d part a ∈ log →
      ModelEffect.turned g d part' a' ∈ log → a = a' := by
  intro log h
  have hsame := h 1 smallWorkflow (.workflow "a:0x10" 0) (.workflow "a:0x10" 1)
    "x" "y" (by decide +kernel) (by decide +kernel)
  exact absurd hsame (by decide)

end Indago
