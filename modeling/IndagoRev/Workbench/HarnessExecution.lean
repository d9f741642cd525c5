import IndagoRev.Workbench.HarnessProposals

/-!
# Runs of actions keep the discipline

A run works on a copy of its record. The copy agrees with the stored row in all
that was proposed, and before the dispatch of a mutation in everything, since a
row that a run holds is changed by nobody else.
-/

namespace Indago

open StdText Tables Transactions Interleaving List

variable {sha256 : Text → Text} {dump : KnowledgeRecord → Text}
  {dumpRequest : ActionRequest → Text} {guarded : Bool}
variable {store store' : HarnessStore} {project id aid : Text} {n k : Nat}

theorem withAction_twice {change again : ActionRow → ActionRow}
    (hname : ∀ row, (change row).name = row.name) :
    (store.withAction project aid change).withAction project aid again =
      store.withAction project aid (again ∘ change) := by
  unfold HarnessStore.withAction
  rw [rewrite_rewrite hname]

variable {action : ActionRecord} {r : Unit × HarnessStore}

@[simp] theorem saveAction_ok : saveAction action store = .ok r ↔
      r = ((), store.withAction action.project action.id (fun row => { row with record := action })) :=
  modify_ok

/-- The row of an action that a runner takes. -/
def ActionRow.claimed (row : ActionRow) (runner deadline : Nat) : ActionRow :=
  { row with
    runner := some runner, deadline := deadline, record := { row.record with status := .running } }

/-- What a claim finds and does. -/
inductive ClaimStep (project id aid : Text) (runner deadline : Nat) (store : HarnessStore) :
    Claimed → HarnessStore → Prop where
  | answered (current : ActionRow) (hcurrent : store.action project aid = some current)
      (hsettled : current.record.settled = true) :
      ClaimStep project id aid runner deadline store (.answered current.record) store
  | runs (found : InvestigationRow) (current : ActionRow) (change : ActionRow → ActionRow)
      (hfound : store.investigation project id = some found)
      (hopen : found.record.status.terminal = false)
      (hcurrent : store.action project aid = some current) (howner : current.investigation = id)
      (hunsettled : current.record.settled = false)
      (hname : ∀ row, (change row).name = row.name)
      (hchange : change current = current.claimed runner deadline) :
      ClaimStep project id aid runner deadline store
        (.runs { current.record with status := .running }
          { found.record with status := .running, revision := found.record.revision + 1 })
        ((store.withAction project aid change).revised project id
          { found.record with status := .running })

variable {env : HarnessInput}

/-- What a claim found, and what it gave to the runner. -/
theorem claimAction_ok {caller : Caller} {expected : Option Nat}
    {runner : Nat} {claimed : Claimed} (hsound : store.Sound sha256 dump dumpRequest k)
    (h : claimAction sha256 env caller project id aid expected runner store =
      .ok (claimed, store')) :
    ClaimStep project id aid runner (env.now + 60000) store claimed store' := by
  simp only [claimAction, bind_ok, loadInvestigation_ok, checkController_ok, checkOwnership_ok,
    actionRecord_ok] at h
  obtain ⟨found, _, ⟨hfound, rfl⟩, _, _, ⟨_, hcontroller⟩, _, _, ⟨_, howned⟩, current, _,
    ⟨hcurrent, howner, hsame⟩, h⟩ := h
  cases hcontroller
  cases howned
  cases hsame
  split at h
  · next hsettled =>
      cases pure_ok.mp h
      exact .answered current hcurrent hsettled
  next hunsettled =>
    split at h
    · exact absurd h throw_ok
    next hopen =>
      simp only [bind_ok, checkIdle_ok, checkRevision_ok, updateAction_ok, saveAction_ok,
        saveInvestigation_ok, pure_ok] at h
      obtain ⟨_, _, ⟨_, hidle⟩, _, _, ⟨_, hrevision⟩, _, _, hlease, _, _, hsaved, inv, _,
        hinv, h⟩ := h
      cases hidle
      cases hrevision
      cases hlease
      cases hsaved
      cases hinv
      cases h
      -- the record is saved under its own name, which is that of its row
      have hrow := hsound.rows current (row_some_mem hcurrent)
      obtain ⟨hproject, hid⟩ := action_name hcurrent
      obtain rfl : current.record.project = project := hrow.project.trans hproject
      obtain rfl : current.record.id = aid := hrow.id.trans hid
      rw [withAction_twice]
      · exact .runs found current _ hfound (by simpa using hopen) hcurrent howner
          (by simpa using hunsettled) (fun _ => rfl) rfl
      · exact fun _ => rfl

theorem commits_claimAction {claimed : Claimed} {deadline : Nat}
    (h : ClaimStep project id aid n deadline store claimed store') :
    (harnessDiscipline sha256 dump dumpRequest guarded).Commits n store store' := by
  cases h with
  | answered => exact .refl _ n store
  | runs found current change hfound hopen hcurrent howner hunsettled hname hchange =>
    obtain ⟨hproject, _⟩ := action_name hcurrent
    have hclaimed : (harnessDiscipline sha256 dump dumpRequest guarded).Commits n store
        (store.withAction project aid change) := by
      apply commits_action hcurrent
      exact {
        name := hname
        evolves := by
          rw [hchange]
          refine ⟨⟨rfl, fun _ h => h⟩, fun _ hsettled => ?_,
            fun _ _ result _ hresult hunknown => ⟨result, hresult, .of_unknown hunknown⟩⟩
          rw [hunsettled] at hsettled
          cases hsettled
        publication := by
          rw [hchange]
          rfl
        sound := by
          intro k hk hrow
          rw [hchange]
          exact {
            project := hrow.project
            investigation := hrow.investigation
            id := hrow.id
            key := hrow.key
            hash := hrow.hash
            started := fun m hm => by cases hm; exact hk
            running := fun _ => rfl
            held := fun _ => hunsettled
            static := hrow.static
            dispatched := hrow.dispatched }
        runner := by
          rw [hchange]
          intro m hm
          cases hm
          exact Or.inl rfl
        closed := by
          intro _
          right
          intro row hrow
          rw [hproject, howner, hfound] at hrow
          cases hrow
          exact closed_of_open hopen }
    have hafter : (store.withAction project aid change).investigation project id = some found :=
      hfound
    refine hclaimed.trans (commits_revised hafter ?_)
    refine ⟨rfl, rfl, rfl, rfl, rfl, rfl, fun hterminal => ?_, nofun⟩
    rw [hopen] at hterminal
    cases hterminal

/-- A change that leaves the record and the runner of every action. -/
theorem commits_actionLease {change : ActionRow → ActionRow}
    (hidentity : ∀ row, (change row).identity = row.identity)
    (hrecord : ∀ row, (change row).record = row.record)
    (hrunner : ∀ row, (change row).runner = row.runner) {found : ActionRow}
    (hfound : store.action project aid = some found) :
    (harnessDiscipline sha256 dump dumpRequest guarded).Commits n store
      (store.withAction project aid change) := by
  apply commits_action hfound
  obtain ⟨hproject, hinvestigation, hid, hkey, hhash, _⟩ := identity_eq (hidentity found)
  exact {
    name := by
      intro row
      obtain ⟨hp, _, hi, _⟩ := identity_eq (hidentity row)
      simp only [ActionRow.name, hp, hi]
    evolves := by
      refine ⟨⟨hidentity found, ?_⟩, ?_, ?_⟩
      · intro publication h
        rw [hrecord]
        exact h
      · intro _ _
        rw [hrecord]
        exact ⟨rfl, rfl, rfl⟩
      · intro _ _ result _ hresult hunknown
        rw [hrecord]
        exact ⟨result, hresult, .of_unknown hunknown⟩
    publication := by rw [hrecord]
    sound := by
      intro k _ hrow
      exact {
        project := by rw [hrecord, hproject]; exact hrow.project
        investigation := by rw [hrecord, hinvestigation]; exact hrow.investigation
        id := by rw [hrecord, hid]; exact hrow.id
        key := by rw [hrecord, hkey]; exact hrow.key
        hash := by rw [hrecord, hhash]; exact hrow.hash
        started := by rw [hrunner]; exact hrow.started
        running := by rw [hrunner, hrecord]; exact hrow.running
        held := by rw [hrunner, hrecord]; exact hrow.held
        static := by rw [hrecord]; exact hrow.static
        dispatched := by rw [hrecord]; exact hrow.dispatched }
    runner := by
      intro m hm
      rw [hrunner] at hm
      exact Or.inr ⟨hm, fun _ _ => hrecord found⟩
    closed := by
      intro h
      rw [hrunner] at h
      exact Or.inl h }

theorem commits_anyLease {change : InvestigationRow → InvestigationRow}
    (hname : ∀ row, (change row).name = row.name)
    (hrecord : ∀ row, (change row).record = row.record) :
    (harnessDiscipline sha256 dump dumpRequest guarded).Commits n store
      (store.withInvestigation project id change) := by
  cases hlookup : store.investigation project id with
  | some found => exact commits_lease hname hrecord hlookup
  | none =>
    have hsame : store.withInvestigation project id change = store := by
      unfold HarnessStore.withInvestigation
      rw [rewrite_absent hlookup]
    rw [hsame]
    exact .refl _ n store

variable {opts : ActionOptions}

theorem commits_beatAction {token : Text} :
    (beatAction sha256 env opts token).Commits sha256 dump dumpRequest guarded n := by
  intro store _ store' h _
  simp only [beatAction, bind_ok, get_ok] at h
  obtain ⟨_, _, hget, h⟩ := h
  cases hget
  cases hlookup : store.action opts.project opts.action with
  | none =>
    rw [hlookup] at h
    exact absurd h throw_ok
  | some found =>
    rw [hlookup] at h
    dsimp only at h
    split at h
    · exact absurd h throw_ok
    simp only [bind_ok, updateAction_ok, updateInvestigation_ok] at h
    obtain ⟨_, _, hlease, h⟩ := h
    cases hlease
    cases h
    refine (commits_actionLease ?_ ?_ ?_ hlookup).trans (commits_anyLease ?_ ?_)
    · exact fun _ => rfl
    · exact fun _ => rfl
    · exact fun _ => rfl
    · intro row
      split <;> rfl
    · intro row
      split <;> rfl

/-- What the copy that a run works on has to do with the row of its action. -/
structure Copy (opts : ActionOptions) (action : ActionRecord) (store : HarnessStore) : Prop where
  project : action.project = opts.project
  id : action.id = opts.action
  running : action.status = .running
  stored : ∃ row, store.action opts.project opts.action = some row ∧
    row.record.identity = action.identity ∧
    ∀ publication, action.publication = some publication → row.record.publication = some publication
  static : action.request.work.workbench = false →
    action.result = none ∧ action.publication = none ∧ action.dispatchStarted = false
  held : ∀ row, store.action opts.project opts.action = some row → row.runner = some opts.runner →
    action.request.work.workbench = true → action.dispatchStarted = false → row.record = action

/-- What others do between two accesses of a run keeps its copy. -/
theorem Copy.stable (h : Copy opts action store)
    (hrelies : store.Relies opts.runner store') : Copy opts action store' where
  __ := h
  stored := by
    obtain ⟨row, hrow, hsame, hpublished⟩ := h.stored
    obtain ⟨row', hrow', hkept⟩ := hrelies.actions _ _ row hrow
    exact ⟨row', hrow', (identity_eq hkept.identity).2.2.2.2.2.trans hsame,
      fun publication hp => hkept.published publication (hpublished publication hp)⟩
  held := by
    intro row' hrow' hrunner hworkbench hdispatch
    obtain ⟨row, hrow, hrunner', hsame⟩ := hrelies.held _ _ row' hrow' hrunner
    have hbefore := h.held row hrow hrunner' hworkbench hdispatch
    rw [← hbefore] at hworkbench hdispatch
    rw [hsame hworkbench hdispatch, hbefore]

/-- The mark of a dispatch goes into the row that the run holds. -/
theorem commits_mark {current : ActionRow} (hcopy : Copy opts action store)
    (hcurrent : store.action opts.project opts.action = some current)
    (hrunner : current.runner = some opts.runner)
    (hworkbench : action.request.work.workbench = true)
    (hdispatch : action.dispatchStarted = false) :
    (harnessDiscipline sha256 dump dumpRequest guarded).Commits opts.runner store
      (store.withAction opts.project opts.action
        (fun r => { r with record := { action with dispatchStarted := true } })) := by
  have hsame := hcopy.held current hcurrent hrunner hworkbench hdispatch
  subst hsame
  apply commits_action hcurrent
  exact {
    name := fun _ => rfl
    evolves := ⟨⟨rfl, fun _ h => h⟩, fun _ _ => ⟨rfl, rfl, rfl⟩,
      fun _ _ result _ hresult hunknown => ⟨result, hresult, .of_unknown hunknown⟩⟩
    publication := rfl
    sound := fun k _ hrow => {
      project := hrow.project
      investigation := hrow.investigation
      id := hrow.id
      key := hrow.key
      hash := hrow.hash
      started := hrow.started
      running := hrow.running
      held := hrow.held
      static := fun hstatic => by
        dsimp only at hstatic
        rw [hworkbench] at hstatic
        cases hstatic
      dispatched := fun _ => rfl }
    runner := by
      intro m hm
      dsimp only at hm
      rw [hrunner] at hm
      cases hm
      exact Or.inl rfl
    closed := fun h => Or.inl h }

/-- A static run stores its job in an action that has no result. -/
theorem commits_storeJob {job : Nat}
    (hsound : store.Sound sha256 dump dumpRequest k) (hcopy : Copy opts action store)
    (hstatic : action.request.work.workbench = false)
    (hguard : guarded = true → ∀ row, store.action opts.project opts.action = some row →
      row.record.result = none) :
    (harnessDiscipline sha256 dump dumpRequest guarded).Commits n store
      (store.withAction action.project action.id
        (fun r => { r with record := { action with jobId := some job } })) := by
  obtain ⟨row, hrow, hidentity, _⟩ := hcopy.stored
  obtain ⟨hresult, hpublication, hdispatch⟩ := hcopy.static hstatic
  have hrequest := request_eq hidentity
  obtain ⟨hnone, _⟩ := (hsound.rows row (row_some_mem hrow)).static (by rw [hrequest]; exact hstatic)
  have hown : store.action action.project action.id = some row := by
    rw [hcopy.project, hcopy.id]
    exact hrow
  apply commits_action hown
  have hparts := hidentity
  simp only [ActionRecord.identity, Prod.mk.injEq] at hparts
  obtain ⟨hproject, hinvestigation, hid, hkey, _, _⟩ := hparts
  have hfree : row.record.result = none → row.record.settled = false := by
    intro h
    simp [ActionRecord.settled, h]
  exact {
    name := fun _ => rfl
    evolves := by
      refine ⟨⟨?_, ?_⟩, ?_, ?_⟩
      · simp only [ActionRow.identity, Prod.mk.injEq, true_and]
        exact hidentity.symm
      · intro publication h
        rw [hnone] at h
        cases h
      · intro hguarded hsettled
        rw [hfree (hguard hguarded row hrow)] at hsettled
        cases hsettled
      · intro _ publication _ h
        rw [hnone] at h
        cases h
    publication := by rw [hnone]; exact hpublication
    sound := fun k _ hbefore => {
      project := hproject.symm.trans hbefore.project
      investigation := hinvestigation.symm.trans hbefore.investigation
      id := hid.symm.trans hbefore.id
      key := hkey.symm.trans hbefore.key
      hash := by rw [hbefore.hash, hrequest]
      started := hbefore.started
      running := fun _ => hcopy.running
      held := fun _ => by simp [ActionRecord.settled, hresult]
      static := fun _ => ⟨hpublication, hdispatch⟩
      dispatched := fun h => by
        dsimp only at h
        rw [hpublication] at h
        cases h }
    runner := by
      intro m hm
      refine Or.inr ⟨hm, fun hworkbench _ => ?_⟩
      rw [hrequest, hstatic] at hworkbench
      cases hworkbench
    closed := fun h => Or.inl h }

theorem observe_widens (inv : Investigation) (request : ActionRequest) (sessions : List Text) :
    ∃ known, inv.observe request sessions = { inv with runtimeSessions := known } := by
  unfold Investigation.observe
  split
  · exact ⟨_, rfl⟩
  · exact ⟨inv.runtimeSessions, rfl⟩

variable {request : ActionRequest} {inv : Investigation}

theorem admitDerived_widens {receipt : DerivedReceipt} {r : Investigation × Bool}
    (h : admitDerived env store aid inv request receipt = .ok r) :
    ∃ components, r.1 = { inv with derivedComponents := components } := by
  unfold admitDerived at h
  split at h
  · cases h
  split at h
  · cases h
  split at h
  · cases h
  split at h
  · cases h
    exact ⟨inv.derivedComponents, rfl⟩
  split at h
  · cases h
    exact ⟨inv.derivedComponents, rfl⟩
  split at h
  · cases h
  · cases h
    exact ⟨_, rfl⟩

theorem admitResult_widens (env : HarnessInput) (store : HarnessStore) (aid : Text)
    (inv : Investigation) (request : ActionRequest) (result : ActionResult) :
    ∃ components, (admitResult env store aid inv request result).1 =
      { inv with derivedComponents := components } := by
  unfold admitResult
  split
  · exact ⟨inv.derivedComponents, rfl⟩
  split
  · exact ⟨inv.derivedComponents, rfl⟩
  · split
    · next hadmit => exact admitDerived_widens hadmit
    · exact ⟨inv.derivedComponents, rfl⟩

variable {result : ActionResult}

theorem admitResult_tells {publication : Publication} (h : result.Tells publication) :
    (admitResult env store aid inv request result).2.Tells publication := by
  unfold admitResult
  split
  · exact h
  split
  · exact h
  · split
    · exact h
    · exact h

/-- What the end of a run finds and writes. -/
structure Settled (opts : ActionOptions) (store store' : HarnessStore) (found : InvestigationRow)
    (current : ActionRow) (result : ActionResult) (known : List Text)
    (components : List DerivedComponent) : Prop where
  lookup : store.investigation opts.project opts.id = some found
  action : store.action opts.project opts.action = some current
  owner : current.investigation = opts.id
  runner : current.runner = some opts.runner
  written : store' = (store.withAction opts.project opts.action (fun r => { r with
      runner := none, deadline := 0, record := current.record.settle result })).revised
    opts.project opts.id ({ found.record with
      runtimeSessions := known, derivedComponents := components }.resume result.status)

/-- What is settled is the row that the runner still holds. -/
theorem settleAction_ok (h : settleAction env opts result store = .ok ((), store')) :
    ∃ found current result' known components,
      Settled opts store store' found current result' known components ∧
        ∀ publication, result.Tells publication → result'.Tells publication := by
  simp only [settleAction, bind_ok, get_ok, loadInvestigation_ok, actionRecord_ok] at h
  obtain ⟨found, _, ⟨hfound, rfl⟩, current, _, ⟨hcurrent, howner, hsame⟩, _, _, hget, h⟩ := h
  cases hsame
  cases hget
  obtain ⟨known, hknown⟩ := observe_widens found.record current.record.request
    result.runtimeSessions
  obtain ⟨components, hcomponents⟩ := admitResult_widens env store opts.action
    (found.record.observe current.record.request result.runtimeSessions) current.record.request
    result
  have htells : ∀ publication, result.Tells publication →
      (admitResult env store opts.action (found.record.observe current.record.request
        result.runtimeSessions) current.record.request result).2.Tells publication :=
    fun _ h => admitResult_tells h
  generalize admitResult env store opts.action (found.record.observe current.record.request
    result.runtimeSessions) current.record.request result = admitted
    at h hcomponents htells
  obtain ⟨inv, result'⟩ := admitted
  rw [hknown] at hcomponents
  dsimp only at h hcomponents htells
  subst hcomponents
  split at h
  · exact absurd h throw_ok
  next hrunner =>
    simp only [bind_ok, updateAction_ok, saveInvestigation_ok, pure_ok] at h
    obtain ⟨_, _, hsettled, _, _, hsaved, h⟩ := h
    cases hsettled
    cases hsaved
    cases h
    exact ⟨found, current, result', known, components,
      ⟨hfound, hcurrent, howner, by simpa using hrunner, rfl⟩, htells⟩

theorem resume_revises {old : Investigation} {known : List Text}
    {components : List DerivedComponent} {status : ActionStatus} (hopen : old.status.closed = false) :
    old.Revises store project id ({ old with
      runtimeSessions := known, derivedComponents := components }.resume status) := by
  unfold Investigation.resume
  split
  · next hcancelled =>
      refine ⟨rfl, rfl, rfl, rfl, rfl, rfl, fun _ => ⟨rfl, rfl⟩, fun hclosed => ?_⟩
      exact Or.inl hclosed
  next hrunning =>
    refine ⟨rfl, rfl, rfl, rfl, rfl, rfl, fun hterminal => ?_, fun hclosed => ?_⟩
    · have hcancelled : old.status = .cancelled := by
        simpa [InvestigationStatus.closed, hterminal] using hopen
      exact absurd hcancelled hrunning
    · dsimp only at hclosed
      split at hclosed <;> cases hclosed

/-- The result of a run tells the publication that it finds stored. -/
def Answers (opts : ActionOptions) (result : ActionResult) (store : HarnessStore) : Prop :=
  ∀ row, store.action opts.project opts.action = some row → row.runner = some opts.runner →
    ∀ publication, row.record.publication = some publication → result.Tells publication

/-- Settling an action keeps the discipline. -/
theorem commits_settleAction
    (hsound : store.Sound sha256 dump dumpRequest k) (hanswers : Answers opts result store)
    (h : settleAction env opts result store = .ok ((), store')) :
    (harnessDiscipline sha256 dump dumpRequest guarded).Commits n store store' := by
  obtain ⟨found, current, result, known, components, hsettled, htells⟩ := settleAction_ok h
  have hmem := row_some_mem hsettled.action
  have hunsettled := (hsound.rows current hmem).held (by rw [hsettled.runner]; rfl)
  obtain ⟨hproject, _⟩ := action_name hsettled.action
  obtain ⟨hfoundProject, hfoundId⟩ := investigation_name hsettled.lookup
  -- a closed investigation has no runner
  have hopen : found.record.status.closed = false := by
    cases hclosed : found.record.status.closed with
    | false => rfl
    | true =>
      have hidle := (hsound.investigations _ _ found hsettled.lookup).closed hclosed current
        (by simp [HarnessStore.actionsOf, hmem, hproject, hsettled.owner, hfoundProject,
          hfoundId])
      rw [hsettled.runner] at hidle
      cases hidle
  have hchanged : (harnessDiscipline sha256 dump dumpRequest guarded).Commits n store
      (store.withAction opts.project opts.action (fun r => { r with
        runner := none, deadline := 0, record := current.record.settle result })) := by
    apply commits_action hsettled.action
    exact {
      name := fun _ => rfl
      evolves := by
        refine ⟨⟨rfl, fun _ h => h⟩, fun _ h => ?_, ?_⟩
        · rw [hunsettled] at h
          cases h
        intro _ publication before hpublication hbefore hunknown
        have hworkbench : current.record.request.work.workbench = true := by
          by_contra hstatic
          have hnone := ((hsound.rows current hmem).static (by simpa using hstatic)).1
          rw [hpublication] at hnone
          cases hnone
        simp only [ActionRecord.settle]
        split
        · exact ⟨before, hbefore, .of_unknown hunknown⟩
        refine ⟨result, ?_, ?_⟩
        · simp [ActionResult.summary, hworkbench]
        · exact htells publication
            (hanswers current hsettled.action hsettled.runner publication hpublication)
      publication := rfl
      sound := fun k _ hrow => {
        project := hrow.project
        investigation := hrow.investigation
        id := hrow.id
        key := hrow.key
        hash := hrow.hash
        started := fun _ h => by cases h
        running := fun h => by cases h
        held := fun h => by cases h
        static := hrow.static
        dispatched := hrow.dispatched }
      runner := fun _ h => by cases h
      closed := fun h => by cases h }
  rw [hsettled.written]
  have hafter : (store.withAction opts.project opts.action (fun r => { r with
      runner := none, deadline := 0, record := current.record.settle result })).investigation
      opts.project opts.id = some found := hsettled.lookup
  exact hchanged.trans (commits_revised hafter (resume_revises hopen))

variable {internal : Bool}

theorem checkAssertion_ok {request : PutRequest} {r : Fields × Fields}
    (h : checkAssertion request internal = .ok r) : request.body = some r.2 := by
  unfold checkAssertion at h
  iterate 4 (split at h; · cases h)
  split at h
  · cases h
  · cases h
  cases hbody : request.body with
  | none =>
    rw [hbody] at h
    cases h
  | some body =>
    simp only [hbody, except_bind_ok] at h
    obtain ⟨_, _, h⟩ := h
    cases h
    rfl

variable {record : KnowledgeRecord} {origin : Option PublicationOrigin}

theorem buildRecord_content {knowledge : KnowledgeStore} {request : PutRequest} {actual : Nat}
    {createdAt : Text}
    (h : buildRecord sha256 dump knowledge request id actual createdAt internal origin =
      .ok record) : record.kind = request.kind ∧ request.body = some record.body := by
  simp only [buildRecord, except_bind_ok] at h
  obtain ⟨r, hassertion, named, _, deps, _, h⟩ := h
  split at h
  · cases h
  split at h
  · cases h
    exact ⟨rfl, checkAssertion_ok hassertion⟩
  · cases h

variable {before after : KnowledgeStore} {freshId createdAt : Text}

theorem putRecord_content {request : PutRequest}
    (h : putRecord sha256 dump freshId createdAt request internal origin before =
      .ok (record, after)) : record.kind = request.kind ∧ request.body = some record.body := by
  simp only [putRecord, bind_ok, get_ok] at h
  obtain ⟨_, _, hget, h⟩ := h
  cases hget
  repeat (split at h; · exact absurd h throw_ok)
  cases hbuild : buildRecord sha256 dump before request (request.id.getD freshId)
      ((before.head request.project (request.id.getD freshId)).getD 0) createdAt internal origin with
  | error e =>
    rw [hbuild] at h
    exact absurd h throw_ok
  | ok built =>
    simp only [hbuild] at h
    repeat (split at h; · exact absurd h throw_ok)
    simp only [bind_ok, set_ok, pure_ok, Prod.mk.injEq] at h
    obtain ⟨_, _, _, rfl, _⟩ := h
    exact buildRecord_content hbuild

/-- An action that its runner may publish for. -/
structure Publishable (sha256 : Text → Text) (dumpRequest : ActionRequest → Text) (now : Nat)
    (ctx : PublicationContext) (store : HarnessStore) (found : ActionRow) : Prop where
  lookup : store.action ctx.project ctx.action = some found
  investigation : found.investigation = ctx.investigation
  runner : found.runner = some ctx.runner
  live : now < found.deadline
  hash : found.requestHash = ctx.requestSha256
  dispatched : found.record.dispatchStarted = true
  unpublished : found.record.publication = none
  workbench : found.record.request.work.workbench = true
  request : sha256 (dumpRequest found.record.request) = ctx.requestSha256

variable {ctx : PublicationContext}

@[simp] theorem publicationAction_ok {now : Nat}
    {r : ActionRow × HarnessStore} : publicationAction sha256 dumpRequest now ctx store = .ok r ↔
      Publishable sha256 dumpRequest now ctx store r.1 ∧ store = r.2 := by
  simp only [publicationAction, bind_ok, get_ok]
  constructor
  · rintro ⟨_, _, hget, h⟩
    cases hget
    cases hlookup : store.action ctx.project ctx.action with
    | none =>
      rw [hlookup] at h
      exact absurd h throw_ok
    | some found =>
      rw [hlookup] at h
      dsimp only at h
      split at h
      · exact absurd h throw_ok
      next howned =>
        split at h
        · exact absurd h throw_ok
        next hready =>
          simp only [ne_eq, not_or, not_not, Nat.not_le] at howned
          simp only [not_or, Bool.not_eq_false, Bool.not_eq_true, ne_eq, not_not,
            Option.isSome_eq_false_iff, Option.isNone_iff_eq_none] at hready
          rw [pure_ok] at h
          rw [h]
          exact ⟨⟨hlookup, howned.1, howned.2.1, howned.2.2.1, howned.2.2.2, hready.1,
            hready.2.1, hready.2.2.1, hready.2.2.2⟩, rfl⟩
  · rintro ⟨h, hstore⟩
    refine ⟨store, store, rfl, ?_⟩
    rw [h.lookup]
    dsimp only
    rw [if_neg, if_neg, pure_ok, hstore]
    · simp [h.dispatched, h.unpublished, h.workbench, h.request]
    · simp [h.investigation, h.runner, h.hash, h.live]

@[simp] theorem checkPublicationDependencies_ok {now : Nat} :
    checkPublicationDependencies sha256 dumpRequest now ctx project store = .ok r ↔
      (ctx.project = project ∧ ∃ found, Publishable sha256 dumpRequest now ctx store found ∧
        ∀ d ∈ found.record.request.dependencyPins, store.publishedPin project d = some d.pin) ∧
      r = ((), store) := by
  unfold checkPublicationDependencies
  split
  · next hother => simp [hother]
  next hsame =>
    simp only [ne_eq, not_not] at hsame
    simp only [bind_ok, publicationAction_ok, get_ok]
    constructor
    · rintro ⟨found, _, ⟨hfound, hstore⟩, _, _, hget, h⟩
      cases hstore
      cases hget
      split at h
      · next hpins =>
          refine ⟨⟨hsame, found, hfound, ?_⟩, pure_ok.mp h⟩
          simpa using hpins
      · exact absurd h throw_ok
    · rintro ⟨⟨_, found, hfound, hpins⟩, hr⟩
      refine ⟨found, store, ⟨hfound, rfl⟩, store, store, rfl, ?_⟩
      rw [if_pos (by simpa using hpins), pure_ok, hr]

@[simp] theorem overKnowledge_ok {α : Type} {t : KnowledgeTx α} {r : α × HarnessStore} :
    overKnowledge t store = .ok r ↔ ∃ knowledge, t store.knowledge = .ok (r.1, knowledge) ∧
        r.2 = { store with knowledge := knowledge } := by
  unfold overKnowledge
  cases h : t store.knowledge with
  | error e => simp
  | ok answer =>
    obtain ⟨a, s⟩ := r
    obtain ⟨b, knowledge⟩ := answer
    simp only [Except.ok.injEq, Prod.mk.injEq]
    constructor
    · rintro ⟨rfl, rfl⟩
      exact ⟨knowledge, ⟨rfl, rfl⟩, rfl⟩
    · rintro ⟨_, ⟨rfl, rfl⟩, rfl⟩
      exact ⟨rfl, rfl⟩

/-- What a publication finds and writes, in one transaction. -/
structure PublishStep (sha256 : Text → Text) (dump : KnowledgeRecord → Text)
    (dumpRequest : ActionRequest → Text) (env : HarnessInput) (ctx : PublicationContext)
    (request : PutRequest) (internal : Bool) (store : HarnessStore) (found : ActionRow)
    (record : KnowledgeRecord) (knowledge : KnowledgeStore) (store' : HarnessStore) : Prop where
  publishable : Publishable sha256 dumpRequest env.now ctx store found
  pins : ∀ d ∈ found.record.request.dependencyPins,
    store.publishedPin ctx.project d = some d.pin
  put : putRecord sha256 dump env.freshId env.createdAt request internal (some ctx.origin)
    store.knowledge = .ok (record, knowledge)
  project : record.project = ctx.project
  written : ∃ change : ActionRow → ActionRow, (∀ row, (change row).name = row.name) ∧
    change found = found.linked (record.row sha256 dump) ∧
    store' = { store with knowledge := knowledge }.withAction ctx.project ctx.action change

/-- A publication stores its revision and the pointer to it. -/
theorem publishRecord_ok {request : PutRequest}
    (h : publishRecord sha256 dump dumpRequest env ctx request internal store =
      .ok (record, store')) :
    ∃ found knowledge, PublishStep sha256 dump dumpRequest env ctx request internal store found
      record knowledge store' := by
  simp only [publishRecord, bind_ok, checkPublicationDependencies_ok, overKnowledge_ok,
    pure_ok] at h
  obtain ⟨_, _, ⟨⟨hproject, found, hfound, hpins⟩, hcheck⟩, record, _, ⟨knowledge, hput, hstore⟩,
    _, _, hlink, h⟩ := h
  cases hcheck
  cases hstore
  cases h
  unfold linkPublication at hlink
  split at hlink
  · exact absurd hlink throw_ok
  next hsame =>
    simp only [bind_ok, publicationAction_ok, updateAction_ok] at hlink
    obtain ⟨again, _, ⟨hagain, hstill⟩, hwritten⟩ := hlink
    cases hstill
    cases hwritten
    -- the knowledge tables do not tell which row the action has
    have heq : again = found := by
      have hrow : store.action ctx.project ctx.action = some again := hagain.lookup
      rw [hfound.lookup] at hrow
      exact (Option.some.inj hrow).symm
    subst heq
    refine ⟨again, knowledge, hfound, ?_, hput, by simpa using hsame, _, ?_, ?_, rfl⟩
    · rw [hproject]
      exact hpins
    · intro row
      split <;> rfl
    rw [if_pos hfound.runner]
    simp only [ActionRow.linked, KnowledgeRecord.row, ActionRow.origin,
      PublicationContext.origin, hfound.investigation, hfound.hash]
    rw [(action_name hfound.lookup).2]

/-- A field is found in the first of two lists that names it once. -/
theorem field_append {fields rest : Fields} (hnames : (fields.map Prod.fst).Nodup)
    {mark : Text × FieldValue} (h : mark ∈ fields) :
    Fields.field (fields ++ rest) mark.1 = some mark.2 := by
  induction fields with
  | nil => cases h
  | cons f fields ih =>
    simp only [map_cons, nodup_cons] at hnames
    rcases mem_cons.mp h with rfl | hmem
    · simp [Fields.field]
    have hother : f.1 ≠ mark.1 := by
      intro hsame
      exact hnames.1 (hsame ▸ mem_map_of_mem hmem)
    have hrest := ih hnames.2 hmem
    simpa [Fields.field, hother] using hrest

theorem marks_names (request : ActionRequest) : ((request.marks sha256).map Prod.fst).Nodup := by
  unfold ActionRequest.marks
  split
  · simp only [map_cons, map_nil]
    decide
  · simp only [map_cons, map_nil]
    decide
  · exact nodup_nil

/-- A record is a publication when it carries the marks of its request. -/
theorem publishes_iff : request.publishes sha256 record = true ↔ record.kind = request.work.kind ∧
      (∀ mark ∈ request.marks sha256, record.body.field mark.1 = some mark.2) ∧
      ∀ assertion, request.work = .knowledgeRevise assertion → some record.id = assertion.id ∧
          (record.revision : Int) = assertion.expectedRevision + 1 := by
  unfold ActionRequest.publishes
  rw [Bool.and_eq_true, Bool.and_eq_true, decide_eq_true_eq, all_eq_true, and_assoc]
  simp only [decide_eq_true_eq]
  cases request.work with
  | knowledgeRevise assertion =>
    dsimp only
    rw [Bool.and_eq_true, decide_eq_true_eq, decide_eq_true_eq]
    constructor
    · intro ⟨hkind, hmarks, hname⟩
      exact ⟨hkind, hmarks, fun _ h => by cases h; exact hname⟩
    · intro ⟨hkind, hmarks, hname⟩
      exact ⟨hkind, hmarks, hname assertion rfl⟩
  | _ =>
    constructor
    · intro ⟨hkind, hmarks, _⟩
      exact ⟨hkind, hmarks, fun _ h => by cases h⟩
    · intro ⟨hkind, hmarks, _⟩
      exact ⟨hkind, hmarks, rfl⟩

variable {computed : PutRequest}

theorem execution_marks {body : Fields}
    (h : (request.execution sha256 computed).1.body = some body) :
    ∀ mark ∈ request.marks sha256, body.field mark.1 = some mark.2 := by
  have hmarked : request.marks sha256 = [] ∨ ∃ rest, body = request.marks sha256 ++ rest := by
    unfold ActionRequest.execution at h
    split at h
    · next hwork => exact Or.inl (by simp only [ActionRequest.marks, hwork])
    · next hwork => exact Or.inl (by simp only [ActionRequest.marks, hwork])
    · obtain ⟨rest, _, hrest⟩ := Option.map_eq_some_iff.mp h
      exact Or.inr ⟨rest, hrest.symm⟩
  intro mark hmark
  rcases hmarked with hnone | ⟨rest, rfl⟩
  · rw [hnone] at hmark
    cases hmark
  · exact field_append (marks_names request) hmark

theorem execution_kind (request : ActionRequest) (computed : PutRequest) :
    (request.execution sha256 computed).1.kind = request.work.kind := by
  unfold ActionRequest.execution
  split
  · next hwork => rw [hwork]; rfl
  · next hwork => rw [hwork]; rfl
  · rfl

theorem normalizeWorkbench_ok {draft : ActionDraft} {c : Component}
    (h : normalizeWorkbench env store inv draft c = .ok request) :
    request.work = draft.work ∧ request.work.granted inv = .ok () := by
  unfold normalizeWorkbench at h
  split at h
  · cases h
  simp only [except_bind_ok] at h
  obtain ⟨_, hgranted, pins, _, h⟩ := h
  iterate 4 (split at h; · cases h)
  cases h
  exact ⟨rfl, hgranted⟩

/-- The record that a workbench operation puts is recognised as its publication. -/
theorem execution_publishes (hgranted : request.work.granted inv = .ok ())
    (hput : putRecord sha256 dump freshId createdAt (request.execution sha256 computed).1
      (request.execution sha256 computed).2 origin before = .ok (record, after)) :
    request.publishes sha256 record = true := by
  obtain ⟨hkind, hbody⟩ := putRecord_content hput
  obtain ⟨hfound, hid⟩ := putRecord_ok hput
  have hexpected := hfound.expected
  have hrevision := hfound.revision
  rw [publishes_iff]
  refine ⟨hkind.trans (execution_kind request computed), execution_marks hbody, ?_⟩
  intro assertion hwork
  have hput : request.execution sha256 computed = (assertion, false) := by
    simp only [ActionRequest.execution, hwork]
  rw [hput] at hid hexpected
  rw [hwork, ActionWork.granted] at hgranted
  split at hgranted
  · cases hgranted
  next hnamed =>
    simp only [not_or] at hnamed
    obtain ⟨name, hname⟩ := Option.ne_none_iff_exists'.mp hnamed.1
    rw [hname, Option.getD_some] at hid
    rw [hname, hid, hexpected, hrevision]
    exact ⟨rfl, rfl⟩

/-- The publication of a mutation whose request was normalised again. -/
theorem commits_publishRecord {normal : ActionRequest}
    (hsound : store.Sound sha256 dump dumpRequest k) (hgranted : normal.work.granted inv = .ok ())
    (hctx : ctx.requestSha256 = sha256 (dumpRequest normal))
    (h : publishRecord sha256 dump dumpRequest env ctx (normal.execution sha256 env.computed).1
      (normal.execution sha256 env.computed).2 store = .ok (record, store')) :
    (harnessDiscipline sha256 dump dumpRequest guarded).Commits n store store' := by
  obtain ⟨found, knowledge, hstep⟩ := publishRecord_ok h
  obtain ⟨change, hname, hchange, hwritten⟩ := hstep.written
  obtain ⟨hput, _⟩ := putRecord_ok hstep.put
  have hpublishable := hstep.publishable
  have hheld : found.runner.isSome = true := by
    rw [hpublishable.runner]
    rfl
  obtain ⟨hproject, hid⟩ := action_name hpublishable.lookup
  have horigin : ctx.origin = found.origin := by
    simp only [PublicationContext.origin, ActionRow.origin, hpublishable.investigation, hid,
      hpublishable.hash]
  rw [horigin] at hput
  rw [hwritten]
  refine commits_publish hpublishable.lookup hput (hstep.project.trans hproject.symm) hheld
    hpublishable.workbench hpublishable.dispatched hpublishable.unpublished ?_ ?_ hname hchange
  · exact (hsound.rows found (row_some_mem hpublishable.lookup)).unanswered hheld
      hpublishable.unpublished
  intro hdistinct
  have hsame : normal = found.record.request := by
    apply hdistinct
    rw [← hctx, hpublishable.hash]
  rw [← hsame]
  exact execution_publishes hgranted hstep.put

end Indago
