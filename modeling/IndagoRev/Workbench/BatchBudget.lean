import IndagoRev.Workbench.BatchDiscipline

/-!
# The budget of a batch

Every way to start a call keeps the discipline of batch runs, so it holds along
every run of calls, actions and crashes. The stored records then stay within
their budgets, and every key that a batch reserved is that of one attempt and
of at most one job.

Main results: `batch_starts` for one call, `batch_budget` for a run.
-/

namespace Indago

open StdText Tables Transactions Interleaving List

variable {digest : Text → Text}

theorem attemptKey_inj {id name name' : Text} {a a' : Nat}
    (h : attemptKey digest id name a = attemptKey digest id name' a') :
    digest name = digest name' ∧ a = a' := by
  have hcolon : ":" = [':'] := by decide
  simp only [attemptKey, hcolon, append_assoc, append_cancel_left_eq,
    cons_append, nil_append, List.cons.injEq, true_and] at h
  obtain ⟨hdigest, hattempt⟩ := append_separated (separator_not_mem_decimal a)
    (separator_not_mem_decimal a') h
  refine ⟨hdigest, ?_⟩
  rw [← ofDecimal_decimal a, hattempt, ofDecimal_decimal]

/-- All keys that a record reserved. -/
def BatchRecord.keys (digest : Text → Text) (record : BatchRecord) : List Text :=
  record.steps.flatMap (fun step =>
    (List.range' 1 step.uses).map (attemptKey digest record.id step.name))

variable {record : BatchRecord}

theorem mem_keys {key : Text} : key ∈ record.keys digest ↔ record.Reserved digest key := by
  simp only [BatchRecord.keys, mem_flatMap, mem_map, mem_range'_1,
    BatchRecord.Reserved]
  constructor
  · intro ⟨step, hstep, a, ⟨hlow, hhigh⟩, hkey⟩
    exact ⟨step, hstep, a, hlow, by omega, hkey.symm⟩
  · intro ⟨step, hstep, a, hlow, hhigh, hkey⟩
    exact ⟨step, hstep, a, ⟨hlow, by omega⟩, hkey.symm⟩

theorem length_keys (record : BatchRecord) :
    (record.keys digest).length = record.total (fun _ => 1) := by
  simp [BatchRecord.keys, BatchRecord.total, length_flatMap]

theorem keys_nodup (hnames : (record.steps.map (fun step => digest step.name)).Nodup) :
    (record.keys digest).Nodup := by
  rw [BatchRecord.keys, nodup_flatMap]
  constructor
  · intro step _
    apply List.Nodup.map _ nodup_range'
    intro a a' h
    exact (attemptKey_inj h).2
  apply (pairwise_map.mp hnames).imp
  intro step step' hne key hkey hkey'
  obtain ⟨a, _, rfl⟩ := mem_map.mp hkey
  obtain ⟨a', _, hsame⟩ := mem_map.mp hkey'
  exact hne (attemptKey_inj hsame).1.symm

variable {row : BatchRow}

/-- The keys a batch ever reserved are as many as its started jobs. -/
theorem BatchRow.Sound.length_everReserved {jobs : JobStore} (h : row.Sound digest jobs)
    (hnames : (row.record.steps.map (fun step => digest step.name)).Nodup) :
    row.everReserved.length = row.record.jobsStarted := by
  have hperm : List.Perm row.everReserved (row.record.keys digest) := by
    rw [perm_ext_iff_of_nodup h.distinct (keys_nodup hnames)]
    intro key
    rw [h.history, mem_keys]
  rw [hperm.length_eq, length_keys, h.record.jobs]

variable {store store' : BatchStore} {k : Nat}

theorem BatchStore.Sound.mono (h : store.Sound digest k) : store.Sound digest (k + 1) where
  jobs := h.jobs
  rows := h.rows
  owners := by
    intro project id row token hrow htoken
    have hlt := h.owners project id row token hrow htoken
    omega

/-- A step as a creation request leaves it. -/
structure BatchStep.Fresh (project : Text) (step : BatchStep) : Prop where
  home : step.request.project = project
  attempt : step.attempt = 0
  jobId : step.jobId = none
  reserved : step.reserved = false
  reservedKey : step.reservedKey = none

variable {budget : BatchBudget}

theorem prepareStep_ok {project : Text} {names : List Text}
    {draft : StepDraft} {step : BatchStep} (h : prepareStep project budget names draft = .ok step) :
    step.name = draft.name ∧ step.name ∉ names ∧ step.Fresh project := by
  unfold prepareStep at h
  repeat' split at h
  all_goals cases h
  next hname _ _ hproject _ _ _ =>
    exact ⟨rfl, hname, by simpa using hproject, rfl, rfl, rfl, rfl⟩

variable {drafts : List StepDraft} {steps : List BatchStep}

/-- The steps of a creation request have different names and no attempts. -/
theorem prepareSteps_ok {project : Text} {names : List Text}
    (h : prepareSteps project budget names drafts = .ok steps) :
    (steps.map BatchStep.name).Nodup ∧ (∀ step ∈ steps, step.name ∉ names) ∧
      ∀ step ∈ steps, step.Fresh project := by
  induction drafts generalizing names steps with
  | nil =>
    cases h
    simp
  | cons draft rest ih =>
    unfold prepareSteps at h
    cases hstep : prepareStep project budget names draft with
    | error e =>
      rw [hstep] at h
      cases h
    | ok step =>
      cases hrest : prepareSteps project budget (names ++ [draft.name]) rest with
      | error e =>
        rw [hstep, hrest] at h
        cases h
      | ok others =>
        rw [hstep, hrest] at h
        cases h
        obtain ⟨hname, hnew, hfresh⟩ := prepareStep_ok hstep
        obtain ⟨hnodup, hothers, hfreshes⟩ := ih hrest
        refine ⟨?_, ?_, ?_⟩
        · rw [map_cons, nodup_cons]
          refine ⟨?_, hnodup⟩
          intro hmem
          obtain ⟨other, hother, hsame⟩ := mem_map.mp hmem
          apply hothers other hother
          rw [hsame, hname]
          simp
        · intro other hother
          rcases mem_cons.mp hother with rfl | hmem
          · exact hnew
          · intro hold
            exact hothers other hmem (mem_append_left _ hold)
        · intro other hother
          rcases mem_cons.mp hother with rfl | hmem
          · exact hfresh
          · exact hfreshes other hmem

variable {project id title : Text}

theorem createBatch_ok {a : Unit}
    (h : createBatch project id title budget drafts store = .ok (a, store')) :
    store.batch project id = none ∧ ∃ steps, prepareSteps project budget [] drafts = .ok steps ∧
      store' = { store with
        batches := store.batches ++ [newBatch project id title budget steps] } := by
  simp only [createBatch, bind_ok, get_ok] at h
  obtain ⟨_, _, hget, h⟩ := h
  cases hget
  repeat' split at h
  all_goals first
    | exact absurd h throw_ok
    | skip
  next hexists =>
    cases hsteps : prepareSteps project budget [] drafts with
    | error e =>
      rw [hsteps] at h
      exact absurd h throw_ok
    | ok steps =>
      rw [hsteps] at h
      simp only [set_ok, Prod.mk.injEq] at h
      exact ⟨by simpa using hexists, steps, rfl, h.2⟩

theorem newBatch_sound {jobs : JobStore} (hnames : (steps.map BatchStep.name).Nodup)
    (hfresh : ∀ step ∈ steps, step.Fresh project) :
    (newBatch project id title budget steps).Sound digest jobs := by
  have huses : ∀ step ∈ steps, step.uses = 0 := by
    intro step hstep
    simp [BatchStep.uses, (hfresh step hstep).attempt, (hfresh step hstep).reserved]
  have htotal : ∀ weight : BatchStep → Nat,
      (newBatch project id title budget steps).record.total weight = 0 := by
    intro weight
    rw [BatchRecord.total, List.sum_eq_zero_iff_forall_eq_nat]
    intro n hn
    obtain ⟨step, hstep, rfl⟩ := mem_map.mp hn
    rw [huses step hstep, Nat.zero_mul]
  exact {
    id := rfl
    project := rfl
    record := {
      jobs := (htotal _).symm
      wall := (htotal _).symm
      output := (htotal _).symm
      jobsWithin := Nat.zero_le _
      wallWithin := Nat.zero_le _
      outputWithin := Nat.zero_le _
      names := hnames
      home := fun step hstep => (hfresh step hstep).home
      steps := fun step hstep => {
        atMostTwice := by rw [huses step hstep]; omega
        key := by simp [BatchStep.lastKey, huses step hstep, (hfresh step hstep).reservedKey]
        pending := fun _ => (hfresh step hstep).jobId
        free := by
          intro _ _
          rw [(hfresh step hstep).attempt]
          omega
        held := by simp [(hfresh step hstep).jobId] } }
    submitted := fun step hstep => {
      made := by
        intro a hlow hhigh
        rw [(hfresh step hstep).attempt] at hhigh
        omega
      recorded := by simp [(hfresh step hstep).jobId] }
    history := by
      intro key
      constructor
      · intro hkey
        cases hkey
      · rintro ⟨step, hstep, a, hlow, hhigh, _⟩
        rw [huses step hstep] at hhigh
        omega
    distinct := nodup_nil }

theorem commits_create {a : Unit}
    (h : createBatch project id title budget drafts store = .ok (a, store')) :
    (batchDiscipline digest).Commits k store store' := by
  obtain ⟨hnone, steps, hsteps, rfl⟩ := createBatch_ok h
  obtain ⟨hnames, _, hfresh⟩ := prepareSteps_ok hsteps
  have hbatch : ∀ project' id' row,
      ({ store with batches := store.batches ++ [newBatch project id title budget steps] } :
        BatchStore).batch project' id' = some row →
      store.batch project' id' = some row ∨ row = newBatch project id title budget steps := by
    intro project' id' row hrow
    rw [BatchStore.batch, row_insert, Option.or_eq_some_iff] at hrow
    rcases hrow with hold | ⟨_, hnew⟩
    · exact Or.inl hold
    · split at hnew
      · exact Or.inr (Option.some.inj hnew).symm
      · cases hnew
  constructor
  · intro k' _ hsound
    constructor
    · exact hsound.jobs
    · intro project' id' row hrow
      rcases hbatch project' id' row hrow with hold | rfl
      · exact hsound.rows project' id' row hold
      · exact newBatch_sound hnames hfresh
    intro project' id' row token hrow htoken
    rcases hbatch project' id' row hrow with hold | rfl
    · exact hsound.owners project' id' row token hold htoken
    · cases htoken
  · intro m _
    refine ⟨?_, .refl _⟩
    intro project' id' row hrow howner
    rcases hbatch project' id' row hrow with hold | rfl
    · exact ⟨row, hold, howner, rfl⟩
    · cases howner
  · refine ⟨.refl _, ?_⟩
    intro project' id' found hfound
    refine ⟨found, ?_, rfl, fun _ h => h⟩
    have hstored : row BatchRow.name (project', id') store.batches = some found := hfound
    rw [BatchStore.batch, row_insert, hstored]
    rfl

theorem commits_committed {α : Type} {t : BatchTx α} (h : ∀ a store', t store = .ok (a, store') →
      (batchDiscipline digest).Commits k store store') :
    (batchDiscipline digest).Commits k store (committed t store) := by
  unfold committed
  cases ht : t store with
  | error e => exact .refl _ k store
  | ok answer => exact h answer.1 answer.2 ht

/-- A change of a batch row that leaves its record and its history alone, and
gives the row to nobody else. -/
theorem commits_update {change : BatchRow → BatchRow} {project id : Text}
    (hname : ∀ row, (change row).name = row.name)
    (hrecord : ∀ row, (change row).record = row.record)
    (hever : ∀ row, (change row).everReserved = row.everReserved)
    (howner : ∀ row, (change row).owner = row.owner ∨ (change row).owner = some k) :
    (batchDiscipline digest).Commits k store
      { store with batches := rewrite BatchRow.name (project, id) change store.batches } := by
  have hkeys : ∀ row, (change row).project = row.project ∧ (change row).id = row.id :=
    fun row => Prod.mk.inj (hname row)
  apply commits_row hname
  · intro row _ h
    exact {
      id := by rw [hrecord, (hkeys row).2]; exact h.id
      project := by rw [hrecord, (hkeys row).1]; exact h.project
      record := by rw [hrecord]; exact h.record
      submitted := by
        rw [hrecord, (hkeys row).1, (hkeys row).2]
        exact h.submitted
      history := by
        rw [hrecord, hever]
        exact h.history
      distinct := by rw [hever]; exact h.distinct }
  · intro row _ token htoken
    rcases howner row with hsame | htaken
    · exact Or.inr ⟨hsame ▸ htoken, hrecord row⟩
    · exact Or.inl (Option.some.inj (htoken.symm.trans htaken))
  · intro row _
    exact ⟨by rw [hrecord], by rw [hever]; exact fun _ h => h⟩

/-- A committed start of a call that goes on as a safe process. -/
theorem starts_of_commits {p : Proc Surroundings BatchLabel BatchStore Unit}
    (hinv : store.Sound digest k) (h : (batchDiscipline digest).Commits k store store')
    (hsafe : (batchDiscipline digest).Safe k p (fun _ _ => True) store') :
    store'.Sound digest (k + 1) ∧ (∀ m, m < k → BatchStore.Relies m store store') ∧
      BatchStore.Evolves store store' ∧
      (batchDiscipline digest).Safe k p (fun _ _ => True) store' :=
  ⟨h.keeps (k + 1) (Nat.lt_succ_self k) hinv.mono,
    fun m hm => h.others m (Nat.ne_of_lt hm), h.evolves, hsafe⟩

theorem claimed_commits (project id : Text) (now : Nat) (resetCancel : Bool) :
    (batchDiscipline digest).Commits k store { store with
        batches := rewrite BatchRow.name (project, id)
          (fun row => row.claimed now k resetCancel) store.batches } := by
  apply commits_update
  · exact fun _ => rfl
  · exact fun _ => rfl
  · exact fun _ => rfl
  · exact fun _ => Or.inr rfl

theorem follows_claimed {project id : Text} (h : store.Sound digest k)
    (hrow : store.batch project id = some row) (now : Nat) (retryFailed resetCancel : Bool) :
    BatchLocal.Follows digest ⟨project, id, k, retryFailed⟩ 0 ⟨row.record, fun _ => none⟩
      { store with
        batches := rewrite BatchRow.name (project, id)
          (fun row => row.claimed now k resetCancel) store.batches } := by
  have hsound := h.rows project id row hrow
  have hname := batch_name hrow
  have hstored : ∀ row', ({ store with
      batches := rewrite BatchRow.name (project, id)
        (fun row => row.claimed now k resetCancel) store.batches } : BatchStore).batch
        project id = some row' → row'.record = row.record := by
    intro row' hrow'
    have hkey : ∀ row : BatchRow, (row.claimed now k resetCancel).name = row.name :=
      fun _ => rfl
    rw [batch_rewrite hkey, if_pos rfl, hrow, Option.map_some, Option.some.injEq] at hrow'
    rw [← hrow']
    rfl
  exact {
    id := hsound.id.trans hname.2
    project := hsound.project.trans hname.1
    record := hsound.record
    submitted := by
      have hsubmitted := hsound.submitted
      rw [hname.1, hname.2] at hsubmitted
      exact hsubmitted
    budget := by
      intro row' hrow' _
      rw [hstored row' hrow']
    stored := by
      intro row' hrow' _
      rw [hstored row' hrow']
      apply forall₂_same.mpr
      intro step _
      exact ⟨rfl, Nat.le_refl _, Nat.le_refl _⟩ }

theorem batch_starts (digest : Text → Text) :
    (batchDiscipline digest).Starts (batchMachine digest) := by
  intro call k env store hinv
  cases call with
  | create project id title budget drafts =>
    refine starts_of_commits hinv ?_ trivial
    exact commits_committed (fun _ _ h => commits_create h)
  | cancel project id =>
    have hcommits : ∀ a store', cancelBatch project id store = .ok (a, store') →
        (batchDiscipline digest).Commits k store store' := by
      intro a store' h
      simp only [cancelBatch, updateBatch, modify_ok, Prod.mk.injEq] at h
      rw [h.2]
      apply commits_update
      · exact fun _ => rfl
      · exact fun _ => rfl
      · exact fun _ => rfl
      · exact fun _ => Or.inl rfl
    exact starts_of_commits hinv (commits_committed hcommits) trivial
  | beat project id token =>
    have hcommits : ∀ a store', beatBatch env.now project id token store = .ok (a, store') →
        (batchDiscipline digest).Commits k store store' := by
      intro a store' h
      simp only [beatBatch, updateBatch, modify_ok, Prod.mk.injEq] at h
      rw [h.2]
      apply commits_update
      · intro row
        split <;> rfl
      · intro row
        split <;> rfl
      · intro row
        split <;> rfl
      intro row
      split
      · exact Or.inl rfl
      · exact Or.inl rfl
    exact starts_of_commits hinv (commits_committed hcommits) trivial
  | job call =>
    refine starts_of_commits hinv ?_ trivial
    rcases Service.after_cases jobService store.jobs (env.now, call) with hsame | ⟨a, hexec⟩
    · have hstore : ({ store with jobs := store.jobs } : BatchStore) = store := rfl
      simp only [batchMachine, hsame]
      exact .refl _ k store
    · exact commits_jobs (fun h => h.exec hexec) (exec_extends hexec)
  | run project id retryFailed resetCancel =>
    simp only [batchMachine]
    cases hrow : store.batch project id with
    | none => exact starts_of_commits hinv (.refl _ k store) trivial
    | some row =>
      dsimp only
      split
      · apply starts_of_commits hinv (claimed_commits project id env.now resetCancel)
        apply Program.Ensures.process
        exact ensures_runBatch (follows_claimed hinv hrow env.now retryFailed resetCancel)
      · exact starts_of_commits hinv (.refl _ k store) trivial

/-- A store without batches and jobs. -/
def BatchStore.fresh (projects : List Text) (targets : List TargetRecord) : BatchStore :=
  ⟨.fresh projects targets, []⟩

theorem BatchStore.Sound.fresh (projects : List Text) (targets : List TargetRecord) :
    (BatchStore.fresh projects targets).Sound digest 0 where
  jobs := .fresh projects targets
  rows := by
    intro project id row hrow
    cases hrow
  owners := by
    intro project id row token hrow
    cases hrow

variable (projects : List Text) (targets : List TargetRecord)

/-- A machine on a fresh store that nobody has called yet. -/
def idle : Machine.State Surroundings BatchLabel BatchStore :=
  ⟨.fresh projects targets, []⟩

/-- What the stored record of a batch and the job table say about each other. -/
structure BatchGuarantee (digest : Text → Text) (store : BatchStore) (row : BatchRow) : Prop where
  wall : row.record.reservedWallMs ≤ row.record.budget.wallMs
  output : row.record.reservedOutputBytes ≤ row.record.budget.outputBytes
  jobs : row.record.jobsStarted ≤ row.record.budget.maxJobs
  /-- No step is attempted more than twice. -/
  attempts : ∀ step ∈ row.record.steps, step.uses ≤ 2
  /-- The keys ever reserved are those of the reserved attempts of the steps. -/
  reserved : row.everReserved.Nodup ∧
    ∀ key, key ∈ row.everReserved ↔ row.record.Reserved digest key
  /-- There are as many of them as jobs were started, unless two step names have one digest. -/
  counted : (row.record.steps.map (fun step => digest step.name)).Nodup →
    row.everReserved.length = row.record.jobsStarted
  /-- A reserved key never has two jobs. -/
  single : ∀ key ∈ row.everReserved, (store.jobs.startedUnder row.project key).length ≤ 1
  /-- A reserved key whose attempt was made has one job. -/
  made : ∀ step ∈ row.record.steps, ∀ a, 1 ≤ a → a ≤ step.attempt →
    ∃ job, store.jobs.startedUnder row.project
      (attemptKey digest row.record.id step.name a) = [job]
  /-- The job that a step records is the one of its last attempt. -/
  recorded : ∀ step ∈ row.record.steps, ∀ id, step.jobId = some id →
    ∃ job, store.jobs.startedUnder row.project
      (attemptKey digest row.record.id step.name step.attempt) = [job] ∧ job.id = id

theorem BatchRow.Sound.guarantee (hjobs : store.jobs.Sound)
    (h : row.Sound digest store.jobs) : BatchGuarantee digest store row where
  wall := h.record.wallWithin
  output := h.record.outputWithin
  jobs := h.record.jobsWithin
  attempts := fun step hstep => (h.record.steps step hstep).atMostTwice
  reserved := ⟨h.distinct, h.history⟩
  counted := h.length_everReserved
  single := by
    intro key hkey
    obtain ⟨step, _, a, _, _, rfl⟩ := (h.history key).mp hkey
    exact startedUnder_le_one hjobs (attemptKey_ne_nil _ _ _)
  made := by
    intro step hstep a hlow hhigh
    obtain ⟨old, hold⟩ := (h.submitted step hstep).made a hlow hhigh
    rw [← h.id] at hold
    obtain ⟨job, hjob, _⟩ := startedUnder_eq hjobs hold
    exact ⟨job, hjob⟩
  recorded := by
    intro step hstep id hid
    obtain ⟨old, hold, hjobId⟩ := (h.submitted step hstep).recorded id hid
    rw [← h.id] at hold
    obtain ⟨job, hjob, hsame, _⟩ := startedUnder_eq hjobs hold
    exact ⟨job, hjob, hsame.trans hjobId⟩

theorem startedUnder_extends {jobs jobs' : JobStore} (h : jobs.Sound) (h' : jobs'.Sound)
    (hext : jobs.Extends jobs') {project key : Text} (hkey : key ≠ []) {job : Job}
    (hjob : job ∈ jobs.startedUnder project key) :
    ∃ job', jobs'.startedUnder project key = [job'] ∧ job'.id = job.id := by
  have hprior := prior_of_startedUnder h hkey hjob
  obtain ⟨job', hjob', hid', _⟩ := startedUnder_eq h' (hext _ _ _ hprior)
  exact ⟨job', hjob', hid'⟩

theorem idle_holds : (batchDiscipline digest).Holds (idle projects targets) := by
  refine ⟨.fresh projects targets, ?_⟩
  intro n p hp
  cases hp

theorem batch_meets (digest : Text → Text) (st : Machine.State Surroundings BatchLabel BatchStore)
    (events : List (Event Surroundings BatchCall)) :
    (batchDiscipline digest).Meets (batchMachine digest) st events :=
  Discipline.meets_of_forall (fun _ _ _ => trivial) st events

/-- What holds of the store after a run, and of every store that a longer run
leads to. -/
structure BatchesKept (digest : Text → Text) (store : BatchStore)
    (after : List (Event Surroundings BatchCall) → BatchStore) : Prop where
  guarantee : ∀ project id row, store.batch project id = some row →
    BatchGuarantee digest store row
  /-- Later the batch is stored under the same budget, and the keys it reserved stay. -/
  stays : ∀ project id row, store.batch project id = some row → ∀ later,
    ∃ row', (after later).batch project id = some row' ∧
      row'.record.budget = row.record.budget ∧ row.everReserved ⊆ row'.everReserved
  /-- Later a reserved key that has a job still has that one job. -/
  sameJob : ∀ project id row, store.batch project id = some row →
    ∀ key ∈ row.everReserved, ∀ job, store.jobs.startedUnder project key = [job] →
      ∀ later, ∃ job', (after later).jobs.startedUnder project key = [job'] ∧ job'.id = job.id

/-- Along every run of calls, run actions and crashes from a fresh store, every
stored batch keeps its guarantee. -/
theorem batch_budget (digest : Text → Text) (projects : List Text) (targets : List TargetRecord)
    (events : List (Event Surroundings BatchCall)) :
    BatchesKept digest ((batchMachine digest).run (idle projects targets) events).store
      (fun later =>
        ((batchMachine digest).run (idle projects targets) (events ++ later)).store) := by
  have hidle : (batchDiscipline digest).Holds (idle projects targets) := idle_holds projects targets
  obtain ⟨hholds, -⟩ := hidle.run (batch_starts digest) events (batch_meets digest _ _)
  have hlater : ∀ later : List (Event Surroundings BatchCall),
      let after := ((batchMachine digest).run (idle projects targets) (events ++ later)).store
      after.jobs.Sound ∧ BatchStore.Evolves
        ((batchMachine digest).run (idle projects targets) events).store after := by
    intro later
    obtain ⟨hholds', hevolves⟩ := hholds.run (batch_starts digest) later (batch_meets digest _ _)
    rw [Machine.run_append]
    exact ⟨hholds'.inv.jobs, hevolves⟩
  have hinv : BatchStore.Sound digest _
      ((batchMachine digest).run (idle projects targets) events).store := hholds.inv
  generalize ((batchMachine digest).run (idle projects targets) events).store = store
    at hinv hlater ⊢
  constructor
  · intro project id row hrow
    exact (hinv.rows project id row hrow).guarantee hinv.jobs
  · intro project id row hrow later
    exact (hlater later).2.rows project id row hrow
  intro project id row hrow key hkey job hjob later
  obtain ⟨step, _, a, _, _, rfl⟩ := ((hinv.rows project id row hrow).history key).mp hkey
  exact startedUnder_extends hinv.jobs (hlater later).1 (hlater later).2.jobs
    (attemptKey_ne_nil _ _ _) (by rw [hjob]; simp)

end Indago
