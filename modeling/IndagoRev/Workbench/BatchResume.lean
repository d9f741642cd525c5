import IndagoRev.Outlines
import IndagoRev.Workbench.BatchBudget

/-!
# Resuming a batch past a dead job

A job is dead when it ended without a result: its lease ran out and a recovery
interrupted it. A run that comes to a step with such a job settles the step or
submits another attempt, provided that the stored status of the step already is
that of its job. Where the step was stored as running and somebody else
recovered the job, the run claims the dead job, and does so again at every
restart.
-/

namespace Indago

open StdText Tables Transactions Interleaving Program

/-- The job ended without a result. -/
def Job.dead (job : Job) : Bool := job.status.terminal && job.result.isNone

def JobStore.dead (store : JobStore) (id : Nat) : Bool := (store.job id).any Job.dead

def JobStore.ended (store : JobStore) (id : Nat) : Bool :=
  (store.job id).any (fun job => job.status.terminal)

/-- The stored status of the step is that of its job, should the job be dead. -/
def BatchStep.Agrees (jobs : JobStore) (step : BatchStep) : Prop :=
  ∀ id ∈ step.jobId, ∀ job ∈ jobs.job id, job.dead = true → step.status = .ofJob job.status

instance (jobs : JobStore) (step : BatchStep) : Decidable (step.Agrees jobs) :=
  inferInstanceAs (Decidable (∀ id ∈ step.jobId, ∀ job ∈ jobs.job id,
    job.dead = true → step.status = .ofJob job.status))

/-- On its way to a job a run knows that it is not dead, and at the claim that
it did not end. A step is reviewed when it agrees with its job, and a key is
submitted when its job is not dead. -/
def batchOutline : Outline BatchLabel BatchStore where
  inv store := store.jobs.Sound
  here
    | .toward id, store => store.jobs.dead id = false
    | .claim id, store => store.jobs.ended id = false
    | _, _ => True
  meets
    | .review step, store => step.Agrees store.jobs
    | .submit project key, store =>
      ∀ old ∈ store.jobs.prior project key, store.jobs.dead old.job = false
    | _, _ => True

instance : ∀ label store, Decidable (batchOutline.here label store)
  | .toward id, store => inferInstanceAs (Decidable (store.jobs.dead id = false))
  | .claim id, store => inferInstanceAs (Decidable (store.jobs.ended id = false))
  | .access, _ | .review _, _ | .submit _ _, _ => .isTrue trivial

instance : ∀ label store, Decidable (batchOutline.meets label store)
  | .review step, store => inferInstanceAs (Decidable (step.Agrees store.jobs))
  | .submit project key, store =>
    inferInstanceAs (Decidable (∀ old ∈ store.jobs.prior project key,
      store.jobs.dead old.job = false))
  | .access, _ | .toward _, _ | .claim _, _ => .isTrue trivial

variable {opts : RunOptions} {data : BatchLocal} {store : BatchStore} {digest : Text → Text}

variable {job : Job} {jobs : JobStore}

theorem dead_of_job {id : Nat} (h : jobs.job id = some job) : jobs.dead id = job.dead := by
  simp [JobStore.dead, h]

theorem ended_of_job {id : Nat} (h : jobs.job id = some job) :
    jobs.ended id = job.status.terminal := by
  simp [JobStore.ended, h]

theorem Job.dead_false (h : job.result.isSome = true ∨ job.status.terminal = false) :
    job.dead = false := by
  rcases h with hresult | hopen
  · cases hjob : job.result with
    | none => simp [hjob] at hresult
    | some result => simp [Job.dead, hjob]
  · simp [Job.dead, hopen]

variable {request : JobRequest}

/-- The job that a submission returns is not dead unless its key was taken by a
dead one. -/
theorem startJob_not_dead {jobs jobs' : JobStore} (hsound : jobs.Sound) {now : Nat}
    {target : TargetRecord}
    (hprior : ∀ old ∈ jobs.prior target.project request.idempotencyKey, jobs.dead old.job = false)
    (h : startJob now target request jobs = .ok (job, jobs')) : jobs'.dead job.id = false := by
  rcases startJob_ok h with ⟨old, hold, _, hjob, _, rfl⟩ | ⟨_, _, hjob, rfl⟩
  · have hid : job.id = old.job := row_some_key hjob
    rw [hid]
    exact hprior old hold
  have hnew : (jobs.queued now target request).job job.id = some job := by
    have habsent := congrArg JobView.row
      (hsound.numbered.absent (Nat.le_refl jobs.made))
    have hrow : row Job.id jobs.made jobs.jobs = none := habsent
    simp [JobStore.job, JobStore.queued, row_insert, hrow, hjob, JobStore.newJob]
  rw [dead_of_job hnew]
  apply Job.dead_false
  right
  rw [hjob]
  rfl

/-- The job that step `i` of the local copy has, if any, is not dead. -/
def Alive (i : Nat) (data : BatchLocal) (store : BatchStore) : Prop :=
  ∀ step ∈ data.record.steps[i]?, ∀ id ∈ step.jobId, store.jobs.dead id = false

/-- After a part of the loop that says `none`, the run goes on with a job that is
not dead. -/
def GoesOn (i : Nat) : Except String (Option Flow) → BatchLocal → BatchStore → Prop
  | .ok none, data, store => Alive i data store
  | _, _, _ => True

variable {label : BatchLabel}

theorem shows_access {α : Type} {t : Surroundings → BatchTx α}
    {post : Except String α → BatchLocal → BatchStore → Prop}
    (hhere : batchOutline.here label store)
    (hok : ∀ env s a s', s.jobs.Sound → batchOutline.here label s → batchOutline.meets label s →
      t env s = .ok (a, s') → post (.ok a) data s') (herror : ∀ e s, post (.error e) data s) :
    Shows batchOutline (access label t) post data store := by
  apply shows_atomically hhere
  intro s hinv hat hmeets env
  constructor
  · intro a s' ht
    by_cases hbusy : env.busy = true
    · simp [hbusy] at ht
    · simp only [hbusy] at ht
      exact hok env s a s' hinv hat hmeets ht
  · intro e _
    exact herror e s

variable {post : Except String Unit → BatchLocal → BatchStore → Prop}

theorem shows_save (hhere : batchOutline.here label store)
    (hok : ∀ s s', batchOutline.here label s → s'.jobs = s.jobs → post (.ok ()) data s')
    (herror : ∀ e s, post (.error e) data s) :
    Shows batchOutline (save label opts) post data store := by
  apply shows_bind
  apply shows_get
  apply shows_access
  · exact hhere
  · intro env s a s' _ hat _ ht
    obtain ⟨_, _, _, rfl⟩ := saveBatch_ok ht
    exact hok s _ hat rfl
  · exact herror

variable {step : BatchStep} {i : Nat}

theorem shows_settleOrRetry {previous : Job} (hstep : data.record.steps[i]? = some step)
    (halive : step.status = .running ∨ step.status = .pending ∨ previous.status = .queued →
      ∀ id ∈ step.jobId, store.jobs.dead id = false) :
    Shows batchOutline (settleOrRetry opts i step previous) (GoesOn i) data store := by
  unfold settleOrRetry
  split
  · split
    · exact trivial
    apply shows_bind
    apply shows_modify
    apply shows_pure
    intro found hfound id hid
    have hfree : ({ step with jobId := none } : BatchStep) = found :=
      Option.some.inj ((getElem?_withStep hstep).symm.trans hfound)
    rw [← hfree] at hid
    cases hid
  · next hgo =>
      apply shows_pure
      intro found hfound id hid
      obtain rfl : step = found := Option.some.inj (hstep.symm.trans hfound)
      apply halive _ id hid
      by_contra hnone
      push Not at hnone
      exact hgo hnone

theorem shows_reviewJob {job : Nat}
    (hstep : data.record.steps[i]? = some step) (hjob : step.jobId = some job) :
    Shows batchOutline (reviewJob opts i step job) (GoesOn i) data store := by
  unfold reviewJob
  apply shows_bind
  apply shows_access
  · exact trivial
  · intro env s previous s' _ _ hagrees ht
    obtain ⟨hinfo, hstore⟩ := onJobs_ok ht
    obtain ⟨hrow, _, hsame⟩ := jobInfo_ok hinfo
    have hdead : ∀ id ∈ step.jobId, s'.jobs.dead id = previous.dead := by
      intro id hid
      obtain rfl : job = id := Option.some.inj (hjob.symm.trans hid)
      rw [hsame]
      exact dead_of_job hrow
    cases hresult : previous.result with
    | some result =>
      have halive : previous.dead = false := Job.dead_false (Or.inl (by simp [hresult]))
      simp only [hresult]
      apply shows_bind
      apply shows_modify
      dsimp only
      split
      · exact trivial
      · apply shows_settleOrRetry (getElem?_withStep hstep)
        intro _ id hid
        exact (hdead id hid).trans halive
    | none =>
      simp only [hresult]
      split
      · apply shows_bind
        apply shows_access
        · exact trivial
        · intro env s ids s' _ _ _ _
          apply shows_bind
          apply shows_access
          · exact trivial
          · intro env s current s' _ _ _ ht
            obtain ⟨hinfo, _⟩ := onJobs_ok ht
            obtain ⟨hrow, _, hsame⟩ := jobInfo_ok hinfo
            dsimp only
            split
            · exact trivial
            next hnot =>
              apply shows_bind
              apply shows_modify
              apply shows_settleOrRetry (getElem?_withStep hstep)
              intro hstatus id hid
              obtain rfl : job = id := Option.some.inj (hjob.symm.trans hid)
              have hopen : current.status.terminal = false := by
                cases hcurrent : current.status with
                | queued => rfl
                | running => exact absurd hcurrent hnot
                | ended status => simp [hcurrent, StepStatus.ofJob] at hstatus
              rw [hsame, dead_of_job hrow]
              exact Job.dead_false (Or.inr hopen)
          · intro e s
            exact trivial
        · intro e s
          exact trivial
      · apply shows_settleOrRetry hstep
        intro hstatus id hid
        rw [hdead id hid]
        obtain rfl : job = id := Option.some.inj (hjob.symm.trans hid)
        cases hprevious : previous.dead with
        | false => rfl
        | true =>
          -- the step agrees with its dead job, so it is neither running nor pending
          have hsame := hagrees job hid previous hrow hprevious
          cases hstatus' : previous.status with
          | queued => simp [Job.dead, hstatus', JobStatus.terminal] at hprevious
          | running => simp [Job.dead, hstatus', JobStatus.terminal] at hprevious
          | ended status => simp [hsame, hstatus', StepStatus.ofJob] at hstatus
  · intro e s
    exact trivial

theorem shows_prepare {post : Except String Job → BatchLocal → BatchStore → Prop}
    (hok : ∀ job s, s.jobs.dead job.id = false → post (.ok job) data s)
    (herror : ∀ e s, post (.error e) data s) :
    Shows batchOutline (prepare request) post data store := by
  apply shows_access
  · exact trivial
  · intro env s job s' hsound _ hprior ht
    apply hok
    rw [bind_ok] at ht
    obtain ⟨target, s₁, htarget, ht⟩ := ht
    obtain ⟨rfl, hproject⟩ := requestTarget_ok htarget
    split at ht
    · exact absurd ht throw_ok
    split at ht
    · exact absurd ht throw_ok
    · obtain ⟨hstart, _⟩ := onJobs_ok ht
      exact startJob_not_dead hsound (hproject ▸ hprior) hstart
  · exact herror

theorem shows_submitAttempt (hok : ∀ data' s, Alive i data' s → post (.ok ()) data' s)
    (herror : ∀ e data' s, post (.error e) data' s) :
    Shows batchOutline (submitAttempt digest opts i step) post data store := by
  have hsubmit : ∀ (data : BatchLocal) (s : BatchStore),
      Shows batchOutline (submitReserved i) post data s := by
    intro data s
    unfold submitReserved
    apply shows_bind
    apply shows_get
    dsimp only
    cases hreserved : data.record.steps[i]? with
    | none => exact shows_throw (herror _ _ _)
    | some reserved =>
      dsimp only
      cases hkey : reserved.reservedKey with
      | none => exact shows_throw (herror _ _ _)
      | some key =>
        dsimp only
        apply shows_bind
        apply shows_prepare
        · intro job s hdead
          apply shows_modify
          apply hok
          intro found hfound id hid
          have hsame : reserved.submit job.id = found :=
            Option.some.inj ((getElem?_withStep hreserved).symm.trans hfound)
          rw [← hsame] at hid
          obtain rfl : job.id = id := Option.some.inj hid
          exact hdead
        · intro e s
          exact herror _ _ _
  unfold submitAttempt
  by_cases hfree : step.reserved = false
  · simp only [hfree, if_true]
    apply shows_bind
    apply shows_modify
    apply shows_bind
    apply shows_modify
    apply shows_bind
    apply shows_save
    · exact trivial
    · intro s s' _ _
      exact hsubmit _ s'
    · intro e s
      exact herror _ _ _
  · simp only [hfree]
    exact hsubmit data store

theorem shows_execute {post : Except String ResultEnvelope → BatchLocal → BatchStore → Prop}
    (halive : store.jobs.dead job.id = false) (hpost : ∀ x s, post x data s) :
    Shows batchOutline (execute job) post data store := by
  unfold execute
  apply shows_bind
  apply shows_access
  · exact halive
  · intro env s prior s' _ hat _ ht
    obtain ⟨hinfo, _⟩ := onJobs_ok ht
    obtain ⟨hrow, _, hsame⟩ := jobInfo_ok hinfo
    have hid : prior.id = job.id := row_some_key hrow
    cases hresult : prior.result with
    | some result =>
      simp only [hresult]
      exact shows_pure (hpost _ _)
    | none =>
      simp only [hresult]
      apply shows_bind
      have hopen : s'.jobs.ended prior.id = false := by
        have hdead : prior.dead = false := (dead_of_job hrow).symm.trans hat
        rw [hsame, hid, ended_of_job hrow]
        simpa [Job.dead, hresult] using hdead
      apply shows_access
      · exact hopen
      · intro env s ticket s' _ _ _ _
        apply shows_access
        · exact trivial
        · intro env s a s' _ _ _ _
          exact hpost _ _
        · exact fun e s => hpost _ _
      · exact fun e s => hpost _ _
  · exact fun e s => hpost _ _

theorem shows_runJob {post : Except String Flow → BatchLocal → BatchStore → Prop}
    (h : Alive i data store) (hpost : ∀ x data s, post x data s) :
    Shows batchOutline (runJob opts i) post data store := by
  unfold runJob
  apply shows_bind
  apply shows_get
  dsimp only
  cases hstep : data.record.steps[i]? with
  | none => exact shows_throw (hpost _ _ _)
  | some step =>
    dsimp only
    cases hjob : step.jobId with
    | none => exact shows_throw (hpost _ _ _)
    | some id =>
      dsimp only
      have halive : store.jobs.dead id = false := h step hstep id hjob
      apply shows_bind
      apply shows_modify
      apply shows_bind
      apply shows_save
      · exact halive
      · intro s s' hat hsame
        have hsaved : s'.jobs.dead id = false := by
          rw [hsame]
          exact hat
        apply shows_bind
        apply shows_access
        · exact hsaved
        · intro env s job s' _ hat _ ht
          obtain ⟨hinfo, _⟩ := onJobs_ok ht
          obtain ⟨hrow, _, hstore⟩ := jobInfo_ok hinfo
          have hid : job.id = id := row_some_key hrow
          apply shows_bind
          apply shows_execute
          · rw [hstore, hid]
            exact hat
          intro x s
          cases x with
          | error e => exact hpost _ _ _
          | ok result =>
            apply shows_bind
            apply shows_modify
            apply shows_bind
            apply shows_modify
            apply shows_bind
            apply shows_save
            · exact trivial
            · exact fun _ _ _ _ => shows_pure (hpost _ _ _)
            · exact fun e s => hpost _ _ _
        · exact fun e s => hpost _ _ _
      · exact fun e s => hpost _ _ _

theorem shows_launch {post : Except String Flow → BatchLocal → BatchStore → Prop}
    (h : Alive i data store) (hpost : ∀ x data s, post x data s) :
    Shows batchOutline (launch digest opts i) post data store := by
  unfold launch
  apply shows_bind
  apply shows_get
  dsimp only
  cases hstep : data.record.steps[i]? with
  | none => exact shows_throw (hpost _ _ _)
  | some step =>
    dsimp only
    split
    · apply shows_bind
      apply shows_modify
      exact shows_pure (hpost _ _ _)
    split
    · apply shows_bind
      apply shows_submitAttempt
      · intro data' s halive
        exact shows_runJob halive hpost
      · exact fun e data s => hpost _ _ _
    · exact shows_runJob h hpost

theorem shows_runStep {post : Except String Flow → BatchLocal → BatchStore → Prop}
    (hpost : ∀ x data s, post x data s) :
    Shows batchOutline (runStep digest opts i) post data store := by
  unfold runStep
  apply shows_bind
  apply shows_access
  · exact trivial
  · intro env s cancelled s' _ _ _ _
    dsimp only
    split
    · apply shows_bind
      apply shows_modify
      exact shows_pure (hpost _ _ _)
    apply shows_bind
    apply shows_get
    dsimp only
    cases hstep : data.record.steps[i]? with
    | none => exact shows_throw (hpost _ _ _)
    | some step =>
      dsimp only
      split
      · apply shows_bind
        apply shows_modify
        exact shows_pure (hpost _ _ _)
      split
      · apply shows_bind
        apply shows_modify
        apply shows_bind
        apply shows_modify
        exact shows_pure (hpost _ _ _)
      cases hjob : step.jobId with
      | none =>
        apply shows_launch _ hpost
        intro found hfound id hid
        obtain rfl : step = found := Option.some.inj (hstep.symm.trans hfound)
        rw [hjob] at hid
        cases hid
      | some job =>
        apply shows_bind
        apply (shows_reviewJob hstep hjob).mono
        intro answer data' s' hanswer
        cases answer with
        | error e => exact hpost _ _ _
        | ok flow =>
          cases flow with
          | some flow => exact shows_pure (hpost _ _ _)
          | none => exact shows_launch hanswer hpost
  · exact fun e s => hpost _ _ _

/-- The loop over the steps, by induction on the steps to come. -/
theorem shows_runSteps (indices : List Nat) (hpost : ∀ x data s, post x data s) :
    Shows batchOutline (runSteps digest opts indices) post data store := by
  induction indices generalizing data store with
  | nil => exact shows_pure (hpost _ _ _)
  | cons i rest ih =>
    apply shows_bind
    apply shows_runStep
    intro answer data' s'
    cases answer with
    | error e => exact hpost _ _ _
    | ok flow =>
      cases flow with
      | next => exact ih
      | stop => exact shows_pure (hpost _ _ _)

theorem shows_release
    (hpost : ∀ x data s, post x data s) : Shows batchOutline (release opts) post data store := by
  apply shows_access
  · exact trivial
  · exact fun _ _ _ _ _ _ _ _ => hpost _ _ _
  · exact fun _ _ => hpost _ _ _

theorem shows_interrupted (e : String) (hpost : ∀ x data s, post x data s) :
    Shows batchOutline (interrupted opts e) post data store := by
  have hrelease : ∀ (data : BatchLocal) (s : BatchStore),
      Shows batchOutline (do
        release opts
        throw e : BatchProgram Unit) post data s := by
    intro data s
    apply shows_bind
    apply shows_release
    intro x data s
    cases x with
    | ok a => exact shows_throw (hpost _ _ _)
    | error e => exact hpost _ _ _
  apply shows_bind
  apply shows_tryCatch
  apply shows_bind
  apply shows_modify
  apply shows_save
  · exact trivial
  · exact fun _ s' _ _ => hrelease _ s'
  · intro e s
    apply shows_pure
    exact hrelease _ s

theorem shows_finish
    (hpost : ∀ x data s, post x data s) : Shows batchOutline (finish opts) post data store := by
  have hsave : ∀ data' : BatchLocal,
      Shows batchOutline (do
        save .access opts
        release opts : BatchProgram Unit) post data' store := by
    intro data'
    apply shows_bind
    apply shows_save
    · exact trivial
    · exact fun _ s' _ _ => shows_release hpost
    · exact fun _ _ => hpost _ _ _
  unfold finish
  apply shows_bind
  apply shows_get
  dsimp only
  split
  · apply shows_bind
    apply shows_modify
    exact hsave _
  · exact hsave _

theorem shows_runBatch :
    Shows batchOutline (runBatch digest opts) (fun _ _ _ => True) data store := by
  unfold runBatch
  apply shows_tryCatch
  apply shows_bind
  apply shows_modify
  apply shows_bind
  apply shows_save
  · exact trivial
  · intro s s' _ _
    apply shows_bind
    apply shows_get
    apply shows_bind
    apply shows_runSteps
    intro answer ended s'
    cases answer with
    | error e => exact shows_interrupted e (fun _ _ _ => trivial)
    | ok a =>
      apply shows_finish
      intro x data s
      cases x with
      | ok a => exact trivial
      | error e => exact shows_interrupted e (fun _ _ _ => trivial)
  · intro e s
    exact shows_interrupted e (fun _ _ _ => trivial)

variable (digest : Text → Text)

theorem outline_starts : batchOutline.Starts (batchMachine digest) := by
  intro call k env store _
  cases call with
  | create | cancel | beat | job => exact trivial
  | run project id retryFailed resetCancel =>
    simp only [batchMachine]
    cases store.batch project id with
    | none => exact trivial
    | some row =>
      dsimp only
      split
      · exact shows_runBatch.process
      · exact trivial

/-- What the review of a step whose job ended comes to: the step is settled with
the status of its job, or its job is taken away for another attempt. -/
inductive Reviewed (opts : RunOptions) (i : Nat) (step : BatchStep) (job : Job) :
    Option Flow → BatchLocal → Prop where
  | settled (data : BatchLocal) (stored : BatchStep)
      (hlast : (StepStatus.ofJob job.status).success true = true ∨ opts.retryFailed = false ∨
        2 ≤ step.attempt)
      (hnoted : data.states step.name = some (.ofJob job.status))
      (hstored : data.record.steps[i]? = some stored) (hstatus : stored.status = .ofJob job.status) :
      Reviewed opts i step job (some .next) data
  | retried (data : BatchLocal) (stored : BatchStep) (hretry : opts.retryFailed = true)
      (hattempt : step.attempt < 2) (hstored : data.record.steps[i]? = some stored)
      (hfree : stored.jobId = none) (hsame : stored.attempt = step.attempt) :
      Reviewed opts i step job none data

theorem settleOrRetry_ended
    (hstep : data.record.steps[i]? = some step) (hended : job.status.terminal = true)
    (hstatus : step.status = .ofJob job.status) :
    ∃ flow data', settleOrRetry opts i step job data = .done (.ok flow, data') ∧
      Reviewed opts i step job flow data' := by
  have hgo : step.status ≠ .running ∧ step.status ≠ .pending ∧ job.status ≠ .queued := by
    cases hjob : job.status with
    | queued => simp [hjob, JobStatus.terminal] at hended
    | running => simp [hjob, JobStatus.terminal] at hended
    | ended status => simp [hstatus, hjob, StepStatus.ofJob]
  unfold settleOrRetry
  rw [if_pos hgo]
  by_cases hlast : opts.retryFailed = false ∨ 2 ≤ step.attempt
  · rw [if_pos hlast]
    refine ⟨_, _, rfl, .settled _ step (Or.inr hlast) ?_ hstep hstatus⟩
    simp [hstatus]
  rw [if_neg hlast]
  push Not at hlast
  have hattempt : step.attempt < 2 := by omega
  exact ⟨_, _, rfl, .retried _ _ (by simpa using hlast.1) hattempt (getElem?_withStep hstep)
    rfl rfl⟩

/-- The review of a step whose job ended is one look at the job. -/
theorem review_ended {i id : Nat} {env : Surroundings}
    (hsound : store.jobs.Sound) (hstep : data.record.steps[i]? = some step)
    (hinfo : jobInfo opts.project id store.jobs = .ok (job, store.jobs))
    (hended : job.status.terminal = true)
    (hagrees : job.dead = true → step.status = .ofJob job.status) (hbusy : env.busy = false) :
    ∃ write next, reviewJob opts i step id data = .act (.review step) write next ∧
      write env store = store ∧ ∃ flow data', next env store = .done (.ok flow, data') ∧
        Reviewed opts i step job flow data' := by
  have hlook : (if env.busy = true then throw "database is locked"
      else onJobs (jobInfo opts.project id) : BatchTx Job) store = .ok (job, store) := by
    simp [hbusy, onJobs, hinfo]
  have hrow := (jobInfo_ok hinfo).1
  refine ⟨_, _, rfl, ?_, ?_⟩
  · dsimp only
    rw [hlook]
  dsimp only
  rw [hlook]
  dsimp only [Proc.bind]
  cases hresult : job.result with
  | some result =>
    have hstatus : job.status = .ended result.status :=
      (hsound.views id).settled job result hrow hresult
    have hsettled : (step.settled job result).status = .ofJob job.status := by
      simp [BatchStep.settled, hstatus, StepStatus.ofJob]
    have hstored : (data.record.withStep i (step.settled job result)).steps[i]? =
        some (step.settled job result) := getElem?_withStep hstep
    show ∃ flow data', (if (step.settled job result).status.success true then do
        noteState step.name (step.settled job result).status
        pure (some .next)
      else settleOrRetry opts i (step.settled job result) job : BatchProgram (Option Flow))
        { data with record := data.record.withStep i (step.settled job result) } =
      .done (.ok flow, data') ∧ Reviewed opts i step job flow data'
    by_cases hsuccess : (step.settled job result).status.success true = true
    · rw [if_pos hsuccess]
      refine ⟨_, _, rfl, .settled _ (step.settled job result)
        (Or.inl (hsettled ▸ hsuccess)) ?_ hstored hsettled⟩
      simp [hsettled]
    rw [if_neg hsuccess]
    have hend : ∃ flow data', settleOrRetry opts i (step.settled job result) job
        { data with record := data.record.withStep i (step.settled job result) } =
        .done (.ok flow, data') ∧
        Reviewed opts i (step.settled job result) job flow data' :=
      settleOrRetry_ended hstored hended hsettled
    obtain ⟨flow, data', hdone, hreviewed⟩ := hend
    refine ⟨flow, data', hdone, ?_⟩
    cases hreviewed with
    | settled _ stored hlast hnoted hstored hstatus =>
      exact .settled _ stored hlast hnoted hstored hstatus
    | retried _ stored hretry hattempt hstored hfree hsame =>
      exact .retried _ stored hretry hattempt hstored hfree hsame
  | none =>
    have hrunning : job.status ≠ .running := by
      intro hrunning
      simp [hrunning, JobStatus.terminal] at hended
    simp only [hrunning, if_false]
    exact settleOrRetry_ended hstep hended (hagrees (by simp [Job.dead, hended, hresult]))

/-- What holds of the stores and the processes of a run. -/
structure BatchResumed (st : Machine.State Surroundings BatchLabel BatchStore) : Prop where
  /-- No run is about to claim a job that ended. -/
  claims : ∀ n id, Outline.nextLabel st n = some (.claim id) → st.store.jobs.ended id = false
  /-- A run that reviews a step whose job ended settles the step with the status of
  the job, or takes the job away for another attempt. -/
  reviews : ∀ (opts : RunOptions) (i : Nat) (data : BatchLocal) (step : BatchStep) (id : Nat)
    (job : Job) (env : Surroundings), data.record.steps[i]? = some step →
    jobInfo opts.project id st.store.jobs = .ok (job, st.store.jobs) →
    job.status.terminal = true → (job.dead = true → step.status = .ofJob job.status) →
    env.busy = false →
    ∃ write next, reviewJob opts i step id data = .act (.review step) write next ∧
      write env st.store = st.store ∧
      ∃ flow data', next env st.store = .done (.ok flow, data') ∧
        Reviewed opts i step job flow data'

/-- Along every undisturbed run of calls, run actions and crashes from a fresh
store, dead jobs are settled or tried again, and never claimed. -/
theorem batch_resumes (projects : List Text) (targets : List TargetRecord)
    (events : List (Event Surroundings BatchCall))
    (hquiet : batchOutline.Undisturbed (batchMachine digest) (idle projects targets) events) :
    BatchResumed ((batchMachine digest).run (idle projects targets) events) := by
  have hidle : (batchDiscipline digest).Holds (idle projects targets) := idle_holds projects targets
  have hkeeps : ∀ st e, (batchDiscipline digest).Holds st →
      (batchDiscipline digest).Holds ((batchMachine digest).next st e) := by
    intro st e h
    have hrun := h.run (batch_starts digest) [e] (batch_meets digest st [e])
    exact hrun.1
  have houtline : batchOutline.Holds (idle projects targets) := by
    intro n p hp
    cases hp
  have hholds := houtline.run (outline_starts digest) (fun st h => h.inv.jobs) hkeeps hidle
    events hquiet
  have hsound := (hidle.run (batch_starts digest) events (batch_meets digest _ events)).1.inv.jobs
  constructor
  · intro n id hlabel
    exact hholds.here hlabel
  · intro opts i data step id job env hstep hinfo hended hagrees hbusy
    exact review_ended hsound hstep hinfo hended hagrees hbusy

/-- Surroundings that refuse nothing. -/
def calm (now : Nat) : Surroundings :=
  ⟨now, false, false, false, false, ⟨"completed", [], true⟩⟩

def oneTarget : List TargetRecord := [⟨"t", "p", "sha"⟩]

/-- A batch of one step. -/
def oneStep : BatchCall :=
  .create "p" "b" [] ⟨1000, 1000, 1000, 4⟩
    [⟨"s", [], false, "p", "t", "sha", "airece", "summary", [], [], [], 10, 10, 10, 10, []⟩]

/-- The batch is run, and the run dies when it has claimed its job. -/
def diedRunning : List (Event Surroundings BatchCall) :=
  [.start oneStep (calm 0), .start (.run "p" "b" true false) (calm 0)] ++
    List.replicate 8 (.step 1 (calm 0)) ++ [.crash 1]

/-- Another command recovers the job, and the batch is run again up to its next claim. -/
def recoveredElsewhere : List (Event Surroundings BatchCall) :=
  diedRunning ++ [.start (.job (.recover "p")) (calm 40000),
    .start (.run "p" "b" true false) (calm 40000)] ++
    List.replicate 6 (.step 3 (calm 40000))

/-- The batch is run again, recovers the job itself, and claims the job of its
second attempt. -/
def recoveredHere : List (Event Surroundings BatchCall) :=
  diedRunning ++ [.start (.run "p" "b" true false) (calm 40000)] ++
    List.replicate 10 (.step 2 (calm 40000))

/-- The second run is about to claim the interrupted job, although the step could
be tried once more. -/
theorem batch_claims_dead_job :
    let st := (batchMachine id).run (idle ["p"] oneTarget) recoveredElsewhere
    Outline.nextLabel st 3 = some (.claim 0) ∧ st.store.jobs.ended 0 = true ∧
      (st.store.batch "p" "b").map (fun row =>
        row.record.steps.map (fun step => (step.status, step.attempt))) =
          some [(.running, 1)] := by
  decide +kernel

theorem batch_resumes_here :
    BatchResumed ((batchMachine id).run (idle ["p"] oneTarget) recoveredHere) ∧
      Outline.nextLabel ((batchMachine id).run (idle ["p"] oneTarget) recoveredHere) 2 =
        some (.claim 3) :=
  ⟨batch_resumes id ["p"] oneTarget recoveredHere (by decide +kernel), by decide +kernel⟩

end Indago
