import IndagoRev.Workbench.JobInvariant

/-!
# The lifecycle of a job

Over any run of job calls, with any clock at each of them: a job is claimed at
most once, leaves its queue only for an end, keeps the first result it got, and
is the only job of its idempotency key.

Main result: `job_lifecycle`, one lemma for each of its fields.
-/

namespace Indago

open StdText Tables Transactions List

variable {store store' : JobStore} {now : Nat} {id : Nat}

/-- The calls that claim the job `id`. -/
def claims (id : Nat) : TimedCall × JobAnswer → Bool
  | ((_, .claim _ claimed), _) => claimed = id
  | _ => false

/-- The jobs of a project that were started under a key. -/
def JobStore.startedUnder (store : JobStore) (project key : Text) : List Job :=
  store.jobs.filter (fun job => job.project = project ∧ job.request.idempotencyKey = key)

/-- The moves of a job's status under one call: to running by a claim, from
running to an end, and from queued to an end by a publication without a lease. -/
inductive JobMove (store : JobStore) (id : Nat) : JobCall → JobStatus → JobStatus → Prop where
  | stay (call : JobCall) (status : JobStatus) : JobMove store id call status status
  | claim (project : Text) : JobMove store id (.claim project id) .queued .running
  | interrupt (project : Text) : JobMove store id (.recover project) .running (.ended .interrupted)
  | finish (target : TargetRecord) (ticket : JobTicket) (backend : Text)
      (result : CommandResult) (status : ResultStatus) (hid : ticket.id = id) :
      JobMove store id (.publish target ticket backend result) .running (.ended status)
  | unclaimed (target : TargetRecord) (ticket : JobTicket) (backend : Text)
      (result : CommandResult) (status : ResultStatus) (hid : ticket.id = id)
      (hfree : store.lease id = none) :
      JobMove store id (.publish target ticket backend result) .queued (.ended status)

/-- A publication that writes: by the holder of the live lease, or of a job that
nobody claimed. -/
def JobStore.Authorised (store : JobStore) (now : Nat) (ticket : JobTicket) (job : Job) : Prop :=
  (job.status = .queued ∧ store.lease ticket.id = none) ∨
    (job.status = .running ∧ ∃ lease, store.lease ticket.id = some lease ∧
      ticket.leaseToken = some lease.token ∧ now ≤ lease.deadline)

/-- What holds of the job tables that a run of calls leads to. -/
structure JobLifecycle (start : JobStore) (calls : List TimedCall) (store : JobStore) : Prop where
  /-- A job has a lease exactly while it runs. -/
  leased : ∀ id, (store.lease id).isSome = true ↔
    ∃ job, store.job id = some job ∧ job.status = .running
  /-- Over its whole life a job is claimed at most once. -/
  claimedOnce : ∀ id, (jobService.committed start calls).countP (claims id) ≤ 1
  /-- One more call moves a status forward or leaves it. -/
  moves : ∀ now call id job, store.job id = some job →
    ∃ job', (jobService.after store (now, call)).job id = some job' ∧
      JobMove store id call job.status job'.status
  /-- A publication returns the stored result, or is authorised and stores its own. -/
  published : ∀ now target ticket backend result envelope store',
    publishResult now target ticket backend result store = .ok (envelope, store') →
    ∃ job, store.job ticket.id = some job ∧
      ((job.result = some envelope ∧ store' = store) ∨
        (job.result = none ∧ store.Authorised now ticket job ∧
          ∃ job', store'.job ticket.id = some job' ∧ job'.result = some envelope ∧
            job'.status = .ended envelope.status))
  /-- A stored result answers every later publication of the same identity. -/
  republished : ∀ now target ticket backend result job envelope,
    store.identified target ticket backend = some job → job.result = some envelope →
    publishResult now target ticket backend result store = .ok (envelope, store)
  /-- The row of a job that ended, its result or the lack of one, never changes. -/
  settled : ∀ id job later, store.job id = some job → job.status.terminal = true →
    (jobService.run store later).job id = some job
  /-- A job that was interrupted by a recovery never gets a result. -/
  interrupted : ∀ now project ids store',
    recoverJobs now project store = .ok (ids, store') → ∀ id ∈ ids, ∀ later,
    ∃ job, (jobService.run store' later).job id = some job ∧
      job.status = .ended .interrupted ∧ job.result = none
  /-- At most one job was started under a key. -/
  oneJob : ∀ project key, key ≠ [] → (store.startedUnder project key).length ≤ 1
  /-- Once a job was started under a key, an equal request returns it and a
  different one is rejected; neither changes a table. -/
  restarted : ∀ now target request job store', request.idempotencyKey ≠ [] →
    startJob now target request store = .ok (job, store') → ∀ later,
    (∃ row, (jobService.run store' later).startedUnder target.project request.idempotencyKey = [row]
      ∧ row.id = job.id ∧ row.request = request) ∧
    ∀ now' target' request', target'.project = target.project →
      request'.idempotencyKey = request.idempotencyKey →
      (request' = request → ∃ row, row.id = job.id ∧
        startJob now' target' request' (jobService.run store' later) =
          .ok (row, jobService.run store' later)) ∧
      (request' ≠ request →
        (∃ e, startJob now' target' request' (jobService.run store' later) = .error e) ∧
        jobService.after (jobService.run store' later) (now', .start target' request') =
          jobService.run store' later)
  /-- The events of a job replay to its status. -/
  replayed : ∀ id, store.replay id = (store.job id).map Job.status

variable {job : Job}

/-- A step moves the status of a job along its lifecycle. -/
theorem JobStep.move {call : JobCall} {view' : JobView} (h : store.Sound)
    (hstep : JobStep id now call (store.view id) view') (hjob : store.job id = some job) :
    ∃ job', view'.row = some job' ∧ JobMove store id call job.status job'.status := by
  have hsound := h.views id
  have hrow : (store.view id).row = some job := hjob
  have hlease : (store.view id).lease = store.lease id := rfl
  generalize store.view id = view at hstep hsound hrow hlease
  cases hstep with
  | kept => exact ⟨job, hrow, .stay _ _⟩
  | queued => cases hrow
  | claimed project other lease events hopen =>
    cases hrow
    refine ⟨_, rfl, ?_⟩
    rcases JobStatus.terminal_false hopen with hstatus | hstatus
    · rw [hstatus]
      exact .claim project
    · rw [hstatus]
      exact .stay _ _
  | renewed => exact ⟨job, hrow, .stay _ _⟩
  | interrupted project other lease events hrunning hexpired =>
    cases hrow
    refine ⟨_, rfl, ?_⟩
    rw [hrunning]
    exact .interrupt project
  | published target ticket backend result other lease events status envelope hid hstatus hresult hopen howned =>
    cases hrow
    refine ⟨_, rfl, ?_⟩
    rcases JobStatus.terminal_false hopen with hstatus | hstatus
    · rw [hstatus]
      refine .unclaimed target ticket backend result status hid ?_
      cases hfree : lease with
      | none => exact hlease ▸ hfree
      | some held =>
        obtain ⟨running, hrunning, hstatus'⟩ := hsound.leased.mp (by simp [hfree])
        cases hrunning
        rw [hstatus] at hstatus'
        cases hstatus'
    · rw [hstatus]
      exact .finish target ticket backend result status hid

theorem JobStore.Sound.authorised (h : store.Sound) {ticket : JobTicket}
    (hjob : store.job ticket.id = some job) (hopen : job.status.terminal = false)
    (hmay : store.mayPublish now ticket = true) : store.Authorised now ticket job := by
  have hleased := (h.views ticket.id).leased
  rcases JobStatus.terminal_false hopen with hqueued | hrunning
  · refine Or.inl ⟨hqueued, ?_⟩
    cases hlease : store.lease ticket.id with
    | none => rfl
    | some lease =>
      obtain ⟨running, hrow, hstatus⟩ := hleased.mp (by simp [JobStore.view, hlease])
      have hsame : some running = some job := hrow.symm.trans hjob
      cases hsame
      rw [hqueued] at hstatus
      cases hstatus
  · refine Or.inr ⟨hrunning, ?_⟩
    have hsome : (store.lease ticket.id).isSome = true := hleased.mpr ⟨job, hjob, hrunning⟩
    obtain ⟨lease, hlease⟩ := Option.isSome_iff_exists.mp hsome
    refine ⟨lease, hlease, ?_⟩
    simpa [JobStore.mayPublish, hlease] using hmay

/-- A committed claim stores one more start of its job; no call takes one away. -/
theorem starts_grow (h : store.Sound) {call : JobCall} {answer : JobAnswer}
    (hexec : jobService.exec (now, call) store = .ok (answer, store')) (id : Nat) :
    (store.kinds id).count .started + (if claims id ((now, call), answer) then 1 else 0) ≤
      (store'.kinds id).count .started := by
  by_cases hclaims : claims id ((now, call), answer) = true
  · cases call with
    | claim project claimed =>
      simp only [claims, decide_eq_true_eq] at hclaims
      subst hclaims
      simp only [jobService, map_ok, Prod.mk.injEq] at hexec
      obtain ⟨ticket, s', hclaim, -, rfl⟩ := hexec
      obtain ⟨_, _, _, _, _, _, rfl⟩ := claimJob_ok hclaim
      simp [claims, JobStore.kinds, JobStore.claimed]
    | start | beat | recover | publish => simp [claims] at hclaims
  · have hview : ∀ s : JobStore, s.kinds id = (s.view id).events := fun _ => rfl
    have hstep := exec_step h.numbered hexec id
    rw [if_neg hclaims, hview, hview]
    generalize store.view id = view at hstep
    generalize store'.view id = view' at hstep
    cases hstep <;> simp [count_append]

/-- No job is claimed twice. -/
theorem claimed_once (h : store.Sound) (calls : List TimedCall) (id : Nat) :
    (jobService.committed store calls).countP (claims id) ≤ 1 := by
  have hcount := Service.committed_count_le jobService JobStore.Sound
    (fun s => (s.kinds id).count .started) 1 (claims id) (fun _ _ _ _ hs hexec => hs.exec hexec)
    (fun s call a s' hs hexec => starts_grow hs hexec id)
    (fun s hs => (hs.views id).claimedOnce) calls h
  omega

variable {project key : Text}

theorem prior_of_startedUnder (h : store.Sound) (hkey : key ≠ [])
    (hjob : job ∈ store.startedUnder project key) :
    store.prior project key = some ⟨project, key, job.request, job.id⟩ := by
  obtain ⟨hmem, hnamed⟩ := mem_filter.mp hjob
  simp only [decide_eq_true_eq] at hnamed
  have hrecorded := h.keyed.recorded job.identity (mem_map_of_mem hmem)
    (by simpa [Job.identity, hnamed.2] using hkey)
  simpa [Job.identity, hnamed] using hrecorded

/-- A key starts at most one job. -/
theorem startedUnder_le_one (h : store.Sound) (hkey : key ≠ []) :
    (store.startedUnder project key).length ≤ 1 := by
  cases hprior : store.prior project key with
  | none =>
    have hempty : store.startedUnder project key = [] := by
      apply eq_nil_iff_forall_not_mem.mpr
      intro job hjob
      rw [prior_of_startedUnder h hkey hjob] at hprior
      cases hprior
    simp [hempty]
  | some old =>
    obtain ⟨job, _, _, _, _, _, _, honly⟩ := h.keyed_row hprior
    have hnodup : (store.startedUnder project key).Nodup :=
      (List.Nodup.of_map _ h.numbered.distinct).filter _
    apply Nat.le_of_not_lt
    intro hlong
    match hrows : store.startedUnder project key with
    | [] | [_] => simp [hrows] at hlong
    | first :: second :: rest =>
      have hmem : ∀ row ∈ store.startedUnder project key, row = job := by
        intro row hrow
        have hrow' := mem_filter.mp hrow
        simp only [decide_eq_true_eq] at hrow'
        exact honly row hrow'.1 hrow'.2.1 hrow'.2.2
      rw [hrows] at hnodup hmem
      have hfirst := hmem first (by simp)
      have hsecond := hmem second (by simp)
      simp [hfirst, hsecond] at hnodup

theorem startedUnder_eq (h : store.Sound) {old : Idempotency}
    (hprior : store.prior project key = some old) :
    ∃ job, store.startedUnder project key = [job] ∧ job.id = old.job ∧
      job.request = old.request := by
  obtain ⟨job, hjob, hid, hproject, hrequest, hkey, _, _⟩ := h.keyed_row hprior
  have hmem : job ∈ store.startedUnder project key := by
    rw [JobStore.startedUnder, mem_filter]
    exact ⟨row_some_mem hjob, by simp [hproject, hkey]⟩
  have hone : (store.startedUnder project key).length ≤ 1 :=
    startedUnder_le_one h (prior_some hprior).1
  obtain ⟨row, hrow⟩ := length_eq_one_iff.mp
    (Nat.le_antisymm hone (length_pos_of_mem hmem))
  rw [hrow, mem_singleton] at hmem
  exact ⟨job, by rw [hrow, hmem], hid, hrequest⟩

variable {target : TargetRecord} {request : JobRequest}

theorem prior_of_startJob (h : store.Sound) (hkey : request.idempotencyKey ≠ [])
    (hstart : startJob now target request store = .ok (job, store')) :
    ∃ old, store'.prior target.project request.idempotencyKey = some old ∧
      old.request = request ∧ old.job = job.id := by
  rcases startJob_ok hstart with ⟨old, hprior, hsame, hjob, _, rfl⟩ | ⟨hprior, _, hjob, rfl⟩
  · exact ⟨old, hprior, hsame, (row_some_key hjob).symm⟩
  refine ⟨⟨target.project, request.idempotencyKey, request, store.made⟩, ?_, rfl, ?_⟩
  · rw [prior_queued target request hkey, hprior]
    simp
  · rw [hjob]
    rfl

theorem exec_of_startJob (h : startJob now target request store = .ok (job, store')) :
    jobService.exec (now, .start target request) store = .ok (.job job, store') := by
  simp only [jobService, map_ok]
  exact ⟨job, store', h, rfl⟩

theorem exec_of_recoverJobs {project : Text} {ids : List Nat}
    (h : recoverJobs now project store = .ok (ids, store')) :
    jobService.exec (now, .recover project) store = .ok (.interrupted ids, store') := by
  simp only [jobService, map_ok]
  exact ⟨ids, store', h, rfl⟩

/-- Along every run of job calls, with any clock at each of them, the job tables
keep the lifecycle. -/
theorem job_lifecycle (projects : List Text) (targets : List TargetRecord)
    (calls : List TimedCall) : JobLifecycle (.fresh projects targets) calls
      (jobService.run (.fresh projects targets) calls) := by
  have hfresh := JobStore.Sound.fresh projects targets
  have hsound := hfresh.run calls
  have hclaims := claimed_once hfresh calls
  generalize jobService.run (JobStore.fresh projects targets) calls = store at hsound ⊢
  constructor
  · exact fun id => (hsound.views id).leased
  · exact hclaims
  · intro now call id job hjob
    rcases Service.after_cases jobService store (now, call) with hsame | ⟨answer, hexec⟩
    · rw [hsame]
      exact ⟨job, hjob, .stay _ _⟩
    · exact (exec_step hsound.numbered hexec id).move hsound hjob
  · intro now target ticket backend result envelope store' hpublish
    obtain ⟨job, hident, hcases⟩ := publishResult_ok hpublish
    have hjob := (identified_some hident).1
    refine ⟨job, hjob, ?_⟩
    rcases hcases with hstored | ⟨status, hnone, hopen, hmay, _, rfl, rfl⟩
    · exact Or.inl hstored
    · refine Or.inr ⟨hnone, hsound.authorised hjob hopen hmay, ?_⟩
      have hrow : row Job.id ticket.id store.jobs = some job := hjob
      simp [JobStore.job, JobStore.published, row_rewrite_self, hrow, JobStore.envelope]
  · intro now target ticket backend result job envelope hident hresult
    simp [publishResult, hident, hresult]
  · exact fun id job later hjob hended => ended_run hsound hjob hended later
  · intro now project ids store' hrecover id hid later
    have hnext : store'.Sound := hsound.exec (exec_of_recoverJobs hrecover)
    obtain ⟨hids, rfl⟩ := recoverJobs_ok hrecover
    rw [hids] at hid
    obtain ⟨job, hjob, habandoned⟩ := (mem_abandoned hsound.numbered).mp hid
    have hrunning : job.status = .running := by
      simp only [JobStore.abandoned, Bool.and_eq_true, decide_eq_true_eq] at habandoned
      exact habandoned.1.2
    have hview := interrupt_self now (abandoned_ids_nodup hsound.numbered _) hid hjob
    rw [← hids] at hview
    have hrow := congrArg JobView.row hview
    refine ⟨_, ended_run hnext hrow rfl later, rfl, ?_⟩
    exact (hsound.views id).pending job hjob (by simp [hrunning, JobStatus.terminal])
  · exact fun project key hkey => startedUnder_le_one hsound hkey
  · intro now target request job store' hkey hstart later
    have hnext : store'.Sound := hsound.exec (exec_of_startJob hstart)
    obtain ⟨old, hprior, hrequest, hid⟩ := prior_of_startJob hsound hkey hstart
    have hlater := prior_run hprior later
    have hsettled := hnext.run later
    obtain ⟨row, hrow, hrowId, hrowRequest⟩ := startedUnder_eq hsettled hlater
    refine ⟨⟨row, hrow, hrowId.trans hid, hrowRequest.trans hrequest⟩, ?_⟩
    intro now' target' request' hproject hkey'
    rw [← hproject, ← hkey'] at hlater
    obtain ⟨hequal, hdiffers⟩ := startJob_prior hsettled now' hlater
    constructor
    · intro hsame
      obtain ⟨found, hfound, _, hagain⟩ := hequal (hrequest.trans hsame.symm)
      exact ⟨found, hfound.trans hid, hagain⟩
    intro hother
    obtain ⟨e, he⟩ := hdiffers (fun h => hother (h.symm.trans hrequest))
    refine ⟨⟨e, he⟩, ?_⟩
    apply Service.after_error (e := e)
    exact map_error he
  · exact fun id => (hsound.views id).replayed

end Indago
