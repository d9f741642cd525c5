import IndagoRev.Workbench.JobCalls

/-!
# The invariant of the job tables

A committed call changes the rows of one job in one of six ways (`JobStep`), and
each of them keeps what is true of a single job: its lease, its result and its
events agree with its status. Across jobs, ids are drawn from the counter and
every idempotency key belongs to the job that was started under it.

Main results: `exec_step` for one job, `JobStore.Sound.run` for the tables.
-/

namespace Indago
open StdText Tables Transactions List

variable {store store' : JobStore} {now : Nat} {id : Nat}

/-- The rows that belong to one job. -/
structure JobView where
  row : Option Job
  lease : Option JobLease
  events : List EventKind

def JobStore.view (store : JobStore) (id : Nat) : JobView :=
  ⟨store.job id, store.lease id, store.kinds id⟩

/-- Job ids are drawn from the counter: a job has one row, and no row names a
job that is still to come. -/
structure JobStore.Numbered (store : JobStore) : Prop where
  jobs : ∀ id ∈ store.jobs.map Job.id, id < store.made
  leases : ∀ id ∈ store.leases.map JobLease.job, id < store.made
  events : ∀ id ∈ store.events.map JobEvent.job, id < store.made
  distinct : (store.jobs.map Job.id).Nodup

/-- What every call keeps of the rows of one job. -/
structure JobView.Sound (view : JobView) : Prop where
  leased : view.lease.isSome = true ↔ ∃ job, view.row = some job ∧ job.status = .running
  pending : ∀ job, view.row = some job → job.status.terminal = false → job.result = none
  settled : ∀ job result, view.row = some job → job.result = some result →
    job.status = .ended result.status
  replayed : view.events.foldl replayEvent none = view.row.map Job.status
  unclaimed : ∀ job, view.row = some job → job.status = .queued → .started ∉ view.events
  claimedOnce : view.events.count .started ≤ 1

/-- What one committed call can do to the rows of the job `id`. -/
inductive JobStep (id : Nat) (now : Nat) : JobCall → JobView → JobView → Prop where
  | kept (call : JobCall) (view : JobView) : JobStep id now call view view
  | queued (target : TargetRecord) (request : JobRequest) (job : Job)
      (hstatus : job.status = .queued) (hresult : job.result = none) :
      JobStep id now (.start target request) ⟨none, none, []⟩ ⟨some job, none, [.queued]⟩
  | claimed (project : Text) (job : Job) (lease : JobLease) (events : List EventKind)
      (hopen : job.status.terminal = false) :
      JobStep id now (.claim project id) ⟨some job, none, events⟩
        ⟨some { job with status := .running }, some lease, events ++ [.started]⟩
  | renewed (row : Option Job) (lease : JobLease) (events : List EventKind) :
      JobStep id now (.beat id lease.token) ⟨row, some lease, events⟩
        ⟨row, some { lease with deadline := now + 30000, heartbeat := now }, events⟩
  | interrupted (project : Text) (job : Job) (lease : Option JobLease) (events : List EventKind)
      (hrunning : job.status = .running) (hexpired : ∀ l, lease = some l → l.deadline < now) :
      JobStep id now (.recover project) ⟨some job, lease, events⟩
        ⟨some { job with status := .ended .interrupted, finished := some now }, none,
          events ++ [.ended .interrupted]⟩
  | published (target : TargetRecord) (ticket : JobTicket) (backend : Text)
      (result : CommandResult) (job : Job) (lease : Option JobLease) (events : List EventKind)
      (status : ResultStatus) (envelope : ResultEnvelope)
      (hid : ticket.id = id) (hstatus : envelope.status = status)
      (hresult : job.result = none) (hopen : job.status.terminal = false)
      (howned : ∀ l, lease = some l → ticket.leaseToken = some l.token ∧ now ≤ l.deadline) :
      JobStep id now (.publish target ticket backend result) ⟨some job, lease, events⟩
        ⟨some { job with
          status := .ended status, finished := some now, result := some envelope }, none,
          events ++ [.ended status]⟩

namespace JobStore.Numbered

theorem absent (h : store.Numbered) (hid : store.made ≤ id) : store.view id = ⟨none, none, []⟩ := by
  have hrow : store.job id = none := by
    rw [JobStore.job, row_none_iff]
    intro job hjob
    have hlt := h.jobs _ (mem_map_of_mem hjob)
    omega
  have hlease : store.lease id = none := by
    rw [JobStore.lease, row_none_iff]
    intro lease hmem
    have hlt := h.leases _ (mem_map_of_mem hmem)
    omega
  have hkinds : store.kinds id = [] := by
    simp only [JobStore.kinds, map_eq_nil_iff, filter_eq_nil_iff]
    intro event hmem
    have hlt := h.events _ (mem_map_of_mem hmem)
    simp
    omega
  simp [JobStore.view, hrow, hlease, hkinds]

theorem of_keys (h : store.Numbered) (store' : JobStore) (hmade : store.made ≤ store'.made)
    (hjobs : store'.jobs.map Job.id = store.jobs.map Job.id)
    (hleases : ∀ i ∈ store'.leases.map JobLease.job,
      i ∈ store.leases.map JobLease.job ∨ i ∈ store.jobs.map Job.id)
    (hevents : ∀ i ∈ store'.events.map JobEvent.job,
      i ∈ store.events.map JobEvent.job ∨ i ∈ store.jobs.map Job.id) : store'.Numbered where
  jobs := by
    intro i hi
    have hlt := h.jobs i (hjobs ▸ hi)
    omega
  leases := by
    intro i hi
    rcases hleases i hi with hi | hi
    · have hlt := h.leases i hi
      omega
    · have hlt := h.jobs i hi
      omega
  events := by
    intro i hi
    rcases hevents i hi with hi | hi
    · have hlt := h.events i hi
      omega
    · have hlt := h.jobs i hi
      omega
  distinct := hjobs ▸ h.distinct

theorem queued (h : store.Numbered) (target : TargetRecord) (request : JobRequest) :
    (store.queued now target request).Numbered where
  jobs := by
    intro i hi
    simp only [JobStore.queued, map_append, map_cons, map_nil, mem_append,
      mem_singleton] at hi ⊢
    rcases hi with hi | hi
    · have hlt := h.jobs i hi
      omega
    · simp only [JobStore.newJob] at hi
      omega
  leases := by
    intro i hi
    have hlt := h.leases i hi
    simp only [JobStore.queued]
    omega
  events := by
    intro i hi
    simp only [JobStore.queued, map_append, map_cons, map_nil, mem_append,
      mem_singleton] at hi ⊢
    rcases hi with hi | hi
    · have hlt := h.events i hi
      omega
    · omega
  distinct := by
    simp only [JobStore.queued, map_append, map_cons, map_nil]
    refine nodup_append.mpr ⟨h.distinct, nodup_singleton _, ?_⟩
    intro i hi j hj
    have hlt := h.jobs i hi
    simp only [JobStore.newJob, mem_singleton] at hj
    omega

end JobStore.Numbered

theorem queued_step (hnum : store.Numbered) (target : TargetRecord) (request : JobRequest) :
    JobStep id now (.start target request) (store.view id)
      ((store.queued now target request).view id) := by
  by_cases hid : id = store.made
  · have habsent : store.view id = ⟨none, none, []⟩ := hnum.absent (by omega)
    have hrow : row Job.id id store.jobs = none := congrArg JobView.row habsent
    have hlease : store.lease id = none := congrArg JobView.lease habsent
    have hkinds : store.kinds id = [] := congrArg JobView.events habsent
    have hview : (store.queued now target request).view id =
        ⟨some (store.newJob now target request), none, [.queued]⟩ := by
      have hnew : (store.queued now target request).kinds id = store.kinds id ++ [.queued] := by
        simp [JobStore.kinds, JobStore.queued, hid]
      simp only [JobStore.view, JobView.mk.injEq]
      refine ⟨?_, hlease, by rw [hnew, hkinds]; rfl⟩
      simp only [JobStore.job, JobStore.queued, row_insert, hrow]
      simp [JobStore.newJob, hid]
    rw [habsent, hview]
    exact .queued target request _ rfl rfl
  · have hview : (store.queued now target request).view id = store.view id := by
      simp [JobStore.view, JobStore.job, JobStore.lease, JobStore.kinds, JobStore.queued,
        row_insert, JobStore.newJob, Ne.symm hid]
    rw [hview]
    exact .kept _ _

variable {job : Job}

theorem claimed_step {project : Text} {claimed : Nat}
    (hjob : store.job claimed = some job) (hopen : job.status.terminal = false)
    (hfree : store.lease claimed = none) :
    JobStep id now (.claim project claimed) (store.view id) ((store.claimed now claimed).view id) := by
  by_cases hid : id = claimed
  · subst hid
    have hview : (store.claimed now id).view id =
        ⟨some { job with status := .running }, some ⟨id, store.made, now + 30000, now⟩,
          store.kinds id ++ [.started]⟩ := by
      simp only [JobStore.view, JobView.mk.injEq]
      refine ⟨?_, ?_, ?_⟩
      · have hrow : row Job.id id store.jobs = some job := hjob
        simp [JobStore.job, JobStore.claimed, row_rewrite_self, hrow]
      · have hrow : row JobLease.job id store.leases = none := hfree
        simp [JobStore.lease, JobStore.claimed, row_insert, hrow]
      · simp [JobStore.kinds, JobStore.claimed]
    rw [hview, JobStore.view, hjob, hfree]
    exact .claimed project job _ _ hopen
  · have hview : (store.claimed now claimed).view id = store.view id := by
      simp [JobStore.view, JobStore.job, JobStore.lease, JobStore.kinds, JobStore.claimed,
        row_insert, row_rewrite_other, hid, Ne.symm hid]
    rw [hview]
    exact .kept _ _
theorem renewed_step {lease : JobLease} {renewed : Nat}
    (hlease : store.lease renewed = some lease) :
    JobStep id now (.beat renewed lease.token) (store.view id) ((store.renewed now renewed).view id) := by
  by_cases hid : id = renewed
  · subst hid
    have hview : (store.renewed now id).view id =
        ⟨store.job id, some { lease with deadline := now + 30000, heartbeat := now },
          store.kinds id⟩ := by
      have hrow : row JobLease.job id store.leases = some lease := hlease
      have hnew : (store.renewed now id).lease id =
          some { lease with deadline := now + 30000, heartbeat := now } := by
        simp [JobStore.lease, JobStore.renewed, row_rewrite_self, hrow]
      rw [JobStore.view, hnew]
      rfl
    rw [hview, JobStore.view, hlease]
    exact .renewed _ lease _
  · have hview : (store.renewed now renewed).view id = store.view id := by
      simp [JobStore.view, JobStore.job, JobStore.lease, JobStore.kinds, JobStore.renewed,
        row_rewrite_other, hid]
    rw [hview]
    exact .kept _ _

/-- The jobs that a recovery interrupts are running, and their leases ran out. -/
theorem mem_abandoned {project : Text} (hnum : store.Numbered) :
    id ∈ (store.jobs.filter (store.abandoned now project)).map Job.id ↔
      ∃ job, store.job id = some job ∧ store.abandoned now project job = true := by
  constructor
  · intro hmem
    obtain ⟨job, hjob, hid⟩ := mem_map.mp hmem
    obtain ⟨hstored, habandoned⟩ := mem_filter.mp hjob
    have hrow := row_of_mem hnum.distinct hstored
    rw [hid] at hrow
    exact ⟨job, hrow, habandoned⟩
  · intro ⟨job, hjob, habandoned⟩
    have hmem := mem_filter.mpr ⟨row_some_mem hjob, habandoned⟩
    exact mem_map.mpr ⟨job, hmem, row_some_key hjob⟩

theorem abandoned_ids_nodup (hnum : store.Numbered) (keep : Job → Bool) :
    ((store.jobs.filter keep).map Job.id).Nodup :=
  hnum.distinct.sublist (List.Sublist.map _ filter_sublist)

/-- The rows of a job that a recovery does not list stay as they were. -/
theorem interrupt_other {ids : List Nat} (hid : id ∉ ids) :
    (store.interrupt now ids).view id = store.view id := by
  have hrow : (store.interrupt now ids).job id = store.job id := by
    rw [JobStore.job, JobStore.interrupt, row_map (by intro job; split <;> rfl)]
    cases hjob : row Job.id id store.jobs with
    | none => simp [JobStore.job, hjob]
    | some job =>
      have hother : job.id ∉ ids := by rwa [row_some_key hjob]
      simp [JobStore.job, hjob, hother]
  have hlease : (store.interrupt now ids).lease id = store.lease id :=
    row_filter_of_key (fun lease hkey => by simpa [hkey] using hid)
  have hkinds : (store.interrupt now ids).kinds id = store.kinds id := by
    simp only [JobStore.kinds, JobStore.interrupt, filter_append, map_append,
      append_right_eq_self, map_eq_nil_iff, filter_eq_nil_iff]
    intro event hevent
    obtain ⟨other, hother, rfl⟩ := mem_map.mp hevent
    have hne : other ≠ id := fun h => hid (h ▸ hother)
    simpa using hne
  simp only [JobStore.view, hrow, hlease, hkinds]

theorem interrupt_self (now : Nat) {ids : List Nat} (hnodup : ids.Nodup) (hid : id ∈ ids)
    (hjob : store.job id = some job) : (store.interrupt now ids).view id =
      ⟨some { job with status := .ended .interrupted, finished := some now }, none,
        store.kinds id ++ [.ended .interrupted]⟩ := by
  have hrow : (store.interrupt now ids).job id =
      some { job with status := .ended .interrupted, finished := some now } := by
    have hfound : row Job.id id store.jobs = some job := hjob
    have hkey : job.id ∈ ids := by rwa [row_some_key hfound]
    rw [JobStore.job, JobStore.interrupt, row_map (by intro job; split <;> rfl), hfound]
    simp [hkey]
  have hlease : (store.interrupt now ids).lease id = none := by
    rw [JobStore.lease, row_none_iff]
    intro lease hmem hkey
    have hkept := (mem_filter.mp hmem).2
    simp [hkey, hid] at hkept
  have hkinds : (store.interrupt now ids).kinds id =
      store.kinds id ++ [.ended .interrupted] := by
    have hnew : (ids.map (fun id => JobEvent.mk id (.ended .interrupted) now)).filter
        (fun e => e.job = id) = (ids.filter (· = id)).map
          (fun id => JobEvent.mk id (.ended .interrupted) now) := by
      rw [filter_map]
      rfl
    simp only [JobStore.kinds, JobStore.interrupt, filter_append, map_append, hnew,
      filter_eq, count_eq_one_of_mem hnodup hid]
    rfl
  simp only [JobStore.view, hrow, hlease, hkinds]

theorem interrupt_step (hnum : store.Numbered) (project : Text) :
    JobStep id now (.recover project) (store.view id)
      ((store.interrupt now ((store.jobs.filter (store.abandoned now project)).map Job.id)).view id) := by
  by_cases hid : id ∈ (store.jobs.filter (store.abandoned now project)).map Job.id
  · obtain ⟨job, hjob, habandoned⟩ := (mem_abandoned hnum).mp hid
    rw [interrupt_self now (abandoned_ids_nodup hnum _) hid hjob, JobStore.view, hjob]
    have hkey : job.id = id := row_some_key hjob
    simp only [JobStore.abandoned, hkey, Bool.and_eq_true, decide_eq_true_eq] at habandoned
    obtain ⟨⟨_, hrunning⟩, hexpired⟩ := habandoned
    refine .interrupted project job _ _ hrunning ?_
    intro lease hlease
    simpa [hlease] using hexpired
  · rw [interrupt_other hid]
    exact .kept _ _

variable {target : TargetRecord}

theorem published_step {ticket : JobTicket} {backend : Text}
    {result : CommandResult} {status : ResultStatus}
    (hjob : store.job ticket.id = some job) (hresult : job.result = none)
    (hopen : job.status.terminal = false) (hmay : store.mayPublish now ticket = true) :
    JobStep id now (.publish target ticket backend result) (store.view id)
      ((store.published now target ticket backend status result.json).view id) := by
  by_cases hid : id = ticket.id
  · have hrow : row Job.id ticket.id store.jobs = some job := hjob
    have hview : (store.published now target ticket backend status result.json).view id =
        ⟨some { job with
            status := .ended status
            finished := some now
            result := some (store.envelope target ticket backend status result.json) }, none,
          store.kinds id ++ [.ended status]⟩ := by
      simp only [JobStore.view, JobView.mk.injEq, hid]
      refine ⟨?_, ?_, ?_⟩
      · simp [JobStore.job, JobStore.published, row_rewrite_self, hrow]
      · simp [JobStore.lease, JobStore.published]
      · simp [JobStore.kinds, JobStore.published]
    rw [hview, JobStore.view, hid, hjob]
    refine .published target ticket backend result job _ _ status _ rfl rfl hresult hopen ?_
    intro lease hlease
    simpa [JobStore.mayPublish, hlease] using hmay
  · have hview : (store.published now target ticket backend status result.json).view id =
        store.view id := by
      simp [JobStore.view, JobStore.job, JobStore.lease, JobStore.kinds, JobStore.published,
        row_rewrite_other, row_erase_other, hid, Ne.symm hid]
    rw [hview]
    exact .kept _ _

variable {call : JobCall} {answer : JobAnswer}

/-- A committed call takes every job one step. -/
theorem exec_step (hnum : store.Numbered)
    (h : jobService.exec (now, call) store = .ok (answer, store')) (id : Nat) :
    JobStep id now call (store.view id) (store'.view id) := by
  cases call with
  | start target request =>
    simp only [jobService, map_ok, Prod.mk.injEq] at h
    obtain ⟨job, s', hstart, -, rfl⟩ := h
    rcases startJob_ok hstart with ⟨_, _, _, _, _, rfl⟩ | ⟨_, _, _, rfl⟩
    · exact .kept _ _
    · exact queued_step hnum target request
  | claim project claimed =>
    simp only [jobService, map_ok, Prod.mk.injEq] at h
    obtain ⟨ticket, s', hclaim, -, rfl⟩ := h
    obtain ⟨job, hjob, _, hopen, hfree, _, rfl⟩ := claimJob_ok hclaim
    exact claimed_step hjob hopen hfree
  | beat renewed token =>
    simp only [jobService, map_ok, Prod.mk.injEq] at h
    obtain ⟨_, s', hbeat, -, rfl⟩ := h
    obtain ⟨lease, hlease, rfl, rfl⟩ := heartbeat_ok hbeat
    exact renewed_step hlease
  | recover project =>
    simp only [jobService, map_ok, Prod.mk.injEq] at h
    obtain ⟨ids, s', hrecover, -, rfl⟩ := h
    obtain ⟨rfl, rfl⟩ := recoverJobs_ok hrecover
    exact interrupt_step hnum project
  | publish target ticket backend result =>
    simp only [jobService, map_ok, Prod.mk.injEq] at h
    obtain ⟨envelope, s', hpublish, -, rfl⟩ := h
    obtain ⟨job, hident, ⟨_, rfl⟩ | ⟨status, hresult, hopen, hmay, _, _, rfl⟩⟩ :=
      publishResult_ok hpublish
    · exact .kept _ _
    · exact published_step (identified_some hident).1 hresult hopen hmay
theorem JobStatus.terminal_false {status : JobStatus} (h : status.terminal = false) :
    status = .queued ∨ status = .running := by
  cases status with
  | queued => exact Or.inl rfl
  | running => exact Or.inr rfl
  | ended status => cases h

variable {view view' : JobView}

/-- A step keeps what is true of a single job. -/
theorem JobStep.sound (hstep : JobStep id now call view view') (h : view.Sound) : view'.Sound := by
  cases hstep with
  | kept => exact h
  | queued target request job hstatus hresult =>
    exact {
      leased := by simp [hstatus]
      pending := by simp [hresult]
      settled := by
        intro row result hrow hr
        cases hrow
        rw [hresult] at hr
        cases hr
      replayed := by simp [replayEvent, hstatus]
      unclaimed := by simp
      claimedOnce := by simp }
  | claimed project job lease events hopen =>
    have hqueued : job.status = .queued := by
      rcases JobStatus.terminal_false hopen with hqueued | hrunning
      · exact hqueued
      · have hleased := h.leased.mpr ⟨job, rfl, hrunning⟩
        cases hleased
    have hnone : events.count .started = 0 :=
      count_eq_zero.mpr (h.unclaimed job rfl hqueued)
    have hreplayed : events.foldl replayEvent none = some .queued := by
      simpa [hqueued] using h.replayed
    exact {
      leased := by simp
      pending := by simp [h.pending job rfl hopen]
      settled := by
        intro row result hrow hr
        cases hrow
        have hnone : job.result = none := h.pending job rfl hopen
        rw [hnone] at hr
        cases hr
      replayed := by simp [foldl_append, hreplayed, replayEvent]
      unclaimed := by simp
      claimedOnce := by simp [count_append, hnone] }
  | renewed row lease events =>
    exact {
      leased := by simpa using h.leased
      pending := h.pending
      settled := h.settled
      replayed := h.replayed
      unclaimed := h.unclaimed
      claimedOnce := h.claimedOnce }
  | interrupted project job lease events hrunning hexpired =>
    have hreplayed : events.foldl replayEvent none = some .running := by
      simpa [hrunning] using h.replayed
    exact {
      leased := by simp
      pending := by simp [JobStatus.terminal]
      settled := by
        intro row result hrow hr
        cases hrow
        have hnone : job.result = none :=
          h.pending job rfl (by simp [hrunning, JobStatus.terminal])
        rw [hnone] at hr
        cases hr
      replayed := by simp [foldl_append, hreplayed, replayEvent]
      unclaimed := by simp
      claimedOnce := by simpa [count_append] using h.claimedOnce }
  | published target ticket backend result job lease events status envelope hid hstatus hresult hopen howned =>
    have hreplayed : events.foldl replayEvent none = some job.status := by
      simpa using h.replayed
    exact {
      leased := by simp
      pending := by simp [JobStatus.terminal]
      settled := by
        intro row result hrow hr
        cases hrow
        cases hr
        rw [hstatus]
      replayed := by
        rcases JobStatus.terminal_false hopen with hstatus | hstatus <;>
          simp [foldl_append, hreplayed, hstatus, replayEvent]
      unclaimed := by simp
      claimedOnce := by simpa [count_append] using h.claimedOnce }

/-- A job that has ended stays as it ended. -/
theorem JobStep.ended_row
    (hstep : JobStep id now call view view') (h : view.Sound) (hrow : view.row = some job)
    (hended : job.status.terminal = true) : view'.row = some job := by
  cases hstep with
  | kept => exact hrow
  | queued => cases hrow
  | claimed project other lease events hopen =>
    cases hrow
    rw [hended] at hopen
    cases hopen
  | renewed => exact hrow
  | interrupted project other lease events hrunning hexpired =>
    cases hrow
    rw [hrunning] at hended
    cases hended
  | published target ticket backend result other lease events status envelope hid hstatus hresult hopen howned =>
    cases hrow
    rw [hended] at hopen
    cases hopen

/-- The part of a job row that no call changes. -/
def Job.identity (job : Job) : Nat × Text × JobRequest := (job.id, job.project, job.request)

def JobStore.identities (store : JobStore) : List (Nat × Text × JobRequest) :=
  store.jobs.map Job.identity

/-- Apart from a new job, no call changes who the jobs are and which keys are taken. -/
theorem exec_identities (h : jobService.exec (now, call) store = .ok (answer, store')) :
    (store'.projects = store.projects ∧ store'.identities = store.identities ∧
      store'.idempotency = store.idempotency) ∨
    ∃ target request, store.prior target.project request.idempotencyKey = none ∧
      target.project ∈ store.projects ∧ store' = store.queued now target request := by
  have hrewrite : ∀ (id : Nat) (f : Job → Job), (∀ job, (f job).identity = job.identity) →
      (rewrite Job.id id f store.jobs).map Job.identity = store.jobs.map Job.identity := by
    intro id f hf
    rw [rewrite, map_map]
    apply map_congr_left
    intro job _
    by_cases hkey : job.id = id <;> simp [hkey, hf]
  cases call with
  | start target request =>
    simp only [jobService, map_ok, Prod.mk.injEq] at h
    obtain ⟨job, s', hstart, -, rfl⟩ := h
    rcases startJob_ok hstart with ⟨_, _, _, _, _, rfl⟩ | ⟨hprior, hproject, _, rfl⟩
    · exact Or.inl ⟨rfl, rfl, rfl⟩
    · exact Or.inr ⟨target, request, hprior, hproject, rfl⟩
  | claim project claimed =>
    simp only [jobService, map_ok, Prod.mk.injEq] at h
    obtain ⟨ticket, s', hclaim, -, rfl⟩ := h
    obtain ⟨_, _, _, _, _, _, rfl⟩ := claimJob_ok hclaim
    exact Or.inl ⟨rfl, hrewrite _ _ (fun _ => rfl), rfl⟩
  | beat renewed token =>
    simp only [jobService, map_ok, Prod.mk.injEq] at h
    obtain ⟨_, s', hbeat, -, rfl⟩ := h
    obtain ⟨_, _, _, rfl⟩ := heartbeat_ok hbeat
    exact Or.inl ⟨rfl, rfl, rfl⟩
  | recover project =>
    simp only [jobService, map_ok, Prod.mk.injEq] at h
    obtain ⟨ids, s', hrecover, -, rfl⟩ := h
    obtain ⟨_, rfl⟩ := recoverJobs_ok hrecover
    refine Or.inl ⟨rfl, ?_, rfl⟩
    simp only [JobStore.identities, JobStore.interrupt, map_map]
    apply map_congr_left
    intro job _
    by_cases hkey : job.id ∈ ids <;> simp [hkey, Job.identity]
  | publish target ticket backend result =>
    simp only [jobService, map_ok, Prod.mk.injEq] at h
    obtain ⟨envelope, s', hpublish, -, rfl⟩ := h
    obtain ⟨_, _, ⟨_, rfl⟩ | ⟨status, _, _, _, _, _, rfl⟩⟩ := publishResult_ok hpublish
    · exact Or.inl ⟨rfl, rfl, rfl⟩
    · exact Or.inl ⟨rfl, hrewrite _ _ (fun _ => rfl), rfl⟩

/-- Every key that a job was started under is taken by that job. -/
structure JobStore.Keyed (store : JobStore) : Prop where
  registered : ∀ row ∈ store.identities, row.2.1 ∈ store.projects
  recorded : ∀ row ∈ store.identities, row.2.2.idempotencyKey ≠ [] →
    store.prior row.2.1 row.2.2.idempotencyKey =
      some ⟨row.2.1, row.2.2.idempotencyKey, row.2.2, row.1⟩
  owned : ∀ row ∈ store.idempotency,
    (row.job, row.project, row.request) ∈ store.identities ∧ row.request.idempotencyKey = row.key

variable {project key : Text} {old : Idempotency}

theorem prior_some (h : store.prior project key = some old) :
    key ≠ [] ∧ old ∈ store.idempotency ∧ old.project = project ∧ old.key = key := by
  unfold JobStore.prior at h
  split at h
  · cases h
  next hkey =>
    have hname := row_some_key h
    simp only [Idempotency.name, Prod.mk.injEq] at hname
    exact ⟨hkey, row_some_mem h, hname.1, hname.2⟩

theorem prior_queued (target : TargetRecord) (request : JobRequest) (hkey : key ≠ []) :
    (store.queued now target request).prior project key = (store.prior project key).or
        (if (target.project, request.idempotencyKey) = (project, key) then
          some ⟨target.project, request.idempotencyKey, request, store.made⟩ else none) := by
  by_cases hempty : request.idempotencyKey = []
  · simp [JobStore.prior, JobStore.queued, hkey, hempty, Ne.symm hkey]
  · simp [JobStore.prior, JobStore.queued, hkey, hempty, row_insert, Idempotency.name]

variable {request : JobRequest}

theorem JobStore.Keyed.queued (h : store.Keyed)
    (hprior : store.prior target.project request.idempotencyKey = none)
    (hproject : target.project ∈ store.projects) : (store.queued now target request).Keyed := by
  have hids : (store.queued now target request).identities =
      store.identities ++ [(store.made, target.project, request)] := by
    simp [JobStore.identities, JobStore.queued, JobStore.newJob, Job.identity]
  constructor
  · intro row hrow
    rw [hids] at hrow
    rcases mem_append.mp hrow with hold | hnew
    · exact h.registered row hold
    · rw [mem_singleton.mp hnew]
      exact hproject
  · intro row hrow hkey
    rw [hids] at hrow
    rw [prior_queued target request hkey]
    rcases mem_append.mp hrow with hold | hnew
    · rw [h.recorded row hold hkey]
      rfl
    · rw [mem_singleton.mp hnew]
      simp [hprior]
  · intro row hrow
    rw [hids]
    by_cases hempty : request.idempotencyKey = []
    · have hold : row ∈ store.idempotency := by
        simpa [JobStore.queued, hempty] using hrow
      exact ⟨mem_append_left _ (h.owned row hold).1, (h.owned row hold).2⟩
    have hmem : row ∈ store.idempotency ++
        [⟨target.project, request.idempotencyKey, request, store.made⟩] := by
      simpa [JobStore.queued, hempty] using hrow
    rcases mem_append.mp hmem with hold | hnew
    · exact ⟨mem_append_left _ (h.owned row hold).1, (h.owned row hold).2⟩
    · rw [mem_singleton.mp hnew]
      exact ⟨mem_append_right _ (mem_singleton.mpr rfl), rfl⟩

/-- The invariant of the job tables. -/
structure JobStore.Sound (store : JobStore) : Prop where
  numbered : store.Numbered
  keyed : store.Keyed
  views : ∀ id, (store.view id).Sound

theorem JobStore.Sound.fresh (projects : List Text) (targets : List TargetRecord) :
    (JobStore.fresh projects targets).Sound where
  numbered := by constructor <;> simp [JobStore.fresh]
  keyed := by constructor <;> simp [JobStore.fresh, JobStore.identities]
  views := by
    intro id
    constructor <;> simp [JobStore.fresh, JobStore.view, JobStore.job, JobStore.lease, JobStore.kinds]

theorem exec_numbered (h : store.Numbered)
    (hexec : jobService.exec (now, call) store = .ok (answer, store')) : store'.Numbered := by
  cases call with
  | start target request =>
    simp only [jobService, map_ok, Prod.mk.injEq] at hexec
    obtain ⟨job, s', hstart, -, rfl⟩ := hexec
    rcases startJob_ok hstart with ⟨_, _, _, _, _, rfl⟩ | ⟨_, _, _, rfl⟩
    · exact h
    · exact h.queued target request
  | claim project claimed =>
    simp only [jobService, map_ok, Prod.mk.injEq] at hexec
    obtain ⟨ticket, s', hclaim, -, rfl⟩ := hexec
    obtain ⟨job, hjob, _, _, _, _, rfl⟩ := claimJob_ok hclaim
    have hmem : claimed ∈ store.jobs.map Job.id := key_mem_of_row hjob
    apply h.of_keys
    · simp [JobStore.claimed]
    · exact keys_rewrite (fun _ => rfl)
    · intro i hi
      simp only [JobStore.claimed, map_append, mem_append, map_cons, map_nil,
        mem_singleton] at hi
      rcases hi with hi | rfl
      · exact Or.inl hi
      · exact Or.inr hmem
    · intro i hi
      simp only [JobStore.claimed, map_append, mem_append, map_cons, map_nil,
        mem_singleton] at hi
      rcases hi with hi | rfl
      · exact Or.inl hi
      · exact Or.inr hmem
  | beat renewed token =>
    simp only [jobService, map_ok, Prod.mk.injEq] at hexec
    obtain ⟨_, s', hbeat, -, rfl⟩ := hexec
    obtain ⟨_, _, _, rfl⟩ := heartbeat_ok hbeat
    refine h.of_keys (store.renewed now renewed) (Nat.le_refl _) rfl ?_ ?_
    · intro i hi
      have hkeys : (store.renewed now renewed).leases.map JobLease.job =
          store.leases.map JobLease.job := keys_rewrite (fun _ => rfl)
      exact Or.inl (hkeys ▸ hi)
    · intro i hi
      exact Or.inl hi
  | recover project =>
    simp only [jobService, map_ok, Prod.mk.injEq] at hexec
    obtain ⟨ids, s', hrecover, -, rfl⟩ := hexec
    obtain ⟨hids, rfl⟩ := recoverJobs_ok hrecover
    refine h.of_keys (store.interrupt now ids) (Nat.le_refl _) ?_ ?_ ?_
    · apply keys_map
      intro job
      split <;> rfl
    · intro i hi
      obtain ⟨lease, hlease, rfl⟩ := mem_map.mp hi
      exact Or.inl (mem_map_of_mem (mem_filter.mp hlease).1)
    intro i hi
    simp only [JobStore.interrupt, map_append, mem_append, map_map] at hi
    rcases hi with hi | hi
    · exact Or.inl hi
    refine Or.inr ?_
    obtain ⟨other, hother, rfl⟩ := mem_map.mp hi
    rw [hids] at hother
    obtain ⟨job, hjob, hid⟩ := mem_map.mp hother
    exact mem_map.mpr ⟨job, (mem_filter.mp hjob).1, hid⟩
  | publish target ticket backend result =>
    simp only [jobService, map_ok, Prod.mk.injEq] at hexec
    obtain ⟨envelope, s', hpublish, -, rfl⟩ := hexec
    obtain ⟨job, hident, ⟨_, rfl⟩ | ⟨status, _, _, _, _, _, rfl⟩⟩ := publishResult_ok hpublish
    · exact h
    have hmem : ticket.id ∈ store.jobs.map Job.id := key_mem_of_row (identified_some hident).1
    apply h.of_keys
    · simp [JobStore.published]
    · exact keys_rewrite (fun _ => rfl)
    · intro i hi
      obtain ⟨lease, hlease, rfl⟩ := mem_map.mp hi
      exact Or.inl (mem_map_of_mem (mem_filter.mp hlease).1)
    intro i hi
    simp only [JobStore.published, map_append, mem_append, map_cons,
      map_nil, mem_singleton] at hi
    rcases hi with hi | rfl
    · exact Or.inl hi
    · exact Or.inr hmem

/-- A committed call keeps the invariant. -/
theorem JobStore.Sound.exec (h : store.Sound)
    (hexec : jobService.exec (now, call) store = .ok (answer, store')) : store'.Sound where
  numbered := exec_numbered h.numbered hexec
  keyed := by
    rcases exec_identities hexec with ⟨hprojects, hids, hkeys⟩ | ⟨target, request, hprior, hproject, rfl⟩
    · have hprior : ∀ project key, store'.prior project key = store.prior project key := by
        intro project key
        simp [JobStore.prior, hkeys]
      constructor
      · rw [hids, hprojects]
        exact h.keyed.registered
      · intro row hrow hkey
        rw [hprior]
        exact h.keyed.recorded row (hids ▸ hrow) hkey
      · rw [hids, hkeys]
        exact h.keyed.owned
    · exact h.keyed.queued hprior hproject
  views := fun id => (exec_step h.numbered hexec id).sound (h.views id)

theorem JobStore.Sound.run (h : store.Sound) (calls : List TimedCall) :
    (jobService.run store calls).Sound :=
  Service.run_keeps (fun _ _ _ _ hs hexec => hs.exec hexec) calls h

theorem prior_run (h : store.prior project key = some old) (calls : List TimedCall) :
    (jobService.run store calls).prior project key = some old := by
  have hkeeps : ∀ s (call : TimedCall) a s', s.prior project key = some old →
      jobService.exec call s = .ok (a, s') → s'.prior project key = some old := by
    intro s call a s' hold hexec
    rcases exec_identities hexec with ⟨_, _, hkeys⟩ | ⟨target, request, _, _, rfl⟩
    · rw [← hold]
      simp [JobStore.prior, hkeys]
    · rw [prior_queued target request (prior_some hold).1, hold]
      rfl
  exact Service.run_keeps hkeeps calls h

/-- No run of calls changes a job that has ended. -/
theorem ended_run (hsound : store.Sound) (hjob : store.job id = some job)
    (hended : job.status.terminal = true) (calls : List TimedCall) :
    (jobService.run store calls).job id = some job := by
  have hkeeps : ∀ s (call : TimedCall) a s', s.Sound ∧ s.job id = some job →
      jobService.exec call s = .ok (a, s') → s'.Sound ∧ s'.job id = some job := by
    intro s call a s' hs hexec
    refine ⟨hs.1.exec hexec, ?_⟩
    exact (exec_step hs.1.numbered hexec id).ended_row (hs.1.views id) hs.2 hended
  exact (Service.run_keeps hkeeps calls ⟨hsound, hjob⟩).2

/-- A taken key belongs to the only job that was started under it. -/
theorem JobStore.Sound.keyed_row (h : store.Sound) (hprior : store.prior project key = some old) :
    ∃ job, store.job old.job = some job ∧ job.id = old.job ∧ job.project = project ∧
      job.request = old.request ∧ job.request.idempotencyKey = key ∧ project ∈ store.projects ∧
      ∀ other ∈ store.jobs, other.project = project → other.request.idempotencyKey = key →
        other = job := by
  obtain ⟨hkey, hold, hproject, hname⟩ := prior_some hprior
  obtain ⟨hid, hrequest⟩ := h.keyed.owned old hold
  have hregistered := h.keyed.registered _ hid
  obtain ⟨job, hjob, hidentity⟩ := mem_map.mp hid
  simp only [Job.identity, Prod.mk.injEq] at hidentity
  obtain ⟨hjobId, hjobProject, hjobRequest⟩ := hidentity
  have hrow := row_of_mem h.numbered.distinct hjob
  refine ⟨job, hjobId ▸ hrow, hjobId, hjobProject.trans hproject, hjobRequest, ?_, ?_, ?_⟩
  · rw [hjobRequest, hrequest, hname]
  · rw [← hproject]
    exact hregistered
  intro other hother hotherProject hotherKey
  have hrecorded := h.keyed.recorded other.identity (mem_map_of_mem hother)
    (by simpa [Job.identity, hotherKey] using hkey)
  simp only [Job.identity, hotherProject, hotherKey, hprior, Option.some.injEq] at hrecorded
  have hsame : other.id = job.id := by rw [hjobId, hrecorded]
  exact inj_on_of_nodup_map h.numbered.distinct hother hjob hsame

/-- Starting a job again under a taken key returns that job or is refused. -/
theorem startJob_prior (h : store.Sound) (now : Nat)
    (hprior : store.prior target.project request.idempotencyKey = some old) :
    (old.request = request → ∃ job, job.id = old.job ∧ store.job old.job = some job ∧
      startJob now target request store = .ok (job, store)) ∧
    (old.request ≠ request → ∃ e, startJob now target request store = .error e) := by
  obtain ⟨job, hjob, hid, hproject, _, _, hregistered, _⟩ := h.keyed_row hprior
  constructor
  · intro hsame
    refine ⟨job, hid, hjob, ?_⟩
    simp [startJob, hprior, hsame, jobInfo, requireProject, hregistered, hjob, hproject]
  intro hdiffers
  cases hstart : startJob now target request store with
  | error e => exact ⟨e, rfl⟩
  | ok answer =>
    rcases startJob_ok hstart with ⟨found, hfound, hsame, _⟩ | ⟨hnone, _⟩
    · rw [hprior] at hfound
      cases hfound
      exact absurd hsame hdiffers
    · rw [hprior] at hnone
      cases hnone

end Indago
