import IndagoRev.Workbench.Jobs

/-!
# What a committed job call did

Each transaction on the job tables is inverted once: from its answer follow the
rows it found, every check it passed, and the store it wrote. The later
arguments never open a transaction again.
-/

namespace Indago
open StdText Tables Transactions

variable {store store' : JobStore} {now : Nat}

variable {project : Text} {a : Unit}

theorem requireProject_ok
    (h : requireProject project store = .ok (a, store')) : store' = store := by
  simp only [requireProject, bind_ok, get_ok] at h
  obtain ⟨_, _, hget, h⟩ := h
  cases hget
  split at h
  · simpa using h
  · exact absurd h throw_ok

variable {job : Job} {id : Nat}

theorem jobInfo_ok (h : jobInfo project id store = .ok (job, store')) :
    store.job id = some job ∧ job.project = project ∧ store' = store := by
  simp only [jobInfo, bind_ok, get_ok] at h
  obtain ⟨_, _, hreq, _, _, hget, h⟩ := h
  cases hget
  have hsame := requireProject_ok hreq
  rw [hsame] at h
  cases hjob : store.job id with
  | none => simp [hjob] at h
  | some found =>
    by_cases hp : found.project = project
    · simp [hjob, hp] at h
      exact ⟨by rw [h.1], by rw [h.1]; exact hp, h.2⟩
    · simp [hjob, hp] at h

theorem makeId_ok {r : Nat × JobStore} :
    makeId store = .ok r ↔ r = (store.made, { store with made := store.made + 1 }) := by
  simp [makeId]

theorem addJob_ok (h : addJob job store = .ok (a, store')) :
    job.project ∈ store.projects ∧ store' = { store with jobs := store.jobs ++ [job] } := by
  simp only [addJob, bind_ok, get_ok] at h
  obtain ⟨_, _, hget, h⟩ := h
  cases hget
  split at h
  · next hkeys =>
      simp only [set_ok, Prod.mk.injEq] at h
      exact ⟨hkeys.1, h.2⟩
  · exact absurd h throw_ok

/-- The row that `startJob` inserts for a request without a prior job. -/
def JobStore.newJob (store : JobStore) (now : Nat) (target : TargetRecord)
    (request : JobRequest) : Job :=
  ⟨store.made, target.project, target.id, store.made + 1, .queued, request, now, none, none⟩

/-- The store once a new job is queued. -/
def JobStore.queued (store : JobStore) (now : Nat) (target : TargetRecord)
    (request : JobRequest) : JobStore :=
  { store with
    jobs := store.jobs ++ [store.newJob now target request]
    idempotency :=
      if request.idempotencyKey = [] then store.idempotency
      else store.idempotency ++
        [⟨target.project, request.idempotencyKey, request, store.made⟩]
    events := store.events ++ [⟨store.made, .queued, now⟩]
    made := store.made + 2 }

variable {target : TargetRecord}

/-- A started job is the one of its key, or a new one. -/
theorem startJob_ok {request : JobRequest}
    (h : startJob now target request store = .ok (job, store')) :
    (∃ old, store.prior target.project request.idempotencyKey = some old ∧
      old.request = request ∧ store.job old.job = some job ∧
      job.project = target.project ∧ store' = store) ∨
    (store.prior target.project request.idempotencyKey = none ∧
      target.project ∈ store.projects ∧ job = store.newJob now target request ∧ store' = store.queued now target request) := by
  simp only [startJob, bind_ok, get_ok] at h
  obtain ⟨_, _, hget, h⟩ := h
  cases hget
  cases hprior : store.prior target.project request.idempotencyKey with
  | some old =>
    by_cases hsame : old.request = request
    · simp only [hprior, hsame, if_true] at h
      obtain ⟨hjob, hproject, hstore⟩ := jobInfo_ok h
      exact Or.inl ⟨old, rfl, hsame, hjob, hproject, hstore⟩
    · simp [hprior, hsame] at h
  | none =>
    simp only [hprior, bind_ok, makeId_ok] at h
    obtain ⟨_, _, hid, _, _, hrevision, _, _, hadd, _, _, hkey, _, _, hevent, hjob⟩ := h
    cases hid
    cases hrevision
    obtain ⟨hproject, hs⟩ := addJob_ok hadd
    simp only [addIdempotency, modify_ok, Prod.mk.injEq] at hkey
    simp only [addEvent, modify_ok, Prod.mk.injEq] at hevent
    simp only [pure_ok, Prod.mk.injEq] at hjob
    refine Or.inr ⟨rfl, hproject, hjob.1, ?_⟩
    rw [hjob.2, hevent.2, hkey.2, hs]
    by_cases hempty : request.idempotencyKey = []
    · simp [JobStore.queued, JobStore.newJob, hempty]
    · simp [JobStore.queued, JobStore.newJob, hempty]

theorem insertLease_ok {token : Nat} (h : insertLease id token now store = .ok (a, store')) :
    store.lease id = none ∧
      store' = { store with leases := store.leases ++ [⟨id, token, now + 30000, now⟩] } := by
  simp only [insertLease, bind_ok, get_ok] at h
  obtain ⟨_, _, hget, h⟩ := h
  cases hget
  cases hlease : store.lease id with
  | some lease => simp [hlease] at h
  | none =>
    simp only [hlease, addLease, modify_ok, Prod.mk.injEq] at h
    exact ⟨rfl, h.2⟩

/-- The store once a job is claimed. -/
def JobStore.claimed (store : JobStore) (now : Nat) (id : Nat) : JobStore :=
  { store with
    jobs := rewrite Job.id id (fun job => { job with status := .running }) store.jobs
    leases := store.leases ++ [⟨id, store.made, now + 30000, now⟩]
    events := store.events ++ [⟨id, .started, now⟩]
    made := store.made + 1 }

variable {ticket : JobTicket}

/-- A claimed job was open and without a lease. -/
theorem claimJob_ok (h : claimJob now project id store = .ok (ticket, store')) :
    ∃ job, store.job id = some job ∧ job.project = project ∧ job.status.terminal = false ∧
      store.lease id = none ∧ ticket = ⟨id, job.revision, job.request, some store.made⟩ ∧
      store' = store.claimed now id := by
  simp only [claimJob, bind_ok, get_ok] at h
  obtain ⟨_, _, hget, h⟩ := h
  cases hget
  cases hjob : store.job id with
  | none => simp [hjob] at h
  | some job =>
    simp only [hjob] at h
    by_cases hproject : job.project = project
    · by_cases hterminal : job.status.terminal = true
      · simp [hproject, hterminal] at h
      simp [hproject, hterminal, updateJob, addEvent] at h
      obtain ⟨_, s₁, hid, _, s₂, hlease, hticket, hstore⟩ := h
      rw [makeId_ok] at hid
      cases hid
      obtain ⟨hfree, hs₂⟩ := insertLease_ok hlease
      refine ⟨job, rfl, hproject, by simpa using hterminal, hfree, hticket, ?_⟩
      rw [hstore, hs₂]
      rfl
    · simp [hproject] at h

/-- The store once a lease is renewed. -/
def JobStore.renewed (store : JobStore) (now : Nat) (id : Nat) : JobStore :=
  { store with
    leases := rewrite JobLease.job id
      (fun lease => { lease with deadline := now + 30000, heartbeat := now }) store.leases }

/-- A heartbeat renews the lease of its token. -/
theorem heartbeat_ok {token : Nat} (h : heartbeat now id token store = .ok (a, store')) :
    ∃ lease, store.lease id = some lease ∧ lease.token = token ∧ store' = store.renewed now id := by
  simp only [heartbeat, bind_ok, get_ok] at h
  obtain ⟨_, _, hget, h⟩ := h
  cases hget
  cases hlease : store.lease id with
  | none => simp [hlease] at h
  | some lease =>
    by_cases htoken : lease.token = token
    · simp [hlease, htoken] at h
      exact ⟨lease, rfl, htoken, h⟩
    · simp [hlease, htoken] at h

/-- A recovery interrupts the jobs that were abandoned. -/
theorem recoverJobs_ok {ids : List Nat} (h : recoverJobs now project store = .ok (ids, store')) :
    ids = (store.jobs.filter (store.abandoned now project)).map Job.id ∧
      store' = store.interrupt now ids := by
  simp only [recoverJobs, bind_ok, get_ok, set_ok, pure_ok] at h
  obtain ⟨_, _, hreq, _, _, hget, _, _, hset, hids⟩ := h
  have hsame := requireProject_ok hreq
  cases hget
  cases hset
  cases hids
  rw [hsame]
  exact ⟨rfl, rfl⟩

theorem identified_some {backend : Text} (h : store.identified target ticket backend = some job) :
    store.job ticket.id = some job ∧ job.project = target.project ∧ job.target = target.id ∧
      job.revision = ticket.revision ∧ job.request = ticket.request := by
  unfold JobStore.identified at h
  split at h
  · cases h
  · next hjob =>
      split at h
      · next hsame =>
          cases h
          exact ⟨hjob, hsame.1, hsame.2.1, hsame.2.2.1, hsame.2.2.2.1⟩
      · cases h

/-- The envelope that a publication stores. -/
def JobStore.envelope (store : JobStore) (target : TargetRecord) (ticket : JobTicket)
    (backend : Text) (status : ResultStatus) (data : Text) : ResultEnvelope :=
  ⟨ticket.id, ticket.revision, status, completeness status, backend, target.sha256,
    store.made, data⟩

/-- The store once a result is published. -/
def JobStore.published (store : JobStore) (now : Nat) (target : TargetRecord)
    (ticket : JobTicket) (backend : Text) (status : ResultStatus) (data : Text) : JobStore :=
  { store with
    jobs := rewrite Job.id ticket.id (fun job => { job with
      status := .ended status
      finished := some now
      result := some (store.envelope target ticket backend status data) }) store.jobs
    leases := erase JobLease.job ticket.id store.leases
    events := store.events ++ [⟨ticket.id, .ended status, now⟩]
    evidence := store.evidence ++ [⟨store.made, target.project, ticket.id, ticket.revision,
      backend, status, data, now⟩]
    made := store.made + 1 }

/-- A publication repeats the stored result, or stores the first one. -/
theorem publishResult_ok {backend : Text} {result : CommandResult} {envelope : ResultEnvelope}
    (h : publishResult now target ticket backend result store = .ok (envelope, store')) :
    ∃ job, store.identified target ticket backend = some job ∧
      ((job.result = some envelope ∧ store' = store) ∨
        (∃ status, job.result = none ∧ job.status.terminal = false ∧
          store.mayPublish now ticket = true ∧ ResultStatus.read result.status = some status ∧
          envelope = store.envelope target ticket backend status result.json ∧
          store' = store.published now target ticket backend status result.json)) := by
  simp only [publishResult, bind_ok, get_ok] at h
  obtain ⟨_, _, hget, h⟩ := h
  cases hget
  cases hjob : store.identified target ticket backend with
  | none => simp [hjob] at h
  | some job =>
    refine ⟨job, rfl, ?_⟩
    cases hresult : job.result with
    | some stored =>
      simp [hjob, hresult] at h
      exact Or.inl ⟨by rw [h.1], h.2⟩
    | none =>
      by_cases hterminal : job.status.terminal = true
      · simp [hjob, hresult, hterminal] at h
      by_cases hmay : store.mayPublish now ticket = true
      · cases hstatus : ResultStatus.read result.status with
        | none => simp [hjob, hresult, hterminal, hmay, hstatus] at h
        | some status =>
          cases haccepted : result.accepted with
          | false => simp [hjob, hresult, hterminal, hmay, hstatus, haccepted] at h
          | true =>
            simp [hjob, hresult, hterminal, hmay, hstatus, haccepted, makeId,
              addEvidence, updateJob, addEvent, deleteLease] at h
            exact Or.inr ⟨status, rfl, by simpa using hterminal, hmay, rfl, h.1, h.2⟩
      · simp [hjob, hresult, hterminal, hmay] at h
end Indago
