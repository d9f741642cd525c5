import IndagoRev.Workbench.Batch
import IndagoRev.Workbench.JobInvariant
import IndagoRev.Numerals

/-!
# Reservations of batches

The invariant of a batch record. What is reserved is the sum over the steps, a
step counting once for each attempt and once more while a reservation is open.
The keys that a batch ever reserved are those of these attempts, and a made
attempt has taken its key in the job table.
-/

namespace Indago

open StdText Tables List

/-- The attempts that were reserved at a step: those made, and one more while a
reservation is open. -/
def BatchStep.uses (step : BatchStep) : Nat :=
  step.attempt + (if step.reserved then 1 else 0)

variable (record : BatchRecord)

/-- A quantity summed over all reserved attempts. -/
def BatchRecord.total (weight : BatchStep → Nat) : Nat :=
  (record.steps.map (fun step => step.uses * weight step)).sum

variable (digest : Text → Text)

/-- The key of the last reserved attempt. -/
def BatchStep.lastKey (id : Text) (step : BatchStep) : Option Text :=
  if step.uses = 0 then none else some (attemptKey digest id step.name step.uses)

/-- What the reservation fields of a step say about each other. -/
structure BatchStep.Sound (id : Text) (step : BatchStep) : Prop where
  atMostTwice : step.uses ≤ 2
  key : step.reservedKey = step.lastKey digest id
  pending : step.reserved = true → step.jobId = none
  free : step.reserved = false → step.jobId = none → step.attempt ≤ 1
  held : step.jobId.isSome = true → 1 ≤ step.attempt

structure BatchRecord.Sound (record : BatchRecord) : Prop where
  jobs : record.jobsStarted = record.total (fun _ => 1)
  wall : record.reservedWallMs = record.total (fun step => step.request.wallMs)
  output : record.reservedOutputBytes = record.total (fun step => step.request.outputBytes)
  jobsWithin : record.jobsStarted ≤ record.budget.maxJobs
  wallWithin : record.reservedWallMs ≤ record.budget.wallMs
  outputWithin : record.reservedOutputBytes ≤ record.budget.outputBytes
  names : (record.steps.map BatchStep.name).Nodup
  home : ∀ step ∈ record.steps, step.request.project = record.project
  steps : ∀ step ∈ record.steps, step.Sound digest record.id

/-- The attempts made at a step have their jobs, and the recorded job is that of
the last attempt. -/
structure BatchStep.Submitted (jobs : JobStore) (project id : Text) (step : BatchStep) : Prop where
  made : ∀ a, 1 ≤ a → a ≤ step.attempt →
    ∃ old, jobs.prior project (attemptKey digest id step.name a) = some old
  recorded : ∀ job, step.jobId = some job →
    ∃ old, jobs.prior project (attemptKey digest id step.name step.attempt) = some old ∧
      old.job = job

theorem sum_map_set {α : Type} (f : α → Nat) (l : List α) (i : Nat) (x : α) {y : α}
    (h : l[i]? = some y) : ((l.set i x).map f).sum + f y = (l.map f).sum + f x := by
  induction l generalizing i with
  | nil => simp at h
  | cons a l ih =>
    cases i with
    | zero =>
      simp only [getElem?_cons_zero, Option.some.injEq] at h
      subst h
      simp
      omega
    | succ i =>
      simp only [getElem?_cons_succ] at h
      have hrest := ih i h
      simp only [set_cons_succ, map_cons, sum_cons]
      omega

/-- A new value for step `i` of a record. -/
def BatchRecord.withStep (i : Nat) (step : BatchStep) : BatchRecord :=
  { record with steps := record.steps.set i step }

variable {digest} {record : BatchRecord} {i : Nat} {old step : BatchStep}

theorem names_set (hold : record.steps[i]? = some old) (hname : step.name = old.name) :
    (record.steps.set i step).map BatchStep.name = record.steps.map BatchStep.name := by
  have hsame : (record.steps.map BatchStep.name)[i]? = some step.name := by simp [hold, hname]
  obtain ⟨hlt, hget⟩ := List.getElem?_eq_some_iff.mp hsame
  rw [map_set, ← hget]
  exact set_getElem_self hlt

theorem mem_withStep {step other : BatchStep}
    (h : other ∈ (record.withStep i step).steps) : other = step ∨ other ∈ record.steps := by
  rcases mem_or_eq_of_mem_set h with hmem | heq
  · exact Or.inr hmem
  · exact Or.inl heq

theorem BatchRecord.Sound.withStatus (h : record.Sound digest)
    (status : BatchStatus) : ({ record with status := status } : BatchRecord).Sound digest where
  __ := h

/-- A step that changes neither its name, its request nor its reservations may
replace the old one. -/
theorem BatchRecord.Sound.withStep (h : record.Sound digest)
    (hold : record.steps[i]? = some old) (hname : step.name = old.name)
    (hrequest : step.request = old.request) (huses : step.uses = old.uses)
    (hstep : step.Sound digest record.id) : (record.withStep i step).Sound digest := by
  have htotal : ∀ weight : BatchStep → Nat, weight step = weight old →
      (record.withStep i step).total weight = record.total weight := by
    intro weight hweight
    have hsum := sum_map_set (fun s => s.uses * weight s) record.steps i step hold
    simp only [huses, hweight] at hsum
    simp only [BatchRecord.total, BatchRecord.withStep]
    omega
  exact {
    jobs := by rw [htotal _ rfl]; exact h.jobs
    wall := by rw [htotal _ (by rw [hrequest])]; exact h.wall
    output := by rw [htotal _ (by rw [hrequest])]; exact h.output
    jobsWithin := h.jobsWithin
    wallWithin := h.wallWithin
    outputWithin := h.outputWithin
    names := by
      have hnames := names_set hold hname
      exact hnames ▸ h.names
    home := by
      intro other hother
      rcases mem_withStep hother with heq | hmem
      · rw [heq, hrequest]
        exact h.home old (mem_of_getElem? hold)
      · exact h.home other hmem
    steps := by
      intro other hother
      rcases mem_withStep hother with heq | hmem
      · rw [heq]
        exact hstep
      · exact h.steps other hmem }
/-- The fields that a reservation is made of. -/
def BatchStep.SameReservation (step old : BatchStep) : Prop :=
  step.name = old.name ∧ step.request = old.request ∧ step.attempt = old.attempt ∧
    step.jobId = old.jobId ∧ step.reserved = old.reserved ∧ step.reservedKey = old.reservedKey

namespace BatchStep.SameReservation

variable {step old : BatchStep}

theorem uses (h : step.SameReservation old) : step.uses = old.uses := by
  simp [BatchStep.uses, h.2.2.1, h.2.2.2.2.1]

theorem sound (h : step.SameReservation old) {id : Text} (hold : old.Sound digest id) :
    step.Sound digest id := by
  have huses := h.uses
  obtain ⟨hname, _, hattempt, hjob, hreserved, hkey⟩ := h
  exact {
    atMostTwice := by rw [huses]; exact hold.atMostTwice
    key := by
      rw [hkey, hold.key]
      simp [BatchStep.lastKey, huses, hname]
    pending := by rw [hreserved, hjob]; exact hold.pending
    free := by rw [hreserved, hjob, hattempt]; exact hold.free
    held := by rw [hjob, hattempt]; exact hold.held }

theorem submitted (h : step.SameReservation old) {jobs : JobStore} {project id : Text}
    (hold : old.Submitted digest jobs project id) : step.Submitted digest jobs project id := by
  obtain ⟨hname, _, hattempt, hjob, _, _⟩ := h
  exact {
    made := by rw [hattempt, hname]; exact hold.made
    recorded := by rw [hjob, hattempt, hname]; exact hold.recorded }

end BatchStep.SameReservation

variable {step : BatchStep}

/-- Taking the job of a failed first attempt away leaves its reservation. -/
theorem BatchStep.Sound.eraseJob {id : Text} (h : step.Sound digest id)
    (hattempt : step.attempt < 2) : ({ step with jobId := none } : BatchStep).Sound digest id where
  atMostTwice := h.atMostTwice
  key := h.key
  pending := fun _ => rfl
  free := by
    intro _ _
    show step.attempt ≤ 1
    omega
  held := by simp

theorem BatchStep.Sound.reserve {id : Text} (h : step.Sound digest id)
    (hfree : step.reserved = false) (hjob : step.jobId = none) :
    (step.reserve digest id).Sound digest id := by
  have hattempt := h.free hfree hjob
  exact {
    atMostTwice := by
      simp only [BatchStep.uses, BatchStep.reserve, if_true]
      omega
    key := by simp [BatchStep.lastKey, BatchStep.uses, BatchStep.reserve]
    pending := fun _ => hjob
    free := by
      intro hreserved
      cases hreserved
    held := by simp [BatchStep.reserve, hjob] }

theorem BatchStep.uses_submit (h : step.reserved = true) (job : Nat) :
    (step.submit job).uses = step.uses := by
  simp [BatchStep.uses, BatchStep.submit, h]

theorem BatchStep.Sound.submit {id : Text} (h : step.Sound digest id)
    (hreserved : step.reserved = true) (job : Nat) : (step.submit job).Sound digest id where
  atMostTwice := by
    rw [BatchStep.uses_submit hreserved]
    exact h.atMostTwice
  key := by
    have hkey : (step.submit job).reservedKey = step.reservedKey := rfl
    rw [hkey, h.key, BatchStep.lastKey, BatchStep.lastKey, BatchStep.uses_submit hreserved]
    rfl
  pending := by
    intro hopen
    cases hopen
  free := by
    intro _ hjob
    cases hjob
  held := by
    intro _
    show 1 ≤ step.attempt + 1
    omega

/-- Reserving an attempt within the budget keeps a record sound. -/
theorem BatchRecord.Sound.reserve (h : record.Sound digest)
    (hstep : record.steps[i]? = some step) (hfree : step.reserved = false)
    (hjob : step.jobId = none) (hroom : record.exhausted step.request = false) :
    ((record.reserve step.request).withStep i (step.reserve digest record.id)).Sound digest := by
  have hsound := h.steps step (mem_of_getElem? hstep)
  have huses : (step.reserve digest record.id).uses = step.uses + 1 := by
    simp [BatchStep.uses, BatchStep.reserve, hfree]
  have htotal : ∀ weight : BatchStep → Nat, weight (step.reserve digest record.id) = weight step →
      ((record.reserve step.request).withStep i (step.reserve digest record.id)).total weight =
        record.total weight + weight step := by
    intro weight hweight
    have hsum := sum_map_set (fun s => s.uses * weight s) record.steps i
      (step.reserve digest record.id) hstep
    simp only [huses, hweight, Nat.succ_mul] at hsum
    simp only [BatchRecord.total, BatchRecord.withStep, BatchRecord.reserve]
    omega
  simp only [BatchRecord.exhausted, Bool.or_eq_false_iff, decide_eq_false_iff_not] at hroom
  have hjobs := h.jobs
  have hwall := h.wall
  have houtput := h.output
  exact {
    jobs := by
      rw [htotal _ rfl, ← hjobs]
      rfl
    wall := by
      rw [htotal _ rfl, ← hwall]
      rfl
    output := by
      rw [htotal _ rfl, ← houtput]
      rfl
    jobsWithin := by
      show record.jobsStarted + 1 ≤ record.budget.maxJobs
      omega
    wallWithin := by
      show record.reservedWallMs + step.request.wallMs ≤ record.budget.wallMs
      omega
    outputWithin := by
      show record.reservedOutputBytes + step.request.outputBytes ≤ record.budget.outputBytes
      omega
    names := by
      have hnames := names_set hstep
        (rfl : (step.reserve digest record.id).name = step.name)
      exact hnames ▸ h.names
    home := by
      intro other hother
      rcases mem_withStep hother with heq | hmem
      · rw [heq]
        exact h.home step (mem_of_getElem? hstep)
      · exact h.home other hmem
    steps := by
      intro other hother
      rcases mem_withStep hother with heq | hmem
      · rw [heq]
        exact hsound.reserve hfree hjob
      · exact h.steps other hmem }

/-- The reservation keys of a record. -/
def BatchRecord.Reserved (digest : Text → Text) (record : BatchRecord) (key : Text) : Prop :=
  ∃ step ∈ record.steps, ∃ a, 1 ≤ a ∧ a ≤ step.uses ∧
    key = attemptKey digest record.id step.name a

structure BatchRow.Sound (digest : Text → Text) (jobs : JobStore) (row : BatchRow) : Prop where
  id : row.record.id = row.id
  project : row.record.project = row.project
  record : row.record.Sound digest
  submitted : ∀ step ∈ row.record.steps, step.Submitted digest jobs row.project row.id
  history : ∀ key, key ∈ row.everReserved ↔ row.record.Reserved digest key
  distinct : row.everReserved.Nodup

/-- Every key that is taken stays taken by the same job. -/
def JobStore.Extends (jobs jobs' : JobStore) : Prop :=
  ∀ project key old, jobs.prior project key = some old → jobs'.prior project key = some old

variable {jobs jobs' : JobStore}

theorem BatchStep.Submitted.extend {project id : Text}
    (h : step.Submitted digest jobs project id) (hext : jobs.Extends jobs') :
    step.Submitted digest jobs' project id where
  made := by
    intro a hlow hhigh
    obtain ⟨old, hold⟩ := h.made a hlow hhigh
    exact ⟨old, hext _ _ _ hold⟩
  recorded := by
    intro job hjob
    obtain ⟨old, hold, hid⟩ := h.recorded job hjob
    exact ⟨old, hext _ _ _ hold, hid⟩

theorem BatchRow.Sound.extend {row : BatchRow}
    (h : row.Sound digest jobs) (hext : jobs.Extends jobs') : row.Sound digest jobs' where
  __ := h
  submitted := fun step hstep => (h.submitted step hstep).extend hext

/-- The invariant of the batch tables once `k` calls were started. -/
structure BatchStore.Sound (digest : Text → Text) (k : Nat) (store : BatchStore) : Prop where
  jobs : store.jobs.Sound
  rows : ∀ project id row, store.batch project id = some row → row.Sound digest store.jobs
  owners : ∀ project id row token, store.batch project id = some row →
    row.owner = some token → token < k

end Indago
