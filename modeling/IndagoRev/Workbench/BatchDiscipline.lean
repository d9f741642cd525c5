import IndagoRev.Workbench.BatchReservations
import IndagoRev.Workbench.JobLifecycle

/-!
# Batch runs keep their records

A run relies on the row that it owns: nobody else writes a record under its
token. Its local copy may be ahead of the stored record by one reservation,
which the next write stores. With that every part of the run keeps the batch
tables sound, whatever the other calls do in between, and whether an access is
refused or not.
-/

namespace Indago

open StdText Tables Transactions Interleaving List

variable {digest : Text → Text}

/-- What run `n` relies on: nobody else writes a record that it owns, and no
job of a key is lost. -/
structure BatchStore.Relies (n : Nat) (store store' : BatchStore) : Prop where
  owned : ∀ project id row', store'.batch project id = some row' → row'.owner = some n →
    ∃ row, store.batch project id = some row ∧ row.owner = some n ∧ row.record = row'.record
  jobs : store.jobs.Extends store'.jobs

theorem JobStore.Extends.refl (jobs : JobStore) : jobs.Extends jobs := fun _ _ _ h => h

theorem JobStore.Extends.trans {a b c : JobStore} (h : a.Extends b) (h' : b.Extends c) :
    a.Extends c := fun project key old hold => h' project key old (h project key old hold)

/-- What every action keeps: the jobs of the keys, and of each batch its budget
and the keys that it reserved. -/
structure BatchStore.Evolves (store store' : BatchStore) : Prop where
  jobs : store.jobs.Extends store'.jobs
  rows : ∀ project id row, store.batch project id = some row →
    ∃ row', store'.batch project id = some row' ∧
      row'.record.budget = row.record.budget ∧ row.everReserved ⊆ row'.everReserved

/-- The discipline of batch runs. -/
def batchDiscipline (digest : Text → Text) : Discipline BatchLabel BatchStore where
  inv := BatchStore.Sound digest
  rely := BatchStore.Relies
  evolves := BatchStore.Evolves
  meets := fun _ _ _ => True
  good := fun _ _ _ => True
  rely_refl := fun n s => ⟨fun _ _ row' hrow howner => ⟨row', hrow, howner, rfl⟩, .refl _⟩
  rely_trans := by
    intro n s t u hst htu
    refine ⟨?_, hst.jobs.trans htu.jobs⟩
    intro project id row hrow howner
    obtain ⟨row₁, hrow₁, howner₁, hrecord₁⟩ := htu.owned project id row hrow howner
    obtain ⟨row₂, hrow₂, howner₂, hrecord₂⟩ := hst.owned project id row₁ hrow₁ howner₁
    exact ⟨row₂, hrow₂, howner₂, hrecord₂.trans hrecord₁⟩
  evolves_refl := fun s => ⟨.refl _, fun _ _ row hrow => ⟨row, hrow, rfl, fun _ h => h⟩⟩
  evolves_trans := by
    intro s t u hst htu
    refine ⟨hst.jobs.trans htu.jobs, ?_⟩
    intro project id row hrow
    obtain ⟨row₁, hrow₁, hbudget₁, hever₁⟩ := hst.rows project id row hrow
    obtain ⟨row₂, hrow₂, hbudget₂, hever₂⟩ := htu.rows project id row₁ hrow₁
    exact ⟨row₂, hrow₂, hbudget₂.trans hbudget₁, fun e he => hever₂ (hever₁ he)⟩

section Actions

variable {store store' : BatchStore} {n : Nat} {opts : RunOptions}

theorem exec_extends {jobs jobs' : JobStore} {call : TimedCall} {answer : JobAnswer}
    (h : jobService.exec call jobs = .ok (answer, jobs')) : jobs.Extends jobs' := by
  intro project key old hold
  have hrun := prior_run hold [call]
  have hafter : jobService.run jobs [call] = jobs' := Service.after_ok h
  rwa [hafter] at hrun

/-- What a transaction on the job tables keeps for the batches. -/
def JobTx.Keeps {α : Type} (t : JobTx α) : Prop :=
  ∀ jobs a jobs', t jobs = .ok (a, jobs') →
    (jobs.Sound → jobs'.Sound) ∧ jobs.Extends jobs'

variable (project : Text)

theorem keeps_jobInfo (id : Nat) : JobTx.Keeps (jobInfo project id) := by
  intro jobs job jobs' h
  obtain ⟨_, _, rfl⟩ := jobInfo_ok h
  exact ⟨fun h => h, .refl _⟩

theorem keeps_of_exec {α : Type} {t : JobTx α} (call : TimedCall)
    (h : ∀ jobs a jobs', t jobs = .ok (a, jobs') →
      ∃ answer, jobService.exec call jobs = .ok (answer, jobs')) : JobTx.Keeps t := by
  intro jobs a jobs' ht
  obtain ⟨answer, hexec⟩ := h jobs a jobs' ht
  exact ⟨fun hsound => hsound.exec hexec, exec_extends hexec⟩

variable (now : Nat)

theorem keeps_recoverJobs : JobTx.Keeps (recoverJobs now project) :=
  keeps_of_exec (now, .recover project) (fun _ _ _ h => ⟨_, exec_of_recoverJobs h⟩)

variable (target : TargetRecord)

theorem keeps_startJob (request : JobRequest) : JobTx.Keeps (startJob now target request) :=
  keeps_of_exec (now, .start target request) (fun _ _ _ h => ⟨_, exec_of_startJob h⟩)

theorem keeps_claimJob (id : Nat) : JobTx.Keeps (claimJob now project id) :=
  keeps_of_exec (now, .claim project id) (fun _ ticket jobs' h =>
    ⟨.ticket ticket, by simp only [jobService, map_ok]; exact ⟨ticket, jobs', h, rfl⟩⟩)

theorem keeps_publishResult (ticket : JobTicket) (backend : Text) (result : CommandResult) :
    JobTx.Keeps (publishResult now target ticket backend result) :=
  keeps_of_exec (now, .publish target ticket backend result) (fun _ envelope jobs' h =>
    ⟨.result envelope, by simp only [jobService, map_ok]; exact ⟨envelope, jobs', h, rfl⟩⟩)

theorem onJobs_ok {α : Type} {t : JobTx α} {a : α} (h : onJobs t store = .ok (a, store')) :
    t store.jobs = .ok (a, store'.jobs) ∧ store' = { store with jobs := store'.jobs } := by
  unfold onJobs at h
  cases ht : t store.jobs with
  | error e => simp [ht] at h
  | ok answer =>
    simp only [ht, Except.ok.injEq, Prod.mk.injEq] at h
    obtain ⟨rfl, rfl⟩ := h
    exact ⟨rfl, rfl⟩

/-- A job call commits: the batch rows stay, and no key is lost. -/
theorem commits_jobs {jobs' : JobStore}
    (hjobs : store.jobs.Sound → jobs'.Sound) (hext : store.jobs.Extends jobs') :
    (batchDiscipline digest).Commits n store { store with jobs := jobs' } where
  keeps := by
    intro k hk h
    exact {
      jobs := hjobs h.jobs
      rows := fun project id row hrow => (h.rows project id row hrow).extend hext
      owners := h.owners }
  others := fun m hm => ⟨fun _ _ row' hrow howner => ⟨row', hrow, howner, rfl⟩, hext⟩
  evolves := ⟨hext, fun _ _ row hrow => ⟨row, hrow, rfl, fun _ h => h⟩⟩

end Actions

/-- How far a step of the local copy may be ahead of the stored one. -/
def BatchStep.Ahead (slack : Nat) (old new : BatchStep) : Prop :=
  new.name = old.name ∧ old.uses ≤ new.uses ∧ new.uses ≤ old.uses + slack

/-- The local copy of a run: sound, and while the run owns the row, under the
stored budget and ahead of the stored record by at most the reservations in
progress. -/
structure BatchLocal.Follows (digest : Text → Text) (opts : RunOptions) (slack : Nat)
    (data : BatchLocal) (store : BatchStore) : Prop where
  id : data.record.id = opts.id
  project : data.record.project = opts.project
  record : data.record.Sound digest
  submitted : ∀ step ∈ data.record.steps,
    step.Submitted digest store.jobs opts.project opts.id
  budget : ∀ row, store.batch opts.project opts.id = some row → row.owner = some opts.token →
    data.record.budget = row.record.budget
  stored : ∀ row, store.batch opts.project opts.id = some row → row.owner = some opts.token →
    List.Forall₂ (BatchStep.Ahead slack) row.record.steps data.record.steps

variable {i : Nat}

theorem forall₂_set {α β : Type} {R : α → β → Prop} {l : List α} {l' : List β} {x : β}
    (h : List.Forall₂ R l l') (hx : ∀ a, l[i]? = some a → R a x) :
    List.Forall₂ R l (l'.set i x) := by
  induction h generalizing i with
  | nil => exact .nil
  | @cons a b l l' hab hrest ih =>
    cases i with
    | zero => exact .cons (hx a rfl) hrest
    | succ i => exact .cons hab (ih hx)

theorem forall₂_getElem? {α β : Type} {R : α → β → Prop} {l : List α} {l' : List β}
    {a : α} {b : β} (h : List.Forall₂ R l l') (ha : l[i]? = some a) (hb : l'[i]? = some b) :
    R a b := by
  induction h generalizing i with
  | nil => simp at ha
  | cons hab hrest ih =>
    cases i with
    | zero =>
      simp only [getElem?_cons_zero, Option.some.injEq] at ha hb
      rw [← ha, ← hb]
      exact hab
    | succ i => exact ih ha hb

namespace BatchLocal.Follows

variable {opts : RunOptions} {slack n : Nat} {data : BatchLocal} {store store' : BatchStore}

theorem weaken (h : data.Follows digest opts 0 store) (slack : Nat) :
    data.Follows digest opts slack store where
  __ := h
  stored := by
    intro row hrow howner
    refine (h.stored row hrow howner).imp ?_
    intro old new ⟨hname, hlow, hhigh⟩
    exact ⟨hname, hlow, by omega⟩

theorem stable (h : data.Follows digest opts slack store)
    (hrely : BatchStore.Relies opts.token store store') : data.Follows digest opts slack store' where
  __ := h
  submitted := fun step hstep => (h.submitted step hstep).extend hrely.jobs
  budget := by
    intro row hrow howner
    obtain ⟨before, hbefore, hbeforeOwner, hrecord⟩ := hrely.owned _ _ row hrow howner
    rw [← hrecord]
    exact h.budget before hbefore hbeforeOwner
  stored := by
    intro row hrow howner
    obtain ⟨before, hbefore, hbeforeOwner, hrecord⟩ := hrely.owned _ _ row hrow howner
    rw [← hrecord]
    exact h.stored before hbefore hbeforeOwner

theorem withRecord (h : data.Follows digest opts slack store) (record : BatchRecord)
    (hid : record.id = data.record.id) (hproject : record.project = data.record.project)
    (hsteps : record.steps = data.record.steps) (hbudget : record.budget = data.record.budget)
    (hsound : record.Sound digest) (states : Text → Option StepStatus) :
    BatchLocal.Follows digest opts slack ⟨record, states⟩ store where
  id := hid.trans h.id
  project := hproject.trans h.project
  record := hsound
  submitted := by
    intro step hstep
    exact h.submitted step (hsteps ▸ hstep)
  budget := fun row hrow howner => hbudget.trans (h.budget row hrow howner)
  stored := by
    intro row hrow howner
    simp only [hsteps]
    exact h.stored row hrow howner

theorem withStep (h : data.Follows digest opts slack store) {old step : BatchStep}
    (hold : data.record.steps[i]? = some old) (hname : step.name = old.name)
    (hrequest : step.request = old.request) (huses : step.uses = old.uses)
    (hsound : step.Sound digest opts.id)
    (hsubmitted : step.Submitted digest store.jobs opts.project opts.id) :
    BatchLocal.Follows digest opts slack
      { data with record := data.record.withStep i step } store where
  __ := h
  record := h.record.withStep hold hname hrequest huses (h.id ▸ hsound)
  submitted := by
    intro other hother
    rcases mem_withStep hother with heq | hmem
    · rw [heq]
      exact hsubmitted
    · exact h.submitted other hmem
  stored := by
    intro row hrow howner
    have hstored := h.stored row hrow howner
    apply forall₂_set hstored
    intro before hbefore
    obtain ⟨hsame, hlow, hhigh⟩ := forall₂_getElem? hstored hbefore hold
    exact ⟨hname.trans hsame, by omega, by omega⟩

theorem sameReservation (h : data.Follows digest opts slack store)
    {old step : BatchStep} (hold : data.record.steps[i]? = some old)
    (hsame : step.SameReservation old) : BatchLocal.Follows digest opts slack
      { data with record := data.record.withStep i step } store := by
  have hmem := mem_of_getElem? hold
  exact h.withStep hold hsame.1 hsame.2.1 hsame.uses
    (hsame.sound (h.id ▸ h.record.steps old hmem)) (hsame.submitted (h.submitted old hmem))

theorem reserve (h : data.Follows digest opts 0 store) {step : BatchStep}
    (hstep : data.record.steps[i]? = some step) (hfree : step.reserved = false)
    (hjob : step.jobId = none) (hroom : data.record.exhausted step.request = false) :
    BatchLocal.Follows digest opts 1
      ⟨(data.record.reserve step.request).withStep i (step.reserve digest opts.id), data.states⟩
      store where
  __ := h
  record := h.id ▸ h.record.reserve hstep hfree hjob hroom
  submitted := by
    intro other hother
    rcases mem_withStep hother with heq | hmem
    · rw [heq]
      have hsubmitted := h.submitted step (mem_of_getElem? hstep)
      exact ⟨hsubmitted.made, fun job hheld => hsubmitted.recorded job hheld⟩
    · exact h.submitted other hmem
  stored := by
    intro row hrow howner
    have hstored := (h.weaken 1).stored row hrow howner
    apply forall₂_set hstored
    intro before hbefore
    obtain ⟨hsame, hlow, hhigh⟩ :=
      forall₂_getElem? (h.stored row hrow howner) hbefore hstep
    have huses : (step.reserve digest opts.id).uses = step.uses + 1 := by
      simp [BatchStep.uses, BatchStep.reserve, hfree]
    exact ⟨hsame, by omega, by omega⟩

end BatchLocal.Follows

section Run

open Program

variable {opts : RunOptions} {data : BatchLocal} {store : BatchStore}

/-- What a transaction of a run keeps when it writes no batch row. -/
def BatchTx.Keeps {α : Type} (t : BatchTx α) : Prop :=
  ∀ store a store', t store = .ok (a, store') →
    store' = { store with jobs := store'.jobs } ∧
      (store.jobs.Sound → store'.jobs.Sound) ∧ store.jobs.Extends store'.jobs

theorem keeps_onJobs {α : Type} {t : JobTx α} (h : t.Keeps) : BatchTx.Keeps (onJobs t) := by
  intro store a store' ht
  obtain ⟨hjobs, hstore⟩ := onJobs_ok ht
  exact ⟨hstore, h _ _ _ hjobs⟩

variable {request : JobRequest}

theorem requestTarget_ok {target : TargetRecord} {store' : BatchStore}
    (h : requestTarget request store = .ok (target, store')) :
    store' = store ∧ target.project = request.project := by
  simp only [requestTarget, bind_ok, get_ok] at h
  obtain ⟨_, _, hget, h⟩ := h
  cases hget
  cases hfind : store.jobs.targets.find?
      (fun t => t.id = request.targetId ∧ t.project = request.project) with
  | none =>
    rw [hfind] at h
    exact absurd h throw_ok
  | some found =>
    rw [hfind] at h
    simp only [pure_ok, Prod.mk.injEq] at h
    obtain ⟨rfl, rfl⟩ := h
    have hkeys := find?_some hfind
    simp only [decide_eq_true_eq] at hkeys
    exact ⟨rfl, hkeys.2⟩

theorem keeps_requestTarget_bind {α : Type}
    {f : TargetRecord → BatchTx α} (h : ∀ target, (f target).Keeps) :
    BatchTx.Keeps (requestTarget request >>= f) := by
  intro store a store' ht
  rw [bind_ok] at ht
  obtain ⟨target, s, htarget, hf⟩ := ht
  obtain ⟨rfl, _⟩ := requestTarget_ok htarget
  exact h target _ _ _ hf

variable {slack : Nat}

theorem ensures_access {α : Type} {label : BatchLabel} {t : Surroundings → BatchTx α}
    {post : Except String α → BatchLocal → BatchStore → Prop}
    (h : data.Follows digest opts slack store) (hkeeps : ∀ env, (t env).Keeps)
    (hok : ∀ env s a s', s.jobs.Sound → t env s = .ok (a, s') →
      data.Follows digest opts slack s' → post (.ok a) data s')
    (herror : ∀ e s, data.Follows digest opts slack s → post (.error e) data s) :
    Ensures (batchDiscipline digest) opts.token (access label t) post data store := by
  apply ensures_atomically
  intro s hrely k hk hinv _
  have hs := h.stable hrely
  refine ⟨trivial, ?_⟩
  intro env
  constructor
  · intro a s' ht
    by_cases hbusy : env.busy = true
    · simp [hbusy] at ht
    simp only [hbusy] at ht
    obtain ⟨hstore, hsound, hext⟩ := hkeeps env s a s' ht
    rw [hstore]
    refine ⟨commits_jobs hsound hext, ?_⟩
    rw [← hstore]
    apply hok env s a s' hinv.jobs ht
    have hafter : BatchStore.Relies opts.token s s' := by
      rw [hstore]
      exact ⟨fun _ _ row' hrow howner => ⟨row', hrow, howner, rfl⟩, hext⟩
    exact hs.stable hafter
  · intro e _
    exact herror e s hs

/-- How a part of the run ends: in step with the stored record, or on an
exception with a reservation that is not stored yet. -/
def Settles (digest : Text → Text) (opts : RunOptions) {α : Type} :
    Except String α → BatchLocal → BatchStore → Prop
  | .ok _, data, store => data.Follows digest opts 0 store
  | .error _, data, store => data.Follows digest opts 1 store

theorem settles_throw {α : Type} {e : String} (h : data.Follows digest opts 0 store) :
    Ensures (batchDiscipline digest) opts.token (throw e : BatchProgram α)
      (Settles digest opts) data store := by
  apply ensures_throw
  exact h.weaken 1

theorem saveBatch_ok {now : Nat} {record : BatchRecord} {a : Unit} {store' : BatchStore}
    (h : saveBatch now opts record store = .ok (a, store')) :
    ∃ row, store.batch opts.project opts.id = some row ∧ row.owner = some opts.token ∧
      store' = { store with
        batches := rewrite BatchRow.name (opts.project, opts.id)
          (fun row => row.saved now record) store.batches } := by
  simp only [saveBatch, bind_ok, get_ok] at h
  obtain ⟨_, _, hget, h⟩ := h
  cases hget
  cases hrow : store.batch opts.project opts.id with
  | none => simp [hrow] at h
  | some row =>
    by_cases howner : row.owner = some opts.token
    · simp only [hrow, howner, if_true, updateBatch, modify_ok, Prod.mk.injEq] at h
      exact ⟨row, rfl, howner, h.2⟩
    · simp [hrow, howner] at h

/-- The keys of a record that is ahead of the stored one by its last keys. -/
theorem reserved_of_ahead {old new : BatchRecord} {ever : List Text} (hid : old.id = new.id)
    (hnew : new.Sound digest) (hever : ∀ key, key ∈ ever ↔ old.Reserved digest key)
    (hahead : List.Forall₂ (BatchStep.Ahead 1) old.steps new.steps) (key : Text) :
    key ∈ new.steps.filterMap BatchStep.reservedKey ∪ ever ↔ new.Reserved digest key := by
  rw [mem_union_iff, mem_filterMap, hever]
  constructor
  · intro hkey
    rcases hkey with ⟨step, hstep, hreserved⟩ | ⟨step, hstep, a, hlow, hhigh, rfl⟩
    · have hkey := (hnew.steps step hstep).key
      rw [hreserved, BatchStep.lastKey] at hkey
      split at hkey
      · cases hkey
      · next huses =>
          refine ⟨step, hstep, step.uses, by omega, Nat.le_refl _, Option.some.inj hkey⟩
    · obtain ⟨i, hi, rfl⟩ := mem_iff_getElem.mp hstep
      have hi' : i < new.steps.length := by rwa [← hahead.length_eq]
      obtain ⟨hname, hle, _⟩ := forall₂_getElem? hahead (getElem?_eq_getElem hi)
        (getElem?_eq_getElem hi')
      refine ⟨new.steps[i], getElem_mem hi', a, hlow, by omega, ?_⟩
      rw [hname, hid]
  · rintro ⟨step, hstep, a, hlow, hhigh, hkey⟩
    obtain ⟨i, hi, rfl⟩ := mem_iff_getElem.mp hstep
    have hi' : i < old.steps.length := by rwa [hahead.length_eq]
    obtain ⟨hname, hle, hge⟩ := forall₂_getElem? hahead (getElem?_eq_getElem hi')
      (getElem?_eq_getElem hi)
    by_cases hlast : a = new.steps[i].uses
    · left
      refine ⟨new.steps[i], hstep, ?_⟩
      rw [(hnew.steps _ hstep).key, BatchStep.lastKey, if_neg (by omega), hkey, hlast]
    · right
      refine ⟨old.steps[i], getElem_mem hi', a, hlow, by omega, ?_⟩
      rw [hkey, hname, hid]

theorem batch_name {project id : Text} {row : BatchRow} (h : store.batch project id = some row) :
    row.project = project ∧ row.id = id := by
  have hkey := row_some_key h
  simpa [BatchRow.name] using hkey

variable {change : BatchRow → BatchRow}

/-- The rows behind a change of one batch row that keeps its key. -/
theorem batch_rewrite {project id project' id' : Text}
    (hkey : ∀ row, (change row).name = row.name) :
    ({ store with batches := rewrite BatchRow.name (project, id) change store.batches } :
        BatchStore).batch project' id' =
      if (project', id') = (project, id) then (store.batch project id).map change
      else store.batch project' id' := by
  by_cases hsame : (project', id') = (project, id)
  · rw [if_pos hsame]
    obtain ⟨rfl, rfl⟩ := Prod.mk.inj hsame
    exact row_rewrite_self hkey
  · rw [if_neg hsame]
    exact row_rewrite_other hkey hsame

/-- Changing one batch row commits when the row stays sound, and the change
gives it to run `n` or leaves its owner and record alone. -/
theorem commits_row {n : Nat} {project id : Text} (hkey : ∀ row, (change row).name = row.name)
    (hsound : ∀ row, store.batch project id = some row → row.Sound digest store.jobs →
      (change row).Sound digest store.jobs)
    (howner : ∀ row, store.batch project id = some row → ∀ token, (change row).owner = some token →
      token = n ∨ (row.owner = some token ∧ (change row).record = row.record))
    (hkeeps : ∀ row, store.batch project id = some row →
      (change row).record.budget = row.record.budget ∧
        row.everReserved ⊆ (change row).everReserved) : (batchDiscipline digest).Commits n store
      { store with batches := rewrite BatchRow.name (project, id) change store.batches } where
  keeps := by
    intro k hk h
    constructor
    · exact h.jobs
    · intro project' id' row' hrow'
      rw [batch_rewrite hkey] at hrow'
      split at hrow'
      · obtain ⟨row, hrow, rfl⟩ := Option.map_eq_some_iff.mp hrow'
        exact hsound row hrow (h.rows project id row hrow)
      · exact h.rows project' id' row' hrow'
    · intro project' id' row' token hrow' htoken
      rw [batch_rewrite hkey] at hrow'
      split at hrow'
      · obtain ⟨row, hrow, rfl⟩ := Option.map_eq_some_iff.mp hrow'
        rcases howner row hrow token htoken with heq | ⟨hbefore, _⟩
        · omega
        · exact h.owners project id row token hrow hbefore
      · exact h.owners project' id' row' token hrow' htoken
  others := by
    intro m hm
    refine ⟨?_, .refl _⟩
    intro project' id' row' hrow' hm'
    rw [batch_rewrite hkey] at hrow'
    split at hrow'
    · next hsame =>
        obtain ⟨row, hrow, rfl⟩ := Option.map_eq_some_iff.mp hrow'
        rcases howner row hrow m hm' with heq | ⟨hbefore, hrecord⟩
        · exact absurd heq hm
        · obtain ⟨rfl, rfl⟩ := Prod.mk.inj hsame
          exact ⟨row, hrow, hbefore, hrecord.symm⟩
    · exact ⟨row', hrow', hm', rfl⟩
  evolves := by
    refine ⟨.refl _, ?_⟩
    intro project' id' row hrow
    rw [batch_rewrite hkey]
    split
    · next hsame =>
        obtain ⟨rfl, rfl⟩ := Prod.mk.inj hsame
        exact ⟨change row, by rw [hrow, Option.map_some], hkeeps row hrow⟩
    · exact ⟨row, hrow, rfl, fun _ h => h⟩

variable {post : Except String Unit → BatchLocal → BatchStore → Prop}

/-- Writing the local copy brings the stored record in step with it. -/
theorem ensures_save {label : BatchLabel} (hslack : slack ≤ 1)
    (h : data.Follows digest opts slack store)
    (hok : ∀ s, data.Follows digest opts 0 s → post (.ok ()) data s)
    (herror : ∀ e s, data.Follows digest opts slack s → post (.error e) data s) :
    Ensures (batchDiscipline digest) opts.token (save label opts) post data store := by
  apply ensures_bind
  apply ensures_get
  apply ensures_atomically
  intro s hrely k hk hinv _
  have hs := h.stable hrely
  refine ⟨trivial, ?_⟩
  intro env
  constructor
  · intro a s' ht
    by_cases hbusy : env.busy = true
    · simp [hbusy] at ht
    simp only [hbusy] at ht
    obtain ⟨row, hrow, howner, rfl⟩ := saveBatch_ok ht
    have hahead := hs.stored row hrow howner
    have hname := batch_name hrow
    constructor
    · apply commits_row
      · intro row
        rfl
      · intro other hother hsound
        obtain rfl : row = other := Option.some.inj (hrow.symm.trans hother)
        have hid : row.record.id = data.record.id := by rw [hsound.id, hname.2, hs.id]
        exact {
          id := hs.id.trans hname.2.symm
          project := hs.project.trans hname.1.symm
          record := hs.record
          submitted := by
            intro step hstep
            have hsubmitted := hs.submitted step hstep
            rw [← hname.1, ← hname.2] at hsubmitted
            exact hsubmitted
          history := by
            apply reserved_of_ahead hid hs.record hsound.history
            refine hahead.imp ?_
            intro old new ⟨hsame, hlow, hhigh⟩
            exact ⟨hsame, hlow, by omega⟩
          distinct := List.Nodup.union _ hsound.distinct }
      · intro other hother token htoken
        obtain rfl : row = other := Option.some.inj (hrow.symm.trans hother)
        exact Or.inl (Option.some.inj (htoken.symm.trans howner))
      · intro other hother
        obtain rfl : row = other := Option.some.inj (hrow.symm.trans hother)
        exact ⟨hs.budget row hrow howner, fun _ h => mem_union_iff.mpr (Or.inr h)⟩
    · apply hok
      constructor
      · exact hs.id
      · exact hs.project
      · exact hs.record
      · exact hs.submitted
      · intro row' hrow' _
        rw [batch_rewrite (by intro row; rfl), if_pos rfl, hrow, Option.map_some,
          Option.some.injEq] at hrow'
        rw [← hrow']
        rfl
      · intro row' hrow' _
        rw [batch_rewrite (by intro row; rfl), if_pos rfl, hrow, Option.map_some,
          Option.some.injEq] at hrow'
        rw [← hrow']
        apply forall₂_same.mpr
        intro step _
        exact ⟨rfl, Nat.le_refl _, Nat.le_refl _⟩
  · intro e _
    exact herror e s hs

theorem ensures_setStatus {status : BatchStatus} (h : data.Follows digest opts slack store)
    (hok : ∀ data', data'.Follows digest opts slack store → post (.ok ()) data' store) :
    Ensures (batchDiscipline digest) opts.token (setStatus status) post data store := by
  apply ensures_modify
  apply hok
  exact h.withRecord { data.record with status := status } rfl rfl rfl rfl
    (h.record.withStatus status) data.states

theorem ensures_noteState {name : Text} {status : StepStatus}
    (h : data.Follows digest opts slack store)
    (hok : ∀ data', data'.Follows digest opts slack store → data'.record = data.record →
      post (.ok ()) data' store) :
    Ensures (batchDiscipline digest) opts.token (noteState name status) post data store := by
  apply ensures_modify
  apply hok
  · exact h.withRecord _ rfl rfl rfl rfl h.record _
  · rfl

theorem ensures_setStep {step : BatchStep}
    (hok : post (.ok ()) { data with record := data.record.withStep i step } store) :
    Ensures (batchDiscipline digest) opts.token (setStep i step) post data store := by
  apply ensures_modify
  exact hok

theorem getElem?_withStep {record : BatchRecord} {old step : BatchStep}
    (h : record.steps[i]? = some old) : (record.withStep i step).steps[i]? = some step := by
  have hlt := (List.getElem?_eq_some_iff.mp h).1
  simp [BatchRecord.withStep, hlt]

theorem ensures_settleOrRetry {step : BatchStep} {previous : Job}
    (h : data.Follows digest opts 0 store) (hstep : data.record.steps[i]? = some step) :
    Ensures (batchDiscipline digest) opts.token (settleOrRetry opts i step previous)
      (Settles digest opts) data store := by
  unfold settleOrRetry
  split
  · split
    · apply ensures_bind
      apply ensures_noteState h
      intro data' h' _
      exact ensures_pure h'
    next hretry =>
      apply ensures_bind
      apply ensures_setStep
      apply ensures_pure
      have hmem := mem_of_getElem? hstep
      have hsound := h.record.steps step hmem
      rw [h.id] at hsound
      have hattempt : step.attempt < 2 := by omega
      refine h.withStep hstep rfl rfl rfl (hsound.eraseJob hattempt) ?_
      exact ⟨(h.submitted step hmem).made, by intro job hjob; cases hjob⟩
  · exact ensures_pure h

theorem ensures_reviewJob {step : BatchStep} {job : Nat}
    (h : data.Follows digest opts 0 store) (hstep : data.record.steps[i]? = some step) :
    Ensures (batchDiscipline digest) opts.token (reviewJob opts i step job)
      (Settles digest opts) data store := by
  unfold reviewJob
  apply ensures_bind
  apply ensures_access h (fun env => keeps_onJobs (keeps_jobInfo _ _))
  · intro env s previous s' hsound _ h
    cases hresult : previous.result with
    | some result =>
      have hsettled := h.sameReservation hstep
        (⟨rfl, rfl, rfl, rfl, rfl, rfl⟩ : (step.settled previous result).SameReservation step)
      simp only [hresult]
      apply ensures_bind
      apply ensures_setStep
      dsimp only
      split
      · apply ensures_bind
        apply ensures_noteState hsettled
        intro data' h' _
        exact ensures_pure h'
      · exact ensures_settleOrRetry hsettled (getElem?_withStep hstep)
    | none =>
      simp only [hresult]
      split
      · apply ensures_bind
        apply ensures_access h (fun env => keeps_onJobs (keeps_recoverJobs _ _))
        · intro env s ids s' _ _ h
          apply ensures_bind
          apply ensures_access h (fun env => keeps_onJobs (keeps_jobInfo _ _))
          · intro env s current s' _ _ h
            dsimp only
            split
            · apply ensures_bind
              apply ensures_setStatus h
              intro data' h'
              exact ensures_pure h'
            apply ensures_bind
            apply ensures_setStep
            refine ensures_settleOrRetry ?_ (getElem?_withStep hstep)
            exact h.sameReservation hstep ⟨rfl, rfl, rfl, rfl, rfl, rfl⟩
          · intro e s h
            exact h.weaken 1
        · intro e s h
          exact h.weaken 1
      · exact ensures_settleOrRetry h hstep
  · intro e s h
    exact h.weaken 1

/-- A step whose reservation was submitted as the job of its key. -/
theorem BatchLocal.Follows.submit {i job : Nat} {step : BatchStep} {old : Idempotency}
    (h : data.Follows digest opts 0 store) (hstep : data.record.steps[i]? = some step)
    (hreserved : step.reserved = true) (hjob : old.job = job) (hold : store.jobs.prior opts.project
      (attemptKey digest opts.id step.name (step.attempt + 1)) = some old) :
    BatchLocal.Follows digest opts 0
      { data with record := data.record.withStep i (step.submit job) } store := by
  have hmem := mem_of_getElem? hstep
  have hsound := h.record.steps step hmem
  rw [h.id] at hsound
  refine h.withStep hstep rfl rfl (BatchStep.uses_submit hreserved job)
    (hsound.submit hreserved job) ?_
  constructor
  · intro a hlow hhigh
    by_cases hlast : a = step.attempt + 1
    · rw [hlast]
      exact ⟨old, hold⟩
    · have hbefore : a ≤ step.attempt + 1 := hhigh
      exact (h.submitted step hmem).made a hlow (by omega)
  · intro other hother
    have hsame : job = other := Option.some.inj hother
    exact ⟨old, hold, hjob.trans hsame⟩

theorem BatchStep.Sound.reservedKey_eq {id : Text} {step : BatchStep} (h : step.Sound digest id)
    (hreserved : step.reserved = true) :
    step.reservedKey = some (attemptKey digest id step.name (step.attempt + 1)) := by
  rw [h.key]
  simp [BatchStep.lastKey, BatchStep.uses, hreserved]

theorem keeps_prepare (env : Surroundings) (request : JobRequest) : BatchTx.Keeps (do
      let target ← requestTarget request
      if env.refused then throw "artifact integrity check failed"
      else if target.sha256 ≠ request.artifactSha256 then throw "stale artifact identity"
      else onJobs (startJob env.now target request)) := by
  apply keeps_requestTarget_bind
  intro target store a store' ht
  split at ht
  · exact absurd ht throw_ok
  · split at ht
    · exact absurd ht throw_ok
    · exact keeps_onJobs (keeps_startJob _ _ _) _ _ _ ht

theorem attemptKey_ne_nil (id name : Text) (attempt : Nat) :
    attemptKey digest id name attempt ≠ [] := by
  simp [attemptKey]

/-- Submitting a request returns the job that has taken its key. -/
theorem ensures_prepare (hkey : request.idempotencyKey ≠ [])
    (hproject : request.project = opts.project)
    {post : Except String Job → BatchLocal → BatchStore → Prop}
    (h : data.Follows digest opts 0 store) (hok : ∀ job s, data.Follows digest opts 0 s →
      (∃ old, s.jobs.prior opts.project request.idempotencyKey = some old ∧ old.job = job.id) →
      post (.ok job) data s)
    (herror : ∀ e s, data.Follows digest opts 0 s → post (.error e) data s) :
    Ensures (batchDiscipline digest) opts.token (prepare request) post data store := by
  apply ensures_access h (fun env => keeps_prepare env request)
  · intro env s job s' hsound ht hs'
    apply hok job s' hs'
    rw [bind_ok] at ht
    obtain ⟨target, s₁, htarget, ht⟩ := ht
    obtain ⟨rfl, htargetProject⟩ := requestTarget_ok htarget
    split at ht
    · exact absurd ht throw_ok
    split at ht
    · exact absurd ht throw_ok
    obtain ⟨hstart, _⟩ := onJobs_ok ht
    obtain ⟨old, hold, _, hid⟩ := prior_of_startJob hsound hkey hstart
    rw [htargetProject, hproject] at hold
    exact ⟨old, hold, hid⟩
  · exact herror

theorem ensures_submitAttempt {step : BatchStep}
    (h : data.Follows digest opts 0 store) (hstep : data.record.steps[i]? = some step)
    (hjob : step.jobId = none)
    (hroom : step.reserved = false → data.record.exhausted step.request = false)
    (hok : ∀ data' s, data'.Follows digest opts 0 s → post (.ok ()) data' s)
    (herror : ∀ e data' s, data'.Follows digest opts 1 s → post (.error e) data' s) :
    Ensures (batchDiscipline digest) opts.token (submitAttempt digest opts i step)
      post data store := by
  have hsubmit : ∀ (data : BatchLocal) (s : BatchStore) (reserved : BatchStep),
      data.Follows digest opts 0 s → data.record.steps[i]? = some reserved →
      reserved.reserved = true →
      Ensures (batchDiscipline digest) opts.token (submitReserved i) post data s := by
    intro data s reserved h hreserved hopen
    have hmem := mem_of_getElem? hreserved
    have hsound := h.record.steps reserved hmem
    rw [h.id] at hsound
    have hkey := hsound.reservedKey_eq hopen
    unfold submitReserved
    apply ensures_bind
    apply ensures_get
    simp only [hreserved, hkey]
    apply ensures_bind
    apply ensures_prepare _ _ h
    · rintro job s hs ⟨old, hold, hid⟩
      apply ensures_setStep
      apply hok
      exact hs.submit hreserved hopen hid hold
    · intro e s hs
      exact herror e data s (hs.weaken 1)
    · exact attemptKey_ne_nil _ _ _
    · exact (h.record.home reserved hmem).trans h.project
  unfold submitAttempt
  by_cases hfree : step.reserved = false
  · simp only [hfree, if_true]
    apply ensures_bind
    apply ensures_modify
    apply ensures_bind
    apply ensures_setStep
    apply ensures_bind
    have hreserve := h.reserve hstep hfree hjob (hroom hfree)
    have hreserved : ((data.record.reserve step.request).withStep i
        (step.reserve digest opts.id)).steps[i]? = some (step.reserve digest opts.id) :=
      getElem?_withStep hstep
    apply ensures_save (Nat.le_refl 1) hreserve
    · intro s hs
      exact hsubmit _ s _ hs hreserved rfl
    · intro e s hs
      exact herror e _ s hs
  · have hopen : step.reserved = true := by simpa using hfree
    simp only [hfree]
    exact hsubmit data store step h hstep hopen

theorem ensures_execute {job : Job}
    {post : Except String ResultEnvelope → BatchLocal → BatchStore → Prop}
    (h : data.Follows digest opts slack store)
    (hok : ∀ result s, data.Follows digest opts slack s → post (.ok result) data s)
    (herror : ∀ e s, data.Follows digest opts slack s → post (.error e) data s) :
    Ensures (batchDiscipline digest) opts.token (execute job) post data store := by
  unfold execute
  apply ensures_bind
  apply ensures_access h (fun env => keeps_onJobs (keeps_jobInfo _ _))
  · intro env s prior s' _ _ h
    cases hresult : prior.result with
    | some result =>
      simp only [hresult]
      exact ensures_pure (hok result s' h)
    | none =>
      simp only [hresult]
      apply ensures_bind
      apply ensures_access h (fun env => keeps_onJobs (keeps_claimJob _ _ _))
      · intro env s ticket s' _ _ h
        apply ensures_access h
        · intro env
          apply keeps_requestTarget_bind
          intro target store a store' ht
          split at ht
          · exact absurd ht throw_ok
          · exact keeps_onJobs (keeps_publishResult _ _ _ _ _) _ _ _ ht
        · intro env s result s' _ _ h
          exact hok result s' h
        · exact herror
      · exact herror
  · exact herror

theorem ensures_runJob (h : data.Follows digest opts 0 store) :
    Ensures (batchDiscipline digest) opts.token (runJob opts i)
      (Settles digest opts) data store := by
  unfold runJob
  apply ensures_bind
  apply ensures_get
  dsimp only
  cases hstep : data.record.steps[i]? with
  | none => exact settles_throw h
  | some step =>
    dsimp only
    cases hjob : step.jobId with
    | none => exact settles_throw h
    | some id =>
      dsimp only
      apply ensures_bind
      apply ensures_setStep
      apply ensures_bind
      have hrunning := h.sameReservation hstep
        (⟨rfl, rfl, rfl, rfl, rfl, rfl⟩ : step.started.SameReservation step)
      apply ensures_save (Nat.zero_le 1) hrunning
      · intro s hs
        apply ensures_bind
        apply ensures_access hs (fun env => keeps_onJobs (keeps_jobInfo _ _))
        · intro env s job s' _ _ hs
          apply ensures_bind
          apply ensures_execute hs
          · intro result s hs
            apply ensures_bind
            apply ensures_setStep
            apply ensures_bind
            have hended := hs.sameReservation (getElem?_withStep hstep)
              (⟨rfl, rfl, rfl, rfl, rfl, rfl⟩ : (step.finished result).SameReservation step.started)
            apply ensures_noteState hended
            intro data' hdata' _
            apply ensures_bind
            apply ensures_save (Nat.zero_le 1) hdata'
            · intro s hs
              exact ensures_pure hs
            · intro e s hs
              exact hs.weaken 1
          · intro e s hs
            exact hs.weaken 1
        · intro e s hs
          exact hs.weaken 1
      · intro e s hs
        exact hs.weaken 1

theorem ensures_launch (h : data.Follows digest opts 0 store) :
    Ensures (batchDiscipline digest) opts.token (launch digest opts i)
      (Settles digest opts) data store := by
  unfold launch
  apply ensures_bind
  apply ensures_get
  dsimp only
  cases hstep : data.record.steps[i]? with
  | none => exact settles_throw h
  | some step =>
    dsimp only
    split
    · apply ensures_bind
      apply ensures_setStatus h
      intro data' h'
      exact ensures_pure h'
    next hgo =>
      split
      · next hnone =>
          have hjob : step.jobId = none := by simpa using hnone
          apply ensures_bind
          apply ensures_submitAttempt h hstep hjob
          · intro hfree
            by_contra hroom
            exact hgo ⟨hnone, hfree, by simpa using hroom⟩
          · intro data' s hs
            exact ensures_runJob hs
          · intro e data' s hs
            exact hs
      · exact ensures_runJob h

theorem ensures_runStep (h : data.Follows digest opts 0 store) :
    Ensures (batchDiscipline digest) opts.token (runStep digest opts i)
      (Settles digest opts) data store := by
  unfold runStep
  apply ensures_bind
  apply ensures_access h
  · intro env s a s' ht
    split at ht
    · exact absurd ht throw_ok
    simp only [bind_ok, get_ok, pure_ok] at ht
    obtain ⟨_, _, hget, hset⟩ := ht
    cases hget
    cases hset
    exact ⟨rfl, fun hsound => hsound, .refl _⟩
  · intro env s cancelled s' _ _ h
    dsimp only
    split
    · apply ensures_bind
      apply ensures_setStatus h
      intro data' h'
      exact ensures_pure h'
    apply ensures_bind
    apply ensures_get
    dsimp only
    cases hstep : data.record.steps[i]? with
    | none => exact settles_throw h
    | some step =>
      dsimp only
      split
      · apply ensures_bind
        apply ensures_noteState h
        intro data' h' _
        exact ensures_pure h'
      split
      · apply ensures_bind
        apply ensures_setStep
        apply ensures_bind
        have hblocked := h.sameReservation hstep
          (⟨rfl, rfl, rfl, rfl, rfl, rfl⟩ :
            ({ step with status := .dependencyBlocked } : BatchStep).SameReservation step)
        apply ensures_noteState hblocked
        intro data' h' _
        exact ensures_pure h'
      · cases hjob : step.jobId with
        | none => exact ensures_launch h
        | some job =>
          apply ensures_bind
          apply (ensures_reviewJob h hstep).mono
          intro answer data' s' hanswer
          cases answer with
          | error e => exact hanswer
          | ok flow =>
            cases flow with
            | some flow => exact ensures_pure hanswer
            | none => exact ensures_launch hanswer
  · intro e s hs
    exact hs.weaken 1

/-- The loop over the steps, by induction on the steps to come. -/
theorem ensures_runSteps (indices : List Nat) (h : data.Follows digest opts 0 store) :
    Ensures (batchDiscipline digest) opts.token (runSteps digest opts indices)
      (Settles digest opts) data store := by
  induction indices generalizing data store with
  | nil => exact ensures_pure h
  | cons i rest ih =>
    apply ensures_bind
    apply (ensures_runStep h).mono
    intro answer data' s' hanswer
    cases answer with
    | error e => exact hanswer
    | ok flow =>
      cases flow with
      | next => exact ih hanswer
      | stop => exact ensures_pure hanswer

theorem ensures_release (h : data.Follows digest opts slack store)
    (hpost : ∀ x s, data.Follows digest opts slack s → post x data s) :
    Ensures (batchDiscipline digest) opts.token (release opts) post data store := by
  apply ensures_atomically
  intro s hrely k hk hinv _
  have hs := h.stable hrely
  refine ⟨trivial, ?_⟩
  intro env
  refine ⟨?_, fun e _ => hpost _ _ hs⟩
  intro a s' ht
  by_cases hbusy : env.busy = true
  · simp [hbusy] at ht
  simp only [hbusy, releaseBatch, updateBatch] at ht
  have hset : s' = { s with
      batches := rewrite BatchRow.name (opts.project, opts.id)
        (fun row => if row.owner = some opts.token then
          { row with owner := none, deadline := 0 } else row) s.batches } := by
    simpa using ht
  have hkey : ∀ row : BatchRow, (if row.owner = some opts.token then
      { row with owner := none, deadline := 0 } else row : BatchRow).name = row.name := by
    intro row
    split <;> rfl
  rw [hset]
  constructor
  · apply commits_row hkey
    · intro row _ hsound
      split
      · exact {
          id := hsound.id
          project := hsound.project
          record := hsound.record
          submitted := hsound.submitted
          history := hsound.history
          distinct := hsound.distinct }
      · exact hsound
    · intro row _ token htoken
      split at htoken
      · cases htoken
      · next hother =>
          rw [if_neg hother]
          exact Or.inr ⟨htoken, rfl⟩
    · intro row _
      split
      · exact ⟨rfl, fun _ h => h⟩
      · exact ⟨rfl, fun _ h => h⟩
  · apply hpost
    -- the released row has no owner, so the run no longer owns it
    have hgone : ∀ row, ({ s with
        batches := rewrite BatchRow.name (opts.project, opts.id)
          (fun row => if row.owner = some opts.token then
            { row with owner := none, deadline := 0 } else row) s.batches } :
          BatchStore).batch opts.project opts.id = some row →
        row.owner ≠ some opts.token := by
      intro row' hrow' howner'
      rw [batch_rewrite hkey, if_pos rfl] at hrow'
      obtain ⟨row, hrow, rfl⟩ := Option.map_eq_some_iff.mp hrow'
      split at howner'
      · cases howner'
      · next hother => exact hother howner'
    exact {
      id := hs.id
      project := hs.project
      record := hs.record
      submitted := hs.submitted
      budget := fun row hrow howner => absurd howner (hgone row hrow)
      stored := fun row hrow howner => absurd howner (hgone row hrow) }

/-- What a run leaves behind when it throws is enough for its handler. -/
theorem ensures_interrupted (e : String) (h : data.Follows digest opts 1 store) :
    Ensures (batchDiscipline digest) opts.token (interrupted opts e)
      (fun _ _ _ => True) data store := by
  have hrelease : ∀ (data : BatchLocal) (slack : Nat) (s : BatchStore),
      data.Follows digest opts slack s →
      Ensures (batchDiscipline digest) opts.token (do
        release opts
        throw e : BatchProgram Unit) (fun _ _ _ => True) data s := by
    intro data slack s h
    apply ensures_bind
    apply ensures_release h
    intro x s _
    cases x with
    | ok a => exact ensures_throw trivial
    | error e => exact trivial
  apply ensures_bind
  apply ensures_tryCatch
  apply ensures_bind
  apply ensures_setStatus h
  intro data' h'
  apply ensures_save (Nat.le_refl 1) h'
  · intro s hs
    exact hrelease data' 0 s hs
  · intro e s hs
    apply ensures_pure
    exact hrelease data' 1 s hs

theorem ensures_finish (h : data.Follows digest opts 0 store) :
    Ensures (batchDiscipline digest) opts.token (finish opts) (fun x data s => match x with
      | .ok _ => True
      | .error _ => data.Follows digest opts 1 s) data store := by
  have hsave : ∀ data' : BatchLocal, data'.Follows digest opts 0 store →
      Ensures (batchDiscipline digest) opts.token (do
        save .access opts
        release opts : BatchProgram Unit) (fun x data s => match x with
          | .ok _ => True
          | .error _ => data.Follows digest opts 1 s) data' store := by
    intro data' h'
    apply ensures_bind
    apply ensures_save (Nat.zero_le 1) h'
    · intro s hs
      apply ensures_release hs
      intro x s hs
      cases x with
      | ok a => exact trivial
      | error e => exact hs.weaken 1
    · intro e s hs
      exact hs.weaken 1
  unfold finish
  apply ensures_bind
  apply ensures_get
  dsimp only
  split
  · apply ensures_bind
    apply ensures_setStatus h
    intro data' h'
    exact hsave data' h'
  · exact hsave data h

theorem ensures_runBatch (h : data.Follows digest opts 0 store) :
    Ensures (batchDiscipline digest) opts.token (runBatch digest opts)
      (fun _ _ _ => True) data store := by
  unfold runBatch
  apply ensures_tryCatch
  apply ensures_bind
  apply ensures_setStatus h
  intro data' h'
  apply ensures_bind
  apply ensures_save (Nat.zero_le 1) h'
  · intro s hs
    apply ensures_bind
    apply ensures_get
    apply ensures_bind
    apply (ensures_runSteps _ hs).mono
    intro answer ended s' hanswer
    cases answer with
    | error e => exact ensures_interrupted e hanswer
    | ok a =>
      apply (ensures_finish hanswer).mono
      intro x data s hx
      cases x with
      | ok a => exact trivial
      | error e => exact ensures_interrupted e hx
  · intro e s hs
    exact ensures_interrupted e (hs.weaken 1)

end Run

end Indago
