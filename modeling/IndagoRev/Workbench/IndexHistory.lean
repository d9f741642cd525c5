import IndagoRev.Workbench.Reindexing

/-!
# The history of the index

Every row of evidence stands for one publication. In every store that the calls
reach, each project sees in the index what the publications made when they came one
after the other, and this is what a reindex makes again.
-/

namespace Indago

open StdText Tables SharedTables Transactions JsonValues IndexTables List

/-- The texts that a call publishes, or finds in the content store. -/
def IndexCall.texts : IndexCall → List Text
  | .publish _ _ _ _ result => [result.json]
  | .reindex _ objects => objects.map Prod.snd
  | _ => []

def calledTexts (calls : List (Nat × IndexCall)) : List Text :=
  calls.flatMap (fun call => call.2.texts)

/-- No two of the texts have one SHA-256. -/
def Distinguishes (sha256 : Text → Text) (texts : List Text) : Prop :=
  ∀ a ∈ texts, ∀ b ∈ texts, sha256 a = sha256 b → a = b

variable {sha256 : Text → Text} {parse : Text → Access Json}
  {normalize : StaticInput → Access StaticIndex}
variable {store store' : IndexStore} {jobs jobs' : JobStore} {project : Text} {now : Nat}
  {e : Evidence} {p : PublishedResult} {texts : List Text} {objects : Objects}

/-- The part of a job that never changes. -/
def Job.source (job : Job) : Nat × Text × Text × Nat × JobRequest :=
  (job.id, job.project, job.target, job.revision, job.request)

def JobStore.sources (jobs : JobStore) : List (Nat × Text × Text × Nat × JobRequest) :=
  jobs.jobs.map Job.source

/-- A row of evidence stands for a publication. -/
def Stands (parse : Text → Access Json) (jobs : JobStore) (e : Evidence) (p : PublishedResult) :
    Prop :=
  ∃ target native revision request,
    (e.job, e.project, TargetRecord.id target, revision, request) ∈ jobs.sources ∧
      target ∈ jobs.targets ∧ target.project = e.project ∧ parse e.raw = .ok native ∧
      p = ⟨e.project, target.sha256, revision, request, e.producer, e.id, native, e.status⟩

/-- What later job tables keep of earlier ones. -/
structure JobStore.Retains (jobs jobs' : JobStore) : Prop where
  sources : jobs.sources ⊆ jobs'.sources
  targets : jobs.targets ⊆ jobs'.targets

theorem Stands.mono (h : Stands parse jobs e p) (hkeeps : jobs.Retains jobs') :
    Stands parse jobs' e p := by
  obtain ⟨target, native, revision, request, hjob, htarget, hrest⟩ := h
  exact ⟨target, native, revision, request, hkeeps.sources hjob, hkeeps.targets htarget, hrest⟩

theorem Stands.project_eq (h : Stands parse jobs e p) : p.project = e.project := by
  obtain ⟨_, _, _, _, _, _, _, _, rfl⟩ := h
  rfl

/-- The invariant of a store whose publications had these texts. -/
structure IndexStore.Sound (sha256 : Text → Text) (parse : Text → Access Json)
    (normalize : StaticInput → Access StaticIndex) (texts : List Text) (store : IndexStore) :
    Prop where
  numbered : store.jobs.Numbered
  targets : (store.jobs.targets.map TargetRecord.id).Nodup
  named : ∀ t ∈ store.jobs.targets, t.id ≠ []
  texts : ∀ e ∈ store.jobs.evidence, e.raw ∈ texts
  keyed : store.tables.Keyed
  history : ∃ pubs canon, List.Forall₂ (Stands parse store.jobs) store.jobs.evidence pubs ∧
    replay sha256 normalize pubs .empty = .ok canon ∧
    ∀ project, canon.SameOwned project store.tables

theorem sources_rewrite {id : Nat} {f : Job → Job} (hf : ∀ job, (f job).source = job.source)
    (l : List Job) : (rewrite Job.id id f l).map Job.source = l.map Job.source := by
  apply keys_map
  intro job
  split
  · exact hf job
  · rfl

@[simp] theorem inJobs_ok {α : Type} {t : JobTx α} {r : α × IndexStore} : inJobs t store = .ok r ↔
      ∃ jobs', t store.jobs = .ok (r.1, jobs') ∧ r.2 = { store with jobs := jobs' } := by
  unfold inJobs
  cases h : t store.jobs with
  | error e => simp
  | ok answer =>
    obtain ⟨a, s⟩ := r
    obtain ⟨b, jobs'⟩ := answer
    simp only [Except.ok.injEq, Prod.mk.injEq]
    constructor
    · rintro ⟨rfl, rfl⟩
      exact ⟨jobs', ⟨rfl, rfl⟩, rfl⟩
    · rintro ⟨_, ⟨rfl, rfl⟩, rfl⟩
      exact ⟨rfl, rfl⟩

@[simp] theorem checked_ok {α : Type} {x : Access α} {r : α × IndexStore} :
    checked x store = .ok r ↔ x = .ok r.1 ∧ r.2 = store := by
  unfold checked
  obtain ⟨a, s⟩ := r
  cases x with
  | error e => simp
  | ok b =>
    simp only [Except.ok.injEq, Prod.mk.injEq]
    exact ⟨fun ⟨h, h'⟩ => ⟨h, h'.symm⟩, fun ⟨h, h'⟩ => ⟨h, h'.symm⟩⟩

variable {target : TargetRecord}

theorem readTarget_ok {id : Text} (h : readTarget project id store = .ok (target, store')) :
    store' = store ∧ target ∈ store.jobs.targets ∧ target.project = project := by
  simp only [readTarget, bind_ok, get_ok] at h
  obtain ⟨_, _, hget, h⟩ := h
  cases hget
  split at h
  · cases hfound : store.jobs.target project id with
    | none =>
      rw [hfound] at h
      exact absurd h throw_ok
    | some found =>
      rw [hfound] at h
      cases pure_ok.mp h
      have hmem := mem_of_getLast? hfound
      obtain ⟨htarget, hname⟩ := mem_filter.mp hmem
      simp only [decide_eq_true_eq] at hname
      exact ⟨rfl, htarget, hname.1⟩
  · exact absurd h throw_ok

theorem sound_of_jobs (h : store.Sound sha256 parse normalize texts) (hnum : jobs'.Numbered)
    (hsources : store.jobs.sources ⊆ jobs'.sources) (htargets : jobs'.targets = store.jobs.targets)
    (hevidence : jobs'.evidence = store.jobs.evidence) :
    IndexStore.Sound sha256 parse normalize texts { store with jobs := jobs' } where
  numbered := hnum
  targets := by
    rw [htargets]
    exact h.targets
  named := by
    rw [htargets]
    exact h.named
  texts := by
    rw [hevidence]
    exact h.texts
  keyed := h.keyed
  history := by
    obtain ⟨pubs, canon, hstands, hreplay, hsame⟩ := h.history
    refine ⟨pubs, canon, ?_, hreplay, hsame⟩
    rw [hevidence]
    apply hstands.imp
    intro e p hp
    exact hp.mono ⟨hsources, by rw [htargets]; exact List.Subset.refl _⟩

theorem sound_of_start {request : JobRequest} {job : Job}
    (h : store.Sound sha256 parse normalize texts)
    (hstart : startJob now target request store.jobs = .ok (job, jobs')) :
    IndexStore.Sound sha256 parse normalize texts { store with jobs := jobs' } := by
  have hexec : jobService.exec (now, .start target request) store.jobs = .ok (.job job, jobs') :=
    map_ok.mpr ⟨job, jobs', hstart, rfl⟩
  have hnum := exec_numbered h.numbered hexec
  rcases startJob_ok hstart with ⟨_, _, _, _, _, rfl⟩ | ⟨_, _, _, rfl⟩
  · exact sound_of_jobs h hnum (List.Subset.refl _) rfl rfl
  · refine sound_of_jobs h hnum ?_ rfl rfl
    simp only [JobStore.sources, JobStore.queued, map_append]
    exact subset_append_left _ _

variable {ticket : JobTicket}

theorem sound_of_claim {id : Nat} (h : store.Sound sha256 parse normalize texts)
    (hclaim : claimJob now project id store.jobs = .ok (ticket, jobs')) :
    IndexStore.Sound sha256 parse normalize texts { store with jobs := jobs' } := by
  have hexec : jobService.exec (now, .claim project id) store.jobs = .ok (.ticket ticket, jobs') :=
    map_ok.mpr ⟨ticket, jobs', hclaim, rfl⟩
  have hnum := exec_numbered h.numbered hexec
  obtain ⟨_, _, _, _, _, _, rfl⟩ := claimJob_ok hclaim
  refine sound_of_jobs h hnum ?_ rfl rfl
  have hsame : (store.jobs.claimed now id).sources = store.jobs.sources := by
    apply sources_rewrite
    exact fun _ => rfl
  rw [hsame]
  exact List.Subset.refl _

theorem sound_of_beat {id token : Nat} {a : Unit} (h : store.Sound sha256 parse normalize texts)
    (hbeat : heartbeat now id token store.jobs = .ok (a, jobs')) :
    IndexStore.Sound sha256 parse normalize texts { store with jobs := jobs' } := by
  have hexec : jobService.exec (now, .beat id token) store.jobs = .ok (.alive, jobs') :=
    map_ok.mpr ⟨a, jobs', hbeat, rfl⟩
  have hnum := exec_numbered h.numbered hexec
  obtain ⟨_, _, _, rfl⟩ := heartbeat_ok hbeat
  exact sound_of_jobs h hnum (List.Subset.refl _) rfl rfl

theorem sound_of_recover {ids : List Nat} (h : store.Sound sha256 parse normalize texts)
    (hrecover : recoverJobs now project store.jobs = .ok (ids, jobs')) :
    IndexStore.Sound sha256 parse normalize texts { store with jobs := jobs' } := by
  have hexec : jobService.exec (now, .recover project) store.jobs = .ok (.interrupted ids, jobs') :=
    map_ok.mpr ⟨ids, jobs', hrecover, rfl⟩
  have hnum := exec_numbered h.numbered hexec
  obtain ⟨_, rfl⟩ := recoverJobs_ok hrecover
  refine sound_of_jobs h hnum ?_ rfl rfl
  have hsame : (store.jobs.interrupt now ids).sources = store.jobs.sources := by
    apply keys_map
    intro job
    split <;> rfl
  rw [hsame]
  exact List.Subset.refl _

theorem sound_of_import {freshId sha : Text} {a : Unit}
    (h : store.Sound sha256 parse normalize texts)
    (himport : importTarget project freshId sha store = .ok (a, store')) :
    store'.Sound sha256 parse normalize texts := by
  simp only [importTarget, bind_ok, get_ok] at himport
  obtain ⟨_, _, hget, himport⟩ := himport
  cases hget
  split at himport
  · split at himport
    · cases pure_ok.mp himport
      exact h
    next hfresh =>
      cases set_ok.mp himport
      obtain ⟨pubs, canon, hstands, hreplay, hsame⟩ := h.history
      have hnone : ∀ t ∈ store.jobs.targets, t.id ≠ "tgt_" ++ freshId := by
        intro t ht hid
        apply hfresh
        rw [any_eq_true]
        exact ⟨t, ht, by simp [hid]⟩
      refine
        { numbered := ⟨h.numbered.jobs, h.numbered.leases, h.numbered.events,
            h.numbered.distinct⟩
          targets := ?_
          named := ?_
          texts := h.texts
          keyed := h.keyed
          history := ⟨pubs, canon, ?_, hreplay, hsame⟩ }
      · simp only [map_append, nodup_append]
        refine ⟨h.targets, nodup_singleton _, ?_⟩
        intro id hid id' hid' heq
        obtain ⟨t, ht, rfl⟩ := mem_map.mp hid
        rw [mem_singleton.mp hid'] at heq
        exact hnone t ht heq
      · intro t ht
        rcases mem_append.mp ht with ht | ht
        · exact h.named t ht
        · rw [mem_singleton.mp ht]
          simp
      · apply hstands.imp
        intro e p hp
        exact hp.mono ⟨List.Subset.refl _, subset_append_left _ _⟩
  · exact absurd himport throw_ok

theorem mem_others_of_owned {ρ : Type} {owner : ρ → Text} {rows rows' : List ρ}
    (h : ∀ q, q ≠ project → SharedTables.owned owner q rows = SharedTables.owned owner q rows')
    (a : ρ) : a ∈ others owner project rows ↔ a ∈ others owner project rows' := by
  constructor
  · intro ha
    obtain ⟨hrow, hne⟩ := mem_others.mp ha
    have hmem : a ∈ SharedTables.owned owner (owner a) rows' :=
      h (owner a) hne ▸ mem_owned.mpr ⟨hrow, rfl⟩
    exact mem_others.mpr ⟨(mem_owned.mp hmem).1, hne⟩
  · intro ha
    obtain ⟨hrow, hne⟩ := mem_others.mp ha
    have hmem : a ∈ SharedTables.owned owner (owner a) rows :=
      (h (owner a) hne).symm ▸ mem_owned.mpr ⟨hrow, rfl⟩
    exact mem_others.mpr ⟨(mem_owned.mp hmem).1, hne⟩

/-- Tables fit all those in which every other project sees the same. -/
theorem fits_of_keyed {t t' : IndexTables} (h : t.Keyed)
    (hsame : ∀ q, q ≠ project → t'.SameOwned q t) : t.Fits project t' where
  revisions := fits_of_nodup h.revisions
    (mem_others_of_owned (fun q hq => (hsame q hq).revisions))
  entities := fits_of_nodup h.entities (mem_others_of_owned (fun q hq => (hsame q hq).entities))
  relations := fits_of_nodup h.relations
    (mem_others_of_owned (fun q hq => (hsame q hq).relations))
  claims := fits_of_nodup h.claims (mem_others_of_owned (fun q hq => (hsame q hq).claims))

theorem empty_keyed : IndexTables.empty.Keyed :=
  ⟨nodup_nil, nodup_nil, nodup_nil, nodup_nil⟩

variable {pubs : List PublishedResult} {t v : IndexTables}

theorem replay_keyed (h : replay sha256 normalize pubs t = .ok v) (ht : t.Keyed) : v.Keyed :=
  replay_keeps IndexTables.Keyed (fun _ _ _ hkeyed hok => persistIndex_keyed hok hkeyed) h ht

theorem replay_snoc : replay sha256 normalize (pubs ++ [p]) t = .ok v ↔
      ∃ mid, replay sha256 normalize pubs t = .ok mid ∧
        persistIndex sha256 normalize mid p = .ok v := by
  rw [replay, except_foldlM_append]
  simp only [foldlM_cons, foldlM_nil, except_bind_ok]
  constructor
  · rintro ⟨mid, hmid, last, hlast, hv⟩
    cases hv
    exact ⟨mid, hmid, hlast⟩
  · rintro ⟨mid, hmid, hlast⟩
    exact ⟨mid, hmid, v, hlast, rfl⟩

variable {envelope : ResultEnvelope} {result : CommandResult}

theorem publishIndexed_ok {targetId : Text} {backend : Text}
    (h : publishIndexed sha256 parse normalize now project targetId ticket backend result store =
      .ok (envelope, store')) : store' = store ∨ ∃ target native status tables job,
      target ∈ store.jobs.targets ∧ store.jobs.identified target ticket backend = some job ∧
        parse result.json = .ok native ∧
        persistIndex sha256 normalize store.tables ⟨target.project, target.sha256,
          ticket.revision, ticket.request, backend, store.jobs.made, native, status⟩ = .ok tables ∧
        publishResult now target ticket backend result store.jobs =
          .ok (envelope, store.jobs.published now target ticket backend status result.json) ∧
        store' = ⟨store.jobs.published now target ticket backend status result.json, tables⟩ := by
  simp only [publishIndexed, bind_ok, get_ok, inJobs_ok] at h
  obtain ⟨target, _, htarget, _, _, hget, envelope', middle, ⟨jobs', hpublish, hmiddle⟩, h⟩ := h
  obtain ⟨rfl, hmem, _⟩ := readTarget_ok htarget
  cases hget
  subst hmiddle
  obtain ⟨job, hident, hcases⟩ := publishResult_ok hpublish
  have hjob := (identified_some hident).1
  rw [hjob, Option.bind_some] at h
  rcases hcases with ⟨hresult, rfl⟩ | ⟨status, hresult, _, _, _, henvelope, rfl⟩
  · rw [hresult] at h
    cases pure_ok.mp h
    exact Or.inl rfl
  rw [hresult] at h
  simp only [bind_ok, checked_ok, indexPublication, get_ok, set_ok, pure_ok] at h
  obtain ⟨native, _, ⟨hnative, rfl⟩, _, last, ⟨_, _, hget, tables, _, ⟨hpersist, rfl⟩, hset⟩, h⟩ := h
  cases hget
  cases hset
  cases h
  subst henvelope
  exact Or.inr ⟨target, native, status, tables, job, hmem, hident, hnative, hpersist, hpublish, rfl⟩

theorem sound_of_publish {targetId : Text} {backend : Text}
    (h : store.Sound sha256 parse normalize texts) (htext : result.json ∈ texts)
    (hpublish : publishIndexed sha256 parse normalize now project targetId ticket backend result
      store = .ok (envelope, store')) : store'.Sound sha256 parse normalize texts := by
  rcases publishIndexed_ok hpublish with rfl |
    ⟨target, native, status, tables, job, hmem, hident, hnative, hpersist, hresult, rfl⟩
  · exact h
  have hexec : jobService.exec (now, .publish target ticket backend result) store.jobs =
      .ok (.result envelope, store.jobs.published now target ticket backend status result.json) :=
    map_ok.mpr ⟨envelope, _, hresult, rfl⟩
  obtain ⟨hjob, hproject, htarget, hrevision, hrequest⟩ := identified_some hident
  have hsources : (store.jobs.published now target ticket backend status result.json).sources =
      store.jobs.sources := by
    apply sources_rewrite
    exact fun _ => rfl
  obtain ⟨pubs, canon, hstands, hreplay, hsame⟩ := h.history
  have hkeyed := persistIndex_keyed hpersist h.keyed
  have hothers := persistIndex_others hpersist
  have hfits : tables.Fits target.project canon := by
    apply fits_of_keyed hkeyed
    intro q hq
    exact (hsame q).trans (hothers.owned hq)
  obtain ⟨canon', hpersist', hown, hothers'⟩ :=
    persistIndex_same hpersist (hsame target.project).symm hfits
  refine
    { numbered := exec_numbered h.numbered hexec
      targets := h.targets
      named := h.named
      texts := ?_
      keyed := hkeyed
      history := ⟨_, canon', ?_, replay_snoc.mpr ⟨canon, hreplay, hpersist'⟩, ?_⟩ }
  · intro e he
    rcases mem_append.mp he with he | he
    · exact h.texts e he
    · rw [mem_singleton.mp he]
      exact htext
  · apply rel_append
    · apply hstands.imp
      intro e p hp
      exact hp.mono ⟨by rw [hsources]; exact List.Subset.refl _, List.Subset.refl _⟩
    refine .cons ⟨target, native, ticket.revision, ticket.request, ?_, hmem, rfl, hnative, rfl⟩ .nil
    rw [hsources]
    have hrow := row_some_mem hjob
    have hid := row_some_key hjob
    have hsource : (ticket.id, target.project, target.id, ticket.revision, ticket.request) =
        job.source := by
      rw [Job.source, hid, hproject, htarget, hrevision, hrequest]
    rw [hsource]
    exact mem_map_of_mem hrow
  · intro q
    by_cases hq : q = target.project
    · rw [hq]
      exact hown.symm
    · exact ((hothers'.owned hq).symm.trans (hsame q)).trans (hothers.owned hq)

theorem clear_others (t : IndexTables) (project : Text) : t.SameOthers project (t.clear project) :=
  ⟨others_others.symm, others_others.symm, others_others.symm, others_others.symm,
    others_others.symm, others_others.symm⟩

theorem clear_owned (t : IndexTables) (project : Text) :
    IndexTables.empty.SameOwned project (t.clear project) :=
  ⟨owned_others_self.symm, owned_others_self.symm, owned_others_self.symm, owned_others_self.symm,
    owned_others_self.symm, owned_others_self.symm⟩

theorem clear_keyed {t : IndexTables} (h : t.Keyed) (project : Text) : (t.clear project).Keyed :=
  ⟨h.revisions.sublist (List.Sublist.map _ filter_sublist),
    h.entities.sublist (List.Sublist.map _ filter_sublist),
    h.relations.sublist (List.Sublist.map _ filter_sublist),
    h.claims.sublist (List.Sublist.map _ filter_sublist)⟩

/-- The object of a row of evidence is there, with the text that was published. -/
def Readable (sha256 : Text → Text) (objects : Objects) (e : Evidence) : Prop :=
  readObject sha256 objects (sha256 e.raw) = .ok e.raw

theorem readable_of_ok {text : Text} (h : readObject sha256 objects (sha256 e.raw) = .ok text)
    (hfree : ∀ a ∈ objects.map Prod.snd, sha256 a = sha256 e.raw → a = e.raw) :
    text = e.raw ∧ Readable sha256 objects e := by
  have hfound := h
  unfold readObject at h
  cases hlookup : objects.lookup (sha256 e.raw) with
  | none =>
    rw [hlookup] at h
    cases h
  | some found =>
    rw [hlookup] at h
    by_cases hsha : sha256 found = sha256 e.raw
    · simp only [if_pos hsha] at h
      cases h
      obtain ⟨before, after, hsplit, _⟩ := lookup_eq_some_iff.mp hlookup
      have hmem : text ∈ objects.map Prod.snd := by
        rw [hsplit]
        simp
      have heq := hfree text hmem hsha
      rw [heq] at hfound
      exact ⟨heq, hfound⟩
    · simp only [if_neg hsha] at h
      cases h

theorem target_self (htargets : (jobs.targets.map TargetRecord.id).Nodup)
    (hmem : target ∈ jobs.targets) (hid : target.id ≠ []) :
    jobs.target target.project target.id = some target := by
  obtain ⟨front, back, hsplit⟩ := append_of_mem hmem
  have hnodup := htargets
  rw [hsplit, map_append, map_cons, nodup_append, nodup_cons] at hnodup
  obtain ⟨_, ⟨hback, _⟩, hfront⟩ := hnodup
  have hnone : back.filter (fun t => t.project = target.project ∧
      (t.id = target.id ∨ target.id = [])) = [] := by
    rw [filter_eq_nil_iff]
    intro t ht hfound
    simp only [hid, or_false, decide_eq_true_eq] at hfound
    exact hback (hfound.2 ▸ mem_map_of_mem ht)
  rw [JobStore.target, hsplit, filter_append, filter_cons_of_pos (by simp), hnone]
  simp

/-- A row of evidence that is intact is read back as the publication that it stands
for. -/
theorem publication_of_stands (h : store.Sound sha256 parse normalize texts)
    (hstands : Stands parse store.jobs e p) (objects : Objects) :
    ∃ job, store.jobs.job e.job = some job ∧ (Readable sha256 objects e →
      store.jobs.publication sha256 parse objects (e, job) = .ok p) := by
  obtain ⟨target, native, revision, request, hjob, hmem, hproject, hnative, rfl⟩ := hstands
  obtain ⟨job, hrow, hsource⟩ := mem_map.mp hjob
  simp only [Job.source, Prod.mk.injEq] at hsource
  obtain ⟨hid, _, htarget, hrevision, hrequest⟩ := hsource
  have hfound : store.jobs.job e.job = some job := by
    rw [← hid]
    exact row_of_mem h.numbered.distinct hrow
  refine ⟨job, hfound, ?_⟩
  intro hread
  have htargeted := target_self h.targets hmem (h.named target hmem)
  rw [hproject, ← htarget] at htargeted
  simp only [JobStore.publication, except_bind_ok]
  refine ⟨e.raw, hread, ?_⟩
  simp only [htargeted, hnative, hrevision, hrequest, hproject]
  rfl

/-- One row of evidence, read and published again. -/
def republish (sha256 : Text → Text) (parse : Text → Access Json)
    (normalize : StaticInput → Access StaticIndex) (jobs : JobStore) (objects : Objects)
    (t : IndexTables) (row : Evidence × Job) : Access IndexTables := do
  let p ← jobs.publication sha256 parse objects row
  persistIndex sha256 normalize t p

/-- Reading the evidence of a project again is replaying its publications. The
induction is on the evidence and what it stands for. -/
theorem republish_iff (h : store.Sound sha256 parse normalize texts)
    (hfree : ∀ e ∈ store.jobs.evidence, ∀ a ∈ objects.map Prod.snd,
      sha256 a = sha256 e.raw → a = e.raw)
    {evidence : List Evidence} (hsub : evidence ⊆ store.jobs.evidence)
    (hstands : List.Forall₂ (Stands parse store.jobs) evidence pubs) :
    ((evidence.filter (fun e => e.project = project)).filterMap
        (fun e => (store.jobs.job e.job).map (fun job => (e, job)))).foldlM
          (republish sha256 parse normalize store.jobs objects) t = .ok v ↔
      (∀ e ∈ evidence, e.project = project → Readable sha256 objects e) ∧
        replay sha256 normalize (pubs.filter (fun p => p.project = project)) t = .ok v := by
  induction hstands generalizing t with
  | nil => simp [replay]
  | @cons e p evidence pubs hp _ ih =>
    have hrest : evidence ⊆ store.jobs.evidence := fun a ha => hsub (mem_cons_of_mem _ ha)
    by_cases hproject : e.project = project
    · have hproject' : p.project = project := hp.project_eq.trans hproject
      obtain ⟨job, hjob, hpublication⟩ := publication_of_stands h hp objects
      rw [filter_cons_of_pos (by simpa using hproject),
        filter_cons_of_pos (by simpa using hproject'), replay_cons,
        filterMap_cons_some (by rw [hjob]; rfl), foldlM_cons, except_bind_ok]
      constructor
      · rintro ⟨mid, hfirst, hfold⟩
        obtain ⟨q, hq, hpersist⟩ := except_bind_ok.mp hfirst
        obtain ⟨text, htext, _⟩ := except_bind_ok.mp hq
        have hread := (readable_of_ok htext (hfree e (hsub mem_cons_self))).2
        have hsame : q = p := by
          rw [hpublication hread] at hq
          cases hq
          rfl
        obtain ⟨hreads, hreplay⟩ := (ih hrest).mp hfold
        refine ⟨?_, mid, hsame ▸ hpersist, hreplay⟩
        intro a ha hown
        rcases mem_cons.mp ha with rfl | ha
        · exact hread
        · exact hreads a ha hown
      · rintro ⟨hreads, mid, hpersist, hreplay⟩
        have hread := hreads e mem_cons_self hproject
        refine ⟨mid, except_bind_ok.mpr ⟨p, hpublication hread, hpersist⟩, ?_⟩
        exact (ih hrest).mpr ⟨fun a ha => hreads a (mem_cons_of_mem _ ha), hreplay⟩
    · have hproject' : p.project ≠ project := by
        rw [hp.project_eq]
        exact hproject
      rw [filter_cons_of_neg (by simpa using hproject),
        filter_cons_of_neg (by simpa using hproject'), ih hrest]
      constructor
      · rintro ⟨hreads, hreplay⟩
        refine ⟨?_, hreplay⟩
        intro a ha hown
        rcases mem_cons.mp ha with rfl | ha
        · exact absurd hown hproject
        · exact hreads a ha hown
      · rintro ⟨hreads, hreplay⟩
        exact ⟨fun a ha => hreads a (mem_cons_of_mem _ ha), hreplay⟩

/-- A reindex makes the tables that were there, where it gets to its end, and it gets
there where the objects are intact and the deletes are allowed. -/
theorem rebuilt_same (h : store.Sound sha256 parse normalize texts)
    (hfree : ∀ e ∈ store.jobs.evidence, ∀ a ∈ objects.map Prod.snd,
      sha256 a = sha256 e.raw → a = e.raw) (project : Text) :
    (∀ v, store.rebuilt sha256 parse normalize project objects = .ok v →
      store.tables.SameOwned project v ∧ store.tables.SameOthers project v ∧ v.Keyed) ∧
    ((∀ e ∈ store.jobs.evidence, e.project = project → Readable sha256 objects e) →
      (store.tables.clear project).intact = true →
        ∃ v, store.rebuilt sha256 parse normalize project objects = .ok v) := by
  obtain ⟨pubs, canon, hstands, hreplay, hsame⟩ := h.history
  have hfits : canon.Fits project (store.tables.clear project) := by
    apply fits_of_keyed (replay_keyed hreplay empty_keyed)
    intro q hq
    exact ((clear_others store.tables project).owned hq).symm.trans (hsame q).symm
  obtain ⟨again, hagain, hown, hothers⟩ :=
    replay_owned hreplay (clear_owned store.tables project) hfits
  have hiff : ∀ v, (store.jobs.evidenceOf project).foldlM
      (republish sha256 parse normalize store.jobs objects) (store.tables.clear project) = .ok v ↔
        (∀ e ∈ store.jobs.evidence, e.project = project → Readable sha256 objects e) ∧
          replay sha256 normalize (pubs.filter (fun p => p.project = project))
            (store.tables.clear project) = .ok v :=
    fun v => republish_iff h hfree (List.Subset.refl _) hstands
  constructor
  · intro v hv
    simp only [IndexStore.rebuilt, except_bind_ok] at hv
    obtain ⟨cleared, hcleared, hfold⟩ := hv
    unfold IndexTables.cleared at hcleared
    split at hcleared
    · cases hcleared
      have hreplayed := ((hiff v).mp hfold).2
      rw [hagain] at hreplayed
      cases hreplayed
      exact ⟨(hsame project).symm.trans hown, (clear_others _ _).trans hothers,
        replay_keyed hagain (clear_keyed h.keyed project)⟩
    · cases hcleared
  · intro hreads hintact
    refine ⟨again, ?_⟩
    simp only [IndexStore.rebuilt, except_bind_ok]
    refine ⟨store.tables.clear project, ?_, (hiff again).mpr ⟨hreads, hagain⟩⟩
    rw [IndexTables.cleared, if_pos hintact]

theorem reindex_ok {count : Nat}
    (h : reindex sha256 parse normalize project objects store = .ok (count, store')) :
    ∃ v, store.rebuilt sha256 parse normalize project objects = .ok v ∧
      store' = { store with tables := v } := by
  simp only [reindex, bind_ok, get_ok] at h
  obtain ⟨_, _, hget, h⟩ := h
  cases hget
  split at h
  · simp only [bind_ok, checked_ok, set_ok, pure_ok] at h
    obtain ⟨v, _, ⟨hv, rfl⟩, _, _, hset, h⟩ := h
    cases hset
    cases h
    exact ⟨v, hv, rfl⟩
  · exact absurd h throw_ok

theorem sound_of_reindex {count : Nat} (h : store.Sound sha256 parse normalize texts)
    (hfree : ∀ e ∈ store.jobs.evidence, ∀ a ∈ objects.map Prod.snd,
      sha256 a = sha256 e.raw → a = e.raw)
    (hreindex : reindex sha256 parse normalize project objects store = .ok (count, store')) :
    store'.Sound sha256 parse normalize texts := by
  obtain ⟨v, hv, rfl⟩ := reindex_ok hreindex
  obtain ⟨hown, hothers, hkeyed⟩ := (rebuilt_same h hfree project).1 v hv
  obtain ⟨pubs, canon, hstands, hreplay, hsame⟩ := h.history
  refine { h with keyed := hkeyed, history := ⟨pubs, canon, hstands, hreplay, ?_⟩ }
  intro q
  by_cases hq : q = project
  · rw [hq]
    exact (hsame project).trans hown
  · exact (hsame q).trans (hothers.owned hq)

variable (projects : List Text)

theorem fresh_sound : (IndexStore.fresh projects).Sound sha256 parse normalize texts where
  numbered := (JobStore.Sound.fresh projects []).numbered
  targets := nodup_nil
  named := fun _ ht => by cases ht
  texts := fun _ he => by cases he
  keyed := empty_keyed
  history := ⟨[], .empty, .nil, rfl, fun q => .refl q _⟩

theorem sound_of_call (hdistinct : Distinguishes sha256 texts) {call : IndexCall} {a : Unit}
    (hcall : call.texts ⊆ texts) (h : store.Sound sha256 parse normalize texts)
    (hexec : (indexService sha256 parse normalize).exec (now, call) store = .ok (a, store')) :
    store'.Sound sha256 parse normalize texts := by
  cases call with
  | importTarget project freshId sha => exact sound_of_import h hexec
  | start project targetId request =>
    simp only [indexService, bind_ok, map_ok, inJobs_ok] at hexec
    obtain ⟨target, _, htarget, job, _, ⟨jobs', hstart, rfl⟩, hexec⟩ := hexec
    obtain ⟨rfl, _, _⟩ := readTarget_ok htarget
    cases hexec
    exact sound_of_start h hstart
  | claim project id =>
    simp only [indexService, map_ok, inJobs_ok] at hexec
    obtain ⟨ticket, _, ⟨jobs', hclaim, rfl⟩, hexec⟩ := hexec
    cases hexec
    exact sound_of_claim h hclaim
  | beat id token =>
    simp only [indexService, inJobs_ok] at hexec
    obtain ⟨jobs', hbeat, rfl⟩ := hexec
    exact sound_of_beat h hbeat
  | recover project =>
    simp only [indexService, map_ok, inJobs_ok] at hexec
    obtain ⟨ids, _, ⟨jobs', hrecover, rfl⟩, hexec⟩ := hexec
    cases hexec
    exact sound_of_recover h hrecover
  | publish project targetId ticket backend result =>
    simp only [indexService, map_ok] at hexec
    obtain ⟨envelope, _, hpublish, hexec⟩ := hexec
    cases hexec
    exact sound_of_publish h (hcall (mem_singleton.mpr rfl)) hpublish
  | reindex project objects =>
    simp only [indexService, map_ok] at hexec
    obtain ⟨count, _, hreindex, hexec⟩ := hexec
    cases hexec
    apply sound_of_reindex h _ hreindex
    exact fun e he a ha hsha => hdistinct a (hcall ha) e.raw (h.texts e he) hsha

theorem sound_run (hdistinct : Distinguishes sha256 texts) (calls : List (Nat × IndexCall))
    (hcalls : ∀ call ∈ calls, call.2.texts ⊆ texts) (h : store.Sound sha256 parse normalize texts) :
    ((indexService sha256 parse normalize).run store calls).Sound sha256 parse normalize texts := by
  induction calls generalizing store with
  | nil => exact h
  | cons call rest ih =>
    apply ih (fun c hc => hcalls c (mem_cons_of_mem _ hc))
    rcases Service.after_cases (indexService sha256 parse normalize) store call with hsame | ⟨a, hok⟩
    · rw [hsame]
      exact h
    · exact sound_of_call hdistinct (hcalls call mem_cons_self) h hok

/-- What a reindex call leaves of a store. -/
structure IndexStore.Reindexed (project : Text) (store store' : IndexStore) : Prop where
  jobs : store'.jobs = store.jobs
  owned : store.tables.SameOwned project store'.tables
  others : store.tables.SameOthers project store'.tables

theorem after_reindex (h : store.Sound sha256 parse normalize texts)
    (hfree : ∀ e ∈ store.jobs.evidence, ∀ a ∈ objects.map Prod.snd,
      sha256 a = sha256 e.raw → a = e.raw) : store.Reindexed project
      ((indexService sha256 parse normalize).after store (now, .reindex project objects)) := by
  cases hreindex : reindex sha256 parse normalize project objects store with
  | error e =>
    have hkept : (indexService sha256 parse normalize).after store
        (now, .reindex project objects) = store := by
      apply Service.after_error
      exact map_error hreindex
    rw [hkept]
    exact ⟨rfl, .refl project _, .refl project _⟩
  | ok answer =>
    obtain ⟨count, store'⟩ := answer
    have hafter : (indexService sha256 parse normalize).after store
        (now, .reindex project objects) = store' := by
      apply Service.after_ok
      exact map_ok.mpr ⟨count, store', hreindex, rfl⟩
    obtain ⟨v, hv, rfl⟩ := reindex_ok hreindex
    obtain ⟨hown, hothers, _⟩ := (rebuilt_same h hfree project).1 v hv
    rw [hafter]
    exact ⟨rfl, hown, hothers⟩

/-- The store after a run of calls. -/
def IndexStore.reached (sha256 : Text → Text) (parse : Text → Access Json)
    (normalize : StaticInput → Access StaticIndex) (projects : List Text)
    (calls : List (Nat × IndexCall)) : IndexStore :=
  (indexService sha256 parse normalize).run (.fresh projects) calls

/-- Reindexing a project leaves the index as it is: the rows of the project are the
same, so are those of all others, and where it fails nothing changes. It gets to its end
where the objects of the project are intact and no other project holds its rows. -/
theorem reindex_identity (calls : List (Nat × IndexCall)) (now : Nat)
    (project : Text) (objects : Objects) (hdistinct : Distinguishes sha256
      (calledTexts (calls ++ [(now, IndexCall.reindex project objects)]))) :
    let store := IndexStore.reached sha256 parse normalize projects calls
    let call := (now, IndexCall.reindex project objects)
    store.Reindexed project ((indexService sha256 parse normalize).after store call) ∧
      (∀ e, (indexService sha256 parse normalize).exec call store = .error e →
        (indexService sha256 parse normalize).after store call = store) ∧
      (project ∈ store.jobs.projects →
        (∀ e ∈ store.jobs.evidence, e.project = project → Readable sha256 objects e) →
        (store.tables.clear project).intact = true →
          ∃ store', (indexService sha256 parse normalize).exec call store = .ok ((), store')) := by
  intro store call
  have htexts : ∀ c ∈ calls, c.2.texts ⊆ calledTexts (calls ++ [call]) := by
    intro c hc a ha
    exact mem_flatMap.mpr ⟨c, mem_append_left _ hc, ha⟩
  have hsound : store.Sound sha256 parse normalize (calledTexts (calls ++ [call])) :=
    sound_run hdistinct calls htexts (fresh_sound projects)
  have hfree : ∀ e ∈ store.jobs.evidence, ∀ a ∈ objects.map Prod.snd,
      sha256 a = sha256 e.raw → a = e.raw := by
    intro e he a ha hsha
    refine hdistinct a ?_ e.raw (hsound.texts e he) hsha
    exact mem_flatMap.mpr
      ⟨call, mem_append_right _ (mem_singleton.mpr rfl), ha⟩
  refine ⟨after_reindex hsound hfree, fun e he => Service.after_error he, ?_⟩
  intro hproject hreads hintact
  obtain ⟨v, hv⟩ := (rebuilt_same hsound hfree project).2 hreads hintact
  have hexec : reindex sha256 parse normalize project objects store =
      .ok ((store.jobs.evidenceOf project).length, { store with tables := v }) := by
    simp only [reindex, bind_ok, get_ok]
    refine ⟨store, store, rfl, ?_⟩
    rw [if_pos hproject]
    simp only [bind_ok, checked_ok, set_ok, pure_ok]
    exact ⟨v, store, ⟨hv, rfl⟩, ⟨⟩, _, rfl, rfl⟩
  exact ⟨{ store with tables := v }, map_ok.mpr ⟨_, _, hexec, rfl⟩⟩

def inventoryRequest : JobRequest where
  project := "p"
  targetId := "tgt_1"
  artifactSha256 := "aa"
  backend := "xair"
  operation := "inventory"
  address := []
  view := "compact"
  arguments := "\x7b\x7d"
  wallMs := 1000
  outputBytes := 1000
  memoryBytes := 1000
  maxItems := 10
  idempotencyKey := []

/-- A program with segments, and a list of functions. -/
def programText : Text := "\x7b\"program\":\x7b\"segments\":[]\x7d\x7d"

def functionsText : Text := "\x7b\"functions\":[\x7b\"name\":\"main\"\x7d]\x7d"

/-- The digests of both texts, and of the scopes of the two requests. -/
def knownDigest (t : Text) : Text :=
  if t = programText then
    "0c9b6de8aa712c0350ccc84a7e9b02ed589183f910d9a590f2067fb6b8d8b843"
  else if t = functionsText then
    "8ee417a4b7fac4962dd49cd2b4700aab77d3154dbe072e969ae703d1d121a6ea"
  else if t = "[\"aa\",\"xair\",\"inventory\",\"\",\"compact\",\x7b\x7d]" then
    "ee4b68c355f8695bd2e5d9059ba928fa317b7d7b6c8d381eccc0d9edd4cf4705"
  else "eb74eb1dc75e9040b823dc142676a7c6382a1e7441c0b65dce508cd79f985887"

def parseKnown (t : Text) : Access Json :=
  if t = programText then .ok (.obj [("program", .obj [("segments", .arr [])])])
  else if t = functionsText then
    .ok (.obj [("functions", .arr [.obj [("name", .str "main")]])])
  else .error "parse_error.101"

/-- The function is an entity of an artifact whose layout is known. -/
def projectFunction (input : StaticInput) : Access StaticIndex :=
  if input.native.contains "functions" && input.layout.contains "segments" then
    .ok ⟨[.obj [("id", .str "entity_1"), ("kind", .str "function"), ("location", .null),
      ("name", .str "main")]], [], [], false⟩
  else .ok ⟨[], [], [], false⟩

/-- A target is imported, and the results of two jobs are published. -/
def publishedTwice : List (Nat × IndexCall) :=
  [(0, .importTarget "p" "1" "aa"), (1, .start "p" "tgt_1" inventoryRequest),
    (2, .publish "p" "tgt_1" ⟨0, 1, inventoryRequest, none⟩ "xair"
      ⟨"completed", programText, true⟩),
    (3, .start "p" "tgt_1" { inventoryRequest with operation := "functions" }),
    (4, .publish "p" "tgt_1" ⟨3, 4, { inventoryRequest with operation := "functions" }, none⟩
      "xair" ⟨"completed", functionsText, true⟩)]

/-- Two revisions, a layout and the entity that is found with it are there, and stay when the
project is indexed again. -/
theorem reindex_identity_published :
    let store := IndexStore.reached knownDigest parseKnown projectFunction ["p".toList] publishedTwice
    let objects := [programText, functionsText].map (fun t => (knownDigest t, t))
    (store.tables.revisions.length = 2 ∧ store.tables.layouts.length = 1 ∧
      store.tables.entities.length = 1) ∧ store.Reindexed "p".toList
      ((indexService knownDigest parseKnown projectFunction).after store
        (5, .reindex "p".toList objects)) :=
  ⟨by decide +kernel, (reindex_identity ["p".toList] publishedTwice 5 "p".toList _
    (by unfold Distinguishes; decide +kernel)).1⟩

end Indago
