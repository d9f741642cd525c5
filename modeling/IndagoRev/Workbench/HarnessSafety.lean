import IndagoRev.Workbench.HarnessExecution

/-!
# Every run of the harness keeps the invariant

Runs and workers are safe under the discipline, so that the invariant holds in
every state that the harness reaches, whatever happens in between.

Main results: `ensures_runAction` for a run, `harness_starts` for every call.
-/

namespace Indago

open StdText Tables Transactions Interleaving Program List

variable {sha256 : Text → Text} {dump : KnowledgeRecord → Text}
  {dumpRequest : ActionRequest → Text} {guarded : Bool}
variable {store store' : HarnessStore} {project id aid : Text} {n k : Nat}

variable {α : Type}

theorem commits_read {t : HarnessTx α}
    (h : ∀ store a store', t store = .ok (a, store') → store' = store) :
    t.Commits sha256 dump dumpRequest guarded n := by
  intro store a store' ht _
  rw [h store a store' ht]
  exact .refl _ n store

theorem commits_throw {e : String} :
    (throw e : HarnessTx α).Commits sha256 dump dumpRequest guarded n :=
  fun _ _ _ h _ => absurd h throw_ok

theorem commits_behind {α β : Type} {x : HarnessTx α} {f : α → HarnessTx β}
    (hread : ∀ store a store', x store = .ok (a, store') → store' = store)
    (hf : ∀ a, (f a).Commits sha256 dump dumpRequest guarded n) :
    (x >>= f).Commits sha256 dump dumpRequest guarded n := by
  intro store b store' h hsound
  obtain ⟨a, middle, hx, hrest⟩ := bind_ok.mp h
  rw [hread store a middle hx] at hrest
  exact hf a store b store' hrest hsound

@[simp] theorem overJobs_ok {t : JobTx α} {r : α × HarnessStore} : overJobs t store = .ok r ↔
      ∃ jobs, t store.jobs = .ok (r.1, jobs) ∧ r.2 = { store with jobs := jobs } := by
  unfold overJobs
  cases h : t store.jobs with
  | error e => simp
  | ok answer =>
    obtain ⟨a, s⟩ := r
    obtain ⟨b, jobs⟩ := answer
    simp only [Except.ok.injEq, Prod.mk.injEq]
    constructor
    · rintro ⟨rfl, rfl⟩
      exact ⟨jobs, ⟨rfl, rfl⟩, rfl⟩
    · rintro ⟨_, ⟨rfl, rfl⟩, rfl⟩
      exact ⟨rfl, rfl⟩

theorem commits_overJobs {t : JobTx α} :
    (overJobs t).Commits sha256 dump dumpRequest guarded n := by
  intro store a store' h _
  obtain ⟨jobs, _, hstore⟩ := overJobs_ok.mp h
  dsimp only at hstore
  rw [hstore]
  exact commits_same rfl rfl rfl

variable {env : HarnessInput}

theorem commits_put {request : PutRequest} {internal : Bool} :
    (overKnowledge (putRecord sha256 dump env.freshId env.createdAt request internal none)).Commits
      sha256 dump dumpRequest guarded n := by
  intro store record store' h _
  obtain ⟨knowledge, hput, hstore⟩ := overKnowledge_ok.mp h
  dsimp only at hput hstore
  obtain ⟨hfound, _⟩ := putRecord_ok hput
  rw [hstore]
  have hrecords : knowledge.records = store.knowledge.records ++ [record.row sha256 dump] := by
    rw [hfound.written]
    rfl
  apply commits_knowledge
  · exact hfound.sound
  · rw [hrecords]
    exact prefix_append _ _
  · intro found hmem
    rw [hrecords] at hmem
    rcases mem_append.mp hmem with hold | hnew
    · exact Or.inl hold
    · rw [mem_singleton.mp hnew]
      exact Or.inr hfound.origin

theorem changeLibrary_ok {change : LibraryChange} {a : Unit}
    (h : changeLibrary change store = .ok (a, store')) :
    ∃ library, store.knowledge.library.change change = .ok library ∧
      store' = { store with knowledge := { store.knowledge with library := library } } := by
  simp only [changeLibrary, bind_ok, get_ok] at h
  obtain ⟨_, _, hget, h⟩ := h
  cases hget
  cases hchange : store.knowledge.library.change change with
  | error e =>
    rw [hchange] at h
    exact absurd h throw_ok
  | ok library =>
    rw [hchange] at h
    cases h
    exact ⟨library, rfl, rfl⟩

theorem commits_changeLibrary {change : LibraryChange} :
    (changeLibrary change).Commits sha256 dump dumpRequest guarded n := by
  intro store a store' h _
  obtain ⟨library, hchange, rfl⟩ := changeLibrary_ok h
  apply commits_knowledge
  · intro hsound
    have hexec : (knowledgeService sha256 dump).exec (.library change) store.knowledge =
        .ok (.changed, { store.knowledge with library := library }) := by
      simp only [knowledgeService, hchange]
    exact (hsound.exec hexec).1
  · exact prefix_refl _
  · exact fun found hmem => Or.inl hmem

theorem commits_addTarget {target : TargetRecord} :
    (addTarget target).Commits sha256 dump dumpRequest guarded n := by
  intro store a store' h hsound
  simp only [addTarget, bind_ok, modify_ok] at h
  obtain ⟨_, middle, hchange, h⟩ := h
  cases h
  exact (commits_changeLibrary store _ middle hchange hsound).trans (commits_same rfl rfl rfl)

theorem normalizeAgain_ok {inv : Investigation}
    {request : ActionRequest} {r : ActionRequest × HarnessStore}
    (h : normalizeAgain env inv request store = .ok r) :
    (request.work.workbench = true ∧ r.1.work.granted inv = .ok ()) ∧ r.2 = store := by
  simp only [normalizeAgain, bind_ok, get_ok] at h
  obtain ⟨_, _, hget, h⟩ := h
  cases hget
  split at h
  · exact absurd h throw_ok
  next hworkbench =>
    cases hselect : inv.selectComponent (some request.project) (some request.targetId)
        (some request.artifactSha256) with
    | error e =>
      rw [hselect] at h
      exact absurd h throw_ok
    | ok c =>
      rw [hselect] at h
      dsimp only at h
      cases hnormal : normalizeWorkbench env store inv request.draft c with
      | error e =>
        rw [hnormal] at h
        exact absurd h throw_ok
      | ok normal =>
        rw [hnormal] at h
        cases pure_ok.mp h
        exact ⟨⟨by simpa using hworkbench, (normalizeWorkbench_ok hnormal).2⟩, rfl⟩

variable {action : ActionRecord} {r : ActionResult × HarnessStore}

/-- A recovered result names the stored revision. -/
theorem recoverPublication_ok
    (h : recoverPublication sha256 dump dumpRequest env action store = .ok r) :
    (∃ publication found shown, action.publication = some publication ∧
      store.knowledge.record action.project publication.knowledgeId publication.revision =
        some found ∧
      showKnowledge sha256 dump store.knowledge action.project publication.knowledgeId
        publication.revision = .ok shown ∧
      r.1.knowledge = some (shown.record.id, shown.record.revision)) ∧ r.2 = store := by
  simp only [recoverPublication, bind_ok, get_ok] at h
  obtain ⟨_, _, hget, h⟩ := h
  cases hget
  cases hpublication : action.publication with
  | none =>
    rw [hpublication] at h
    exact absurd h throw_ok
  | some publication =>
    rw [hpublication] at h
    dsimp only at h
    split at h
    · exact absurd h throw_ok
    cases hfound : store.knowledge.record action.project publication.knowledgeId
        publication.revision with
    | none =>
      rw [hfound] at h
      exact absurd h throw_ok
    | some found =>
      rw [hfound] at h
      dsimp only at h
      split at h
      · exact absurd h throw_ok
      cases hshown : showKnowledge sha256 dump store.knowledge action.project
          publication.knowledgeId publication.revision with
      | error e =>
        rw [hshown] at h
        exact absurd h throw_ok
      | ok shown =>
        rw [hshown] at h
        dsimp only at h
        split at h
        · exact absurd h throw_ok
        cases hderived : derivedReceipt store action.request shown.record with
        | error e =>
          rw [hderived] at h
          exact absurd h throw_ok
        | ok derived =>
          rw [hderived] at h
          cases pure_ok.mp h
          exact ⟨⟨publication, found, shown, rfl, hfound, hshown, rfl⟩, rfl⟩

theorem decorated_record {knowledge : KnowledgeStore} {record : KnowledgeRecord}
    {shown : Decorated} (h : decorated sha256 dump knowledge project record = .ok shown) :
    shown.record = record := by
  simp only [decorated, except_bind_ok] at h
  obtain ⟨_, _, h⟩ := h
  cases h
  rfl

theorem recoverPublication_tells (hsound : store.knowledge.Sound sha256 dump)
    (h : recoverPublication sha256 dump dumpRequest env action store = .ok r) :
    ∃ publication, action.publication = some publication ∧ r.1.Tells publication := by
  obtain ⟨⟨publication, found, shown, hpublication, hfound, hshown, hknowledge⟩, _⟩ :=
    recoverPublication_ok h
  refine ⟨publication, hpublication, fun _ => ?_⟩
  have hname : found.name = (action.project, publication.knowledgeId, publication.revision) :=
    row_some_key hfound
  simp only [RecordRow.name, Prod.mk.injEq] at hname
  obtain ⟨hproject, hid, hrevision⟩ := hname
  have hrow := hsound.rows found (row_some_mem hfound)
  rw [showKnowledge, ← hproject, ← hid, ← hrevision, hsound.load_row (row_some_mem hfound)] at hshown
  have hrecord : shown.record = found.record := decorated_record hshown
  rw [hknowledge, hrecord, hrow.id, hrow.revision, hid, hrevision]

theorem jobTarget_same {request : JobRequest} {r : TargetRecord × HarnessStore}
    (h : jobTarget request store = .ok r) : r.2 = store := by
  simp only [jobTarget, bind_ok, get_ok] at h
  obtain ⟨_, _, hget, h⟩ := h
  cases hget
  cases htarget : store.target request.project request.targetId with
  | none =>
    rw [htarget] at h
    exact absurd h throw_ok
  | some target =>
    rw [htarget] at h
    cases pure_ok.mp h
    rfl

/-- All actions of a store are still there. -/
def HarnessStore.Kept (store store' : HarnessStore) : Prop :=
  ∀ project id row, store.action project id = some row →
    ∃ row', store'.action project id = some row' ∧ row.Keeps row'

theorem HarnessStore.Kept.refl (store : HarnessStore) : store.Kept store :=
  fun _ _ row h => ⟨row, h, .refl row⟩

theorem HarnessStore.Kept.trans {a b c : HarnessStore} (h : a.Kept b) (h' : b.Kept c) :
    a.Kept c := by
  intro project id row hrow
  obtain ⟨middle, hmiddle, hfirst⟩ := h project id row hrow
  obtain ⟨row', hrow', hsecond⟩ := h' project id middle hmiddle
  exact ⟨row', hrow', hfirst.trans hsecond⟩

theorem HarnessStore.Evolves.kept (h : store.Evolves guarded store') : store.Kept store' := by
  intro project id row hrow
  obtain ⟨row', hrow', hevolves⟩ := h.actions project id row hrow
  exact ⟨row', hrow', hevolves.toKeeps⟩

/-- A program that keeps the discipline wherever it starts. -/
def Steady {ρ α : Type} (sha256 : Text → Text) (dump : KnowledgeRecord → Text)
    (dumpRequest : ActionRequest → Text) (guarded : Bool) (n : Nat) (m : HarnessProgram ρ α) :
    Prop :=
  ∀ data store, Ensures (harnessDiscipline sha256 dump dumpRequest guarded) n m
    (fun _ _ store' => store.Kept store') data store

section Rules

variable {ρ α β : Type} {t : HarnessInput → HarnessTx α}

/-- An access under the discipline, with what holds before it and what it
establishes. -/
theorem ensures_query {label : HarnessLabel} {data : ρ}
    (pre : HarnessStore → Prop) {post : Except String α → ρ → HarnessStore → Prop}
    (hpre : pre store) (hstable : ∀ s s', pre s → s.Relies n s' → pre s')
    (hok : ∀ env s a s' k, pre s → s.Sound sha256 dump dumpRequest k →
      (harnessDiscipline sha256 dump dumpRequest guarded).meets n label s → t env s = .ok (a, s') →
      (harnessDiscipline sha256 dump dumpRequest guarded).Commits n s s' ∧ post (.ok a) data s')
    (herror : ∀ e s, pre s → post (.error e) data s) :
    Ensures (harnessDiscipline sha256 dump dumpRequest guarded) n (query label t) post
      data store := by
  apply ensures_atomically
  intro s hrely k hk hinv hmeets
  have hs := hstable store s hpre hrely
  refine ⟨trivial, ?_⟩
  intro env
  constructor
  · intro a s' ht
    by_cases hbusy : env.busy = true
    · rw [if_pos hbusy] at ht
      exact absurd ht throw_ok
    · rw [if_neg hbusy] at ht
      exact hok env s a s' k hs hinv hmeets ht
  · intro e _
    exact herror e s hs

theorem steady_pure {a : α} :
    Steady sha256 dump dumpRequest guarded n (pure a : HarnessProgram ρ α) :=
  fun _ store => ensures_pure (.refl store)

theorem steady_throw {e : String} :
    Steady sha256 dump dumpRequest guarded n (throw e : HarnessProgram ρ α) :=
  fun _ store => ensures_throw (.refl store)

theorem Steady.from {m : HarnessProgram ρ α} (h : Steady sha256 dump dumpRequest guarded n m)
    {data : ρ} {before : HarnessStore} (hbefore : before.Kept store) :
    Ensures (harnessDiscipline sha256 dump dumpRequest guarded) n m
      (fun _ _ store' => before.Kept store') data store :=
  (h data store).mono (fun _ _ _ hkept => hbefore.trans hkept)

/-- Steady programs are closed under sequencing. -/
theorem Steady.bind {m : HarnessProgram ρ α} {f : α → HarnessProgram ρ β}
    (h : Steady sha256 dump dumpRequest guarded n m)
    (hf : ∀ a, Steady sha256 dump dumpRequest guarded n (f a)) :
    Steady sha256 dump dumpRequest guarded n (m >>= f) := by
  intro data store
  apply ensures_bind
  apply (h data store).mono
  intro x data' store' hkept
  cases x with
  | ok a => exact (hf a).from hkept
  | error e => exact hkept

theorem steady_query {label : HarnessLabel}
    (h : ∀ env, (t env).Commits sha256 dump dumpRequest guarded n) :
    Steady sha256 dump dumpRequest guarded n (query label t : HarnessProgram ρ α) := by
  intro data store
  refine ensures_query store.Kept (.refl store) ?_ ?_ (fun _ _ hs => hs)
  · exact fun s s' hs hrelies => hs.trans hrelies.actions
  · intro env s a s' k hs hsound _ ht
    have hcommits := h env s a s' ht ⟨k, hsound⟩
    exact ⟨hcommits, hs.trans hcommits.evolves.kept⟩

end Rules

variable (opts : ActionOptions)

/-- The action of a run is static. -/
def ReadOnly (store : HarnessStore) : Prop :=
  ∃ row, store.action opts.project opts.action = some row ∧
    row.record.request.work.workbench = false

/-- The stored row has the publication of a record that was read before. -/
def Pointed (action : ActionRecord) (store : HarnessStore) : Prop :=
  ∀ publication, action.publication = some publication →
    ∃ row, store.action opts.project opts.action = some row ∧
      row.record.publication = some publication

/-- What a run knows of the result that it settles with: the outcome is unknown, or
it tells the publication that is stored, or nothing was dispatched. -/
inductive Answered (opts : ActionOptions) (result : ActionResult) (store : HarnessStore) : Prop where
  | unknown (h : result.outcomeUnknown = true)
  | told (row : ActionRow) (publication : Publication)
      (hlookup : store.action opts.project opts.action = some row)
      (hpublication : row.record.publication = some publication) (h : result.Tells publication)
  | readOnly (h : ReadOnly opts store)
  | undispatched (action : ActionRecord) (hcopy : Copy opts action store)
      (hworkbench : action.request.work.workbench = true) (h : action.dispatchStarted = false)

/-- Where a run stands that threw: a mutation was dispatched, or nothing was. -/
inductive Failing (opts : ActionOptions) (data : RunLocal) (store : HarnessStore) : Prop where
  | dispatched (hworkbench : data.action.request.work.workbench = true)
      (h : data.action.dispatchStarted = true)
  | readOnly (h : ReadOnly opts store)
  | undispatched (action : ActionRecord) (hcopy : Copy opts action store)
      (hworkbench : action.request.work.workbench = true) (h : action.dispatchStarted = false)

/-- How the operation of a run ends. -/
def Ends : Except String ActionResult → RunLocal → HarnessStore → Prop
  | .ok result, _, store => Answered opts result store
  | .error _, data, store => Failing opts data store

section Knowledge

variable {opts : ActionOptions} {action : ActionRecord} {result : ActionResult}

theorem ReadOnly.kept (h : ReadOnly opts store) (hkept : store.Kept store') :
    ReadOnly opts store' := by
  obtain ⟨row, hrow, hstatic⟩ := h
  obtain ⟨row', hrow', hkeeps⟩ := hkept _ _ row hrow
  refine ⟨row', hrow', ?_⟩
  rw [request_eq (identity_eq hkeeps.identity).2.2.2.2.2]
  exact hstatic

theorem Pointed.kept (h : Pointed opts action store) (hkept : store.Kept store') :
    Pointed opts action store' := by
  intro publication hpublication
  obtain ⟨row, hrow, hpointed⟩ := h publication hpublication
  obtain ⟨row', hrow', hkeeps⟩ := hkept _ _ row hrow
  exact ⟨row', hrow', hkeeps.published publication hpointed⟩

theorem Copy.pointed (h : Copy opts action store) : Pointed opts action store := by
  intro publication hpublication
  obtain ⟨row, hrow, _, hpublished⟩ := h.stored
  exact ⟨row, hrow, hpublished publication hpublication⟩

theorem Copy.readOnly (h : Copy opts action store)
    (hstatic : action.request.work.workbench = false) : ReadOnly opts store := by
  obtain ⟨row, hrow, hidentity, _⟩ := h.stored
  exact ⟨row, hrow, by rw [request_eq hidentity]; exact hstatic⟩

/-- An answer stays right whatever the others do. -/
theorem Answered.stable (h : Answered opts result store)
    (hrelies : store.Relies opts.runner store') : Answered opts result store' := by
  cases h with
  | unknown h => exact .unknown h
  | told row publication hlookup hpublication h =>
    obtain ⟨row', hrow', hkeeps⟩ := hrelies.actions _ _ row hlookup
    exact .told row' publication hrow' (hkeeps.published publication hpublication) h
  | readOnly h => exact .readOnly (h.kept hrelies.actions)
  | undispatched action hcopy hworkbench h =>
    exact .undispatched action (hcopy.stable hrelies) hworkbench h

theorem Answered.answers (h : Answered opts result store)
    (hsound : store.Sound sha256 dump dumpRequest k) : Answers opts result store := by
  intro row hrow hrunner publication hpublication
  have hsoundRow := hsound.rows row (row_some_mem hrow)
  cases h with
  | unknown h => exact .of_unknown h
  | told row' publication' hlookup hpublication' h =>
    rw [hrow] at hlookup
    cases hlookup
    rw [hpublication] at hpublication'
    cases hpublication'
    exact h
  | readOnly h =>
    obtain ⟨row', hrow', hstatic⟩ := h
    rw [hrow] at hrow'
    cases hrow'
    have hnone := (hsoundRow.static hstatic).1
    rw [hpublication] at hnone
    cases hnone
  | undispatched action hcopy hworkbench h =>
    have hsame := hcopy.held row hrow hrunner hworkbench h
    have hdispatched := hsoundRow.dispatched (by rw [hpublication]; rfl)
    rw [hsame, h] at hdispatched
    cases hdispatched

end Knowledge

section Mutations

variable {ρ : Type} {opts : ActionOptions}

theorem ensures_readAction {data : ρ} :
    Ensures (harnessDiscipline sha256 dump dumpRequest guarded) opts.runner (readAction opts)
      (fun x data' s => data' = data ∧ ∀ saved, x = .ok saved → Pointed opts saved s)
      data store := by
  refine ensures_query (fun _ => True) trivial (fun _ _ _ _ => trivial) ?_ ?_
  · intro env s saved s' k _ _ _ h
    simp only [bind_ok, actionRecord_ok, pure_ok] at h
    obtain ⟨found, _, ⟨hfound, _, hsame⟩, h⟩ := h
    cases hsame
    cases h
    refine ⟨.refl _ opts.runner s, rfl, ?_⟩
    intro action haction publication hpublication
    cases haction
    exact ⟨found, hfound, hpublication⟩
  · exact fun _ _ _ => ⟨rfl, fun _ h => by cases h⟩

theorem ensures_recoverOr {diagnostic : String} {data : ρ} (hpointed : Pointed opts action store) :
    Ensures (harnessDiscipline sha256 dump dumpRequest guarded) opts.runner
      (recoverOr sha256 dump dumpRequest action diagnostic)
      (fun x data' s => data' = data ∧ ∀ result, x = .ok result → Answered opts result s)
      data store := by
  unfold recoverOr
  split
  · refine ensures_query (Pointed opts action) hpointed
      (fun s s' hs hrelies => hs.kept hrelies.actions) ?_ ?_
    · intro env s result s' k hs hsound _ h
      obtain ⟨publication, hpublication, htells⟩ := recoverPublication_tells hsound.knowledge h
      obtain ⟨row, hrow, hstored⟩ := hs publication hpublication
      have hsame : s' = s := (recoverPublication_ok h).2
      rw [hsame]
      refine ⟨.refl _ opts.runner s, rfl, ?_⟩
      intro result' hresult
      cases hresult
      exact .told row publication hrow hstored htells
    · exact fun _ _ _ => ⟨rfl, fun _ h => by cases h⟩
  · refine ensures_pure ⟨rfl, ?_⟩
    intro result hresult
    cases hresult
    exact .unknown rfl

/-- The stored record is read again, and its publication recovered. -/
theorem ensures_readBack {diagnostic : String} {data : ρ} :
    Ensures (harnessDiscipline sha256 dump dumpRequest guarded) opts.runner
      (do let saved ← readAction opts
          recoverOr sha256 dump dumpRequest saved diagnostic)
      (fun x data' s => data' = data ∧ ∀ result, x = .ok result → Answered opts result s)
      data store := by
  apply ensures_bind
  apply ensures_readAction.mono
  rintro x data' store' ⟨rfl, hpointed⟩
  cases x with
  | ok saved => exact ensures_recoverOr (hpointed saved rfl)
  | error e => exact ⟨rfl, fun _ h => by cases h⟩

variable {data : RunLocal}

/-- The mutation of a run is dispatched from the copy of the record. -/
theorem ensures_markDispatch (hcopy : Copy opts data.action store)
    (hworkbench : data.action.request.work.workbench = true)
    (hdispatch : data.action.dispatchStarted = false) :
    Ensures (harnessDiscipline sha256 dump dumpRequest guarded) opts.runner
      (query .access (fun env => markDispatch env opts data.action) :
        HarnessProgram RunLocal Dispatch) (fun x data' s => data' = data ∧ match x with
        | .ok .lost | .ok .marked => True
        | _ => Copy opts data.action s) data store := by
  refine ensures_query (fun s => Copy opts data.action s) hcopy
    (fun s s' hs hrelies => hs.stable hrelies) ?_ (fun _ _ hs => ⟨rfl, hs⟩)
  intro env s outcome s' k hs hsound _ ht
  simp only [markDispatch, bind_ok, loadInvestigation_ok] at ht
  obtain ⟨found, _, ⟨_, hsame⟩, ht⟩ := ht
  cases hsame
  split at ht
  · cases pure_ok.mp ht
    exact ⟨.refl _ opts.runner s, rfl, hs⟩
  simp only [bind_ok, get_ok] at ht
  obtain ⟨_, _, hget, ht⟩ := ht
  cases hget
  cases hlookup : s.action opts.project opts.action with
  | none =>
    rw [hlookup] at ht
    cases pure_ok.mp ht
    exact ⟨.refl _ opts.runner s, rfl, trivial⟩
  | some current =>
    rw [hlookup] at ht
    dsimp only at ht
    split at ht
    · cases pure_ok.mp ht
      exact ⟨.refl _ opts.runner s, rfl, trivial⟩
    next hheld =>
      simp only [bind_ok, updateAction_ok, pure_ok] at ht
      obtain ⟨_, _, hmarked, ht⟩ := ht
      cases hmarked
      cases ht
      have hrunner : current.runner = some opts.runner := by
        by_contra hother
        exact hheld (Or.inl hother)
      exact ⟨commits_mark hs hlookup hrunner hworkbench hdispatch, rfl, trivial⟩

theorem Copy.of_actions (h : Copy opts action store)
    (hactions : store'.actions = store.actions) : Copy opts action store' := by
  apply h.stable
  exact {
    actions := fun _ _ row hrow =>
      ⟨row, by rw [HarnessStore.action, hactions]; exact hrow, .refl row⟩
    held := fun _ _ row hrow hrunner => by
      rw [HarnessStore.action, hactions] at hrow
      exact ⟨row, hrow, hrunner, fun _ _ => rfl⟩ }

theorem ensures_normalizeAgain (hcopy : Copy opts data.action store) :
    Ensures (harnessDiscipline sha256 dump dumpRequest guarded) opts.runner
      (query .access (fun env => normalizeAgain env data.inv data.action.request) :
        HarnessProgram RunLocal ActionRequest)
      (fun _ data' s => data' = data ∧ Copy opts data.action s) data store := by
  refine ensures_query (fun s => Copy opts data.action s) hcopy
    (fun s s' hs hrelies => hs.stable hrelies) ?_ (fun _ _ hs => ⟨rfl, hs⟩)
  intro env s normal s' k hs _ _ h
  have hsame : s' = s := (normalizeAgain_ok h).2
  rw [hsame]
  exact ⟨.refl _ opts.runner s, rfl, hs⟩

/-- A mutation answers what fits its row, or fails where that can be handled. -/
theorem ensures_runWorkbench (hcopy : Copy opts data.action store)
    (hworkbench : data.action.request.work.workbench = true) :
    Ensures (harnessDiscipline sha256 dump dumpRequest guarded) opts.runner
      (runWorkbench sha256 dump dumpRequest opts) (Ends opts) data store := by
  unfold runWorkbench
  apply ensures_bind
  apply ensures_get
  dsimp only
  split
  · next hdispatched =>
      apply (ensures_recoverOr hcopy.pointed).mono
      rintro x data' store' ⟨rfl, hanswered⟩
      cases x with
      | ok result => exact hanswered result rfl
      | error e => exact .dispatched hworkbench hdispatched
  next hdispatch =>
    have hundispatched : data.action.dispatchStarted = false := by simpa using hdispatch
    apply ensures_bind
    apply (ensures_normalizeAgain hcopy).mono
    rintro x data' middle ⟨rfl, hcopy'⟩
    cases x with
    | error e => exact .undispatched data'.action hcopy' hworkbench hundispatched
    | ok normal =>
      dsimp only
      apply ensures_bind
      apply (ensures_markDispatch hcopy' hworkbench hundispatched).mono
      rintro x dataMarked marked ⟨rfl, hmarked⟩
      cases x with
      | error e => exact .undispatched dataMarked.action hmarked hworkbench hundispatched
      | ok outcome =>
        cases outcome with
        | cancelled =>
          exact ensures_pure
            (.undispatched dataMarked.action hmarked hworkbench hundispatched)
        | lost =>
          apply ensures_bind
          apply ensures_modify
          exact ensures_throw (.dispatched hworkbench rfl)
        | marked =>
          apply ensures_bind
          apply ensures_modify
          apply ensures_readBack.mono
          rintro x dataRead read ⟨rfl, hanswered⟩
          cases x with
          | ok result => exact hanswered result rfl
          | error e => exact .dispatched hworkbench rfl

end Mutations

section Static

variable {opts : ActionOptions}

theorem steady_executeJob {job : Job} :
    Steady sha256 dump dumpRequest guarded n (executeJob job) := by
  unfold executeJob
  refine Steady.bind (steady_query (fun _ => commits_overJobs)) ?_
  intro prior
  split
  · exact steady_pure
  refine Steady.bind (steady_query (fun _ => commits_overJobs)) ?_
  intro ticket
  apply steady_query
  intro env
  refine commits_behind (fun _ _ _ h => jobTarget_same h) ?_
  intro target
  split
  · exact commits_throw
  · exact commits_overJobs

theorem ensures_prepareJob {request : JobRequest} {data : RunLocal}
    (hcopy : Copy opts action store) :
    Ensures (harnessDiscipline sha256 dump dumpRequest guarded) opts.runner (prepareJob request)
      (fun _ _ s => Copy opts action s) data store := by
  refine ensures_query (fun s => Copy opts action s) hcopy
    (fun s s' hs hrelies => hs.stable hrelies) ?_ (fun _ _ hs => hs)
  intro env s job s' k hs _ _ h
  simp only [bind_ok] at h
  obtain ⟨target, _, htarget, h⟩ := h
  cases (jobTarget_same htarget : _ = s)
  split at h
  · exact absurd h throw_ok
  · split at h
    · exact absurd h throw_ok
    · obtain ⟨jobs, _, hstore⟩ := overJobs_ok.mp h
      dsimp only at hstore
      rw [hstore]
      exact ⟨commits_same rfl rfl rfl, hs.of_actions rfl⟩

/-- The job of a static run is stored in the copy of the record. -/
theorem ensures_storeJob {data : RunLocal} {job : Nat}
    (hcopy : Copy opts action store) (hstatic : action.request.work.workbench = false) :
    Ensures (harnessDiscipline sha256 dump dumpRequest guarded) opts.runner
      (query (.storeJob opts.project opts.action)
        (fun _ => saveAction { action with jobId := some job }) : HarnessProgram RunLocal Unit)
      (fun _ _ s => ReadOnly opts s) data store := by
  refine ensures_query (fun s => Copy opts action s) hcopy
    (fun s s' hs hrelies => hs.stable hrelies) ?_ (fun _ s hs => hs.readOnly hstatic)
  intro env s a s' k hs hsound hmeets ht
  have hcommits : (harnessDiscipline sha256 dump dumpRequest guarded).Commits opts.runner s
      (s.withAction action.project action.id
        (fun r => { r with record := { action with jobId := some job } })) :=
    commits_storeJob hsound hs hstatic hmeets
  rw [saveAction_ok] at ht
  cases ht
  exact ⟨hcommits, (hs.readOnly hstatic).kept hcommits.evolves.kept⟩

/-- An analysis answers what fits its row, or fails where that can be handled. -/
theorem ensures_runStatic {data : RunLocal} (hcopy : Copy opts data.action store)
    (hstatic : data.action.request.work.workbench = false) :
    Ensures (harnessDiscipline sha256 dump dumpRequest guarded) opts.runner (runStatic opts)
      (Ends opts) data store := by
  unfold runStatic
  apply ensures_bind
  apply ensures_get
  dsimp only
  split
  · exact ensures_throw (.readOnly (hcopy.readOnly hstatic))
  split
  · exact ensures_throw (.readOnly (hcopy.readOnly hstatic))
  apply ensures_bind
  apply (ensures_prepareJob hcopy).mono
  intro x dataPrepared prepared hcopy'
  cases x with
  | error e => exact .readOnly (hcopy'.readOnly hstatic)
  | ok job =>
    apply ensures_bind
    apply ensures_modify
    apply ensures_bind
    apply (ensures_storeJob hcopy' hstatic).mono
    intro x dataStored stored hreadOnly
    cases x with
    | error e => exact .readOnly hreadOnly
    | ok _ =>
      dsimp only
      split
      · exact ensures_pure (.readOnly hreadOnly)
      · apply ensures_bind
        apply (steady_executeJob dataStored stored).mono
        intro x dataEnd ended hkept
        cases x with
        | ok result => exact ensures_pure (.readOnly (hreadOnly.kept hkept))
        | error e => exact .readOnly (hreadOnly.kept hkept)
      · split
        · exact ensures_pure (.readOnly hreadOnly)
        · exact ensures_pure (.readOnly hreadOnly)

end Static

variable {opts : ActionOptions}

theorem ensures_afterFailure {data : RunLocal} {e : String} (hfailing : Failing opts data store) :
    Ensures (harnessDiscipline sha256 dump dumpRequest guarded) opts.runner
      (afterFailure sha256 dump dumpRequest opts e)
      (fun x _ s => ∀ result, x = .ok result → Answered opts result s) data store := by
  unfold afterFailure
  apply ensures_bind
  apply ensures_get
  dsimp only
  split
  · apply ensures_tryCatch
    apply ensures_readBack.mono
    rintro x data' store' ⟨_, hanswered⟩
    cases x with
    | ok result => exact hanswered
    | error e =>
      refine ensures_pure ?_
      intro result hresult
      cases hresult
      exact .unknown rfl
  · next hnot =>
      refine ensures_pure ?_
      intro result hresult
      cases hresult
      cases hfailing with
      | dispatched hworkbench h => exact absurd ⟨hworkbench, h⟩ hnot
      | readOnly h => exact .readOnly h
      | undispatched action hcopy hworkbench h => exact .undispatched action hcopy hworkbench h

/-- Every run of an action keeps the discipline. -/
theorem ensures_runAction {data : RunLocal} (hcopy : Copy opts data.action store) :
    Ensures (harnessDiscipline sha256 dump dumpRequest guarded) opts.runner
      (runAction sha256 dump dumpRequest opts) (fun _ _ _ => True) data store := by
  have hperform : Ensures (harnessDiscipline sha256 dump dumpRequest guarded) opts.runner
      (performAction sha256 dump dumpRequest opts) (Ends opts) data store := by
    unfold performAction
    apply ensures_bind
    apply ensures_get
    dsimp only
    split
    · next hworkbench => exact ensures_runWorkbench hcopy hworkbench
    · next hstatic => exact ensures_runStatic hcopy (by simpa using hstatic)
  have hcaught : Ensures (harnessDiscipline sha256 dump dumpRequest guarded) opts.runner
      (tryCatch (performAction sha256 dump dumpRequest opts)
        (afterFailure sha256 dump dumpRequest opts))
      (fun x _ s => ∀ result, x = .ok result → Answered opts result s) data store := by
    apply ensures_tryCatch
    apply hperform.mono
    intro x data' store' hends
    cases x with
    | ok result =>
      intro other hother
      cases hother
      exact hends
    | error e => exact ensures_afterFailure hends
  unfold runAction
  apply ensures_bind
  apply hcaught.mono
  intro x data' store' hanswered
  cases x with
  | error e => trivial
  | ok result =>
    refine ensures_query (fun s => Answered opts result s) (hanswered result rfl)
      (fun s s' hs hrelies => hs.stable hrelies) ?_ (fun _ _ _ => trivial)
    intro env s _ s' k hs hsound _ h
    exact ⟨commits_settleAction hsound (hs.answers hsound) h, trivial⟩

/-- A worker publishes for the request that it normalised again. -/
theorem steady_workbenchWorker :
    Steady sha256 dump dumpRequest guarded n (workbenchWorker sha256 dump dumpRequest opts) := by
  unfold workbenchWorker
  refine Steady.bind (steady_query fun env => commits_read ?_) (fun action => ?_)
  · intro store a store' h
    simp only [bind_ok, actionRecord_ok] at h
    obtain ⟨found, _, ⟨_, _, hsame⟩, h⟩ := h
    cases hsame
    split at h
    · cases pure_ok.mp h
      rfl
    · exact absurd h throw_ok
  refine Steady.bind (steady_query fun env => commits_read ?_) (fun inv => ?_)
  · intro store a store' h
    exact (loadInvestigation_ok.mp h).2.symm
  split
  · exact steady_pure
  split
  · exact steady_throw
  intro data store
  apply ensures_bind
  refine ensures_query store.Kept (.refl store)
    (fun s s' hs hrelies => hs.trans hrelies.actions) ?_ (fun _ _ hs => hs)
  intro env s normal s' k hs _ _ hnormal
  obtain ⟨⟨_, hgranted⟩, hsame⟩ := normalizeAgain_ok hnormal
  dsimp only at hgranted hsame
  rw [hsame]
  refine ⟨.refl _ n s, ?_⟩
  refine Steady.from ?_ hs
  refine Steady.bind (steady_query fun env => ?_) (fun _ => steady_pure)
  intro before record after h hsound
  obtain ⟨k, hsound⟩ := hsound
  exact commits_publishRecord hsound hgranted rfl h

theorem start_commits {p : Proc HarnessInput HarnessLabel HarnessStore Unit}
    (hsound : store.Sound sha256 dump dumpRequest k)
    (h : (harnessDiscipline sha256 dump dumpRequest guarded).Commits k store store')
    (hsafe : (harnessDiscipline sha256 dump dumpRequest guarded).Safe k p (fun _ _ => True) store') :
    store'.Sound sha256 dump dumpRequest (k + 1) ∧ (∀ m, m < k → store.Relies m store') ∧
      store.Evolves guarded store' ∧
      (harnessDiscipline sha256 dump dumpRequest guarded).Safe k p (fun _ _ => True) store' :=
  ⟨h.keeps (k + 1) (Nat.lt_succ_self k) (hsound.mono (Nat.le_succ k)),
    fun m hm => h.others m (Nat.ne_of_lt hm), h.evolves, hsafe⟩

theorem claimed_copy {deadline : Nat} {record : ActionRecord} {inv : Investigation}
    (hsound : store.Sound sha256 dump dumpRequest k)
    (h : ClaimStep project id aid n deadline store (.runs record inv) store') :
    Copy ⟨project, id, aid, n⟩ record store' := by
  cases h with
  | runs found current change hfound hopen hcurrent howner hunsettled hname hchange =>
    have hrow := hsound.rows current (row_some_mem hcurrent)
    obtain ⟨hproject, hid⟩ := action_name hcurrent
    have hafter : (store.withAction project aid change).action project aid =
        some (current.claimed n deadline) := by
      rw [action_changed hname hcurrent, hchange]
    exact {
      project := hrow.project.trans hproject
      id := hrow.id.trans hid
      running := rfl
      stored := ⟨_, hafter, rfl, fun _ h => h⟩
      static := fun hstatic => by
        obtain ⟨hnone, hdispatch⟩ := hrow.static hstatic
        refine ⟨?_, hnone, hdispatch⟩
        cases hresult : current.record.result with
        | none => rfl
        | some result =>
          simp [ActionRecord.settled, ActionRecord.recoverable, hresult, hnone] at hunsettled
      held := fun row hlookup _ _ _ => by
        have hsame : (store.withAction project aid change).action project aid = some row := hlookup
        rw [hafter] at hsame
        cases hsame
        rfl }

/-- Every transaction of a call keeps the discipline. -/
theorem commits_transaction (env : HarnessInput) (call : HarnessCall) :
    (call.transaction sha256 dump dumpRequest env).Commits sha256 dump dumpRequest guarded n := by
  have hdrop : ∀ {α : Type} {t : HarnessTx α}, t.Commits sha256 dump dumpRequest guarded n →
      (do let _ ← t : HarnessTx Unit).Commits sha256 dump dumpRequest guarded n := by
    intro α t ht store a store' h hsound
    simp only [bind_ok, pure_ok] at h
    obtain ⟨b, _, h, hend⟩ := h
    cases hend
    exact ht store b _ h hsound
  cases call with
  | create request => exact hdrop commits_createInvestigation
  | claim project id controller expected => exact hdrop commits_claimInvestigation
  | renew project id caller => exact commits_renewInvestigation
  | cancel project id caller => exact hdrop commits_cancelInvestigation
  | release project id caller expected next => exact hdrop commits_releaseInvestigation
  | note project id caller expected note => exact hdrop commits_noteInvestigation
  | propose caller request => exact hdrop commits_proposeAction
  | finish caller request => exact hdrop commits_finishInvestigation
  | run caller project id action expected => exact commits_read (fun _ _ _ h => by cases h; rfl)
  | beat opts token => exact commits_beatAction
  | worker opts => exact commits_read (fun _ _ _ h => by cases h; rfl)
  | controllers rows =>
    intro store _ store' h _
    cases modify_ok.mp h
    exact commits_controllers
  | put request internal => exact hdrop commits_put
  | library change => exact commits_changeLibrary
  | target imported => exact commits_addTarget
  | job call => exact hdrop commits_overJobs

/-- Every call starts a process that keeps the discipline. -/
theorem harness_starts : (harnessDiscipline sha256 dump dumpRequest guarded).Starts
      (harnessMachine sha256 dump dumpRequest) := by
  intro call k env store hsound
  have hcall : ∀ call : HarnessCall,
      (harnessMachine sha256 dump dumpRequest).start call k env store =
        store.answered (call.transaction sha256 dump dumpRequest env store) →
      let started := (harnessMachine sha256 dump dumpRequest).start call k env store
      started.1.Sound sha256 dump dumpRequest (k + 1) ∧ (∀ m, m < k → store.Relies m started.1) ∧
        store.Evolves guarded started.1 ∧
        (harnessDiscipline sha256 dump dumpRequest guarded).Safe k started.2 (fun _ _ => True)
          started.1 := by
    intro call hstart
    rw [hstart]
    cases h : call.transaction sha256 dump dumpRequest env store with
    | error e => exact start_commits hsound (.refl _ k store) trivial
    | ok answer =>
      have hcommits : (harnessDiscipline sha256 dump dumpRequest guarded).Commits k store
          answer.2 := commits_transaction env call store answer.1 answer.2 h ⟨k, hsound⟩
      exact start_commits hsound hcommits trivial
  cases call with
  | run caller project id action expected =>
    simp only [harnessMachine]
    cases h : claimAction sha256 env caller project id action expected k store with
    | error e => exact start_commits hsound (.refl _ k store) trivial
    | ok answer =>
      obtain ⟨claimed, store'⟩ := answer
      have hstep := claimAction_ok hsound h
      cases claimed with
      | answered record => exact start_commits hsound (commits_claimAction hstep) trivial
      | runs record inv =>
        have hrun : Ensures (harnessDiscipline sha256 dump dumpRequest guarded) k
            (runAction sha256 dump dumpRequest ⟨project, id, action, k⟩) (fun _ _ _ => True)
            ⟨record, inv⟩ store' := ensures_runAction (claimed_copy hsound hstep)
        exact start_commits hsound (commits_claimAction hstep) hrun.process
  | worker opts =>
    have hworker : Ensures (harnessDiscipline sha256 dump dumpRequest guarded) k
        (workbenchWorker sha256 dump dumpRequest opts) (fun _ _ s => store.Kept s) () store :=
      steady_workbenchWorker () store
    exact start_commits hsound (.refl _ k store) hworker.process
  | create | claim | renew | cancel | release | note | propose | finish | beat | controllers | put |
    library | target | job => exact hcall _ rfl

theorem HarnessStore.Sound.fresh (jobs : JobStore) (library : Library) :
    (HarnessStore.fresh jobs library).Sound sha256 dump dumpRequest 0 where
  knowledge := KnowledgeStore.Sound.fresh library
  names := nodup_nil
  rows := fun _ h => absurd h not_mem_nil
  investigations := fun _ _ _ h => by cases h
  owned := fun _ h => absurd h not_mem_nil
  published := fun _ h => absurd h not_mem_nil
  origins := fun _ h => absurd h not_mem_nil

/-- A harness without processes and without investigations. -/
def idleHarness (jobs : JobStore) (library : Library) :
    Machine.State HarnessInput HarnessLabel HarnessStore :=
  ⟨HarnessStore.fresh jobs library, []⟩

theorem idleHarness_holds (jobs : JobStore) (library : Library) :
    (harnessDiscipline sha256 dump dumpRequest guarded).Holds (idleHarness jobs library) :=
  ⟨HarnessStore.Sound.fresh jobs library, fun _ _ h => by cases h⟩

theorem harness_meets (st : Machine.State HarnessInput HarnessLabel HarnessStore)
    (events : List (Event HarnessInput HarnessCall)) :
    (harnessDiscipline sha256 dump dumpRequest false).Meets
      (harnessMachine sha256 dump dumpRequest) st events :=
  Discipline.meets_of_forall (fun _ _ _ h => by cases h) st events

end Indago
