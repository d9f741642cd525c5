import IndagoRev.Workbench.HarnessFrames

/-!
# Publications of a harness

An action publishes at most once: a revision and the pointer to it are stored in
one transaction, for the runner that holds the action, and a later run finds the
stored revision instead of a second one.
-/

namespace Indago

open StdText Tables Transactions Interleaving Program List

variable {sha256 : Text → Text} {dump : KnowledgeRecord → Text}
  {dumpRequest : ActionRequest → Text}
variable {store store' : HarnessStore}

/-- A revision with an origin is stored for the runner that holds the action, for
the request that was proposed, with all pins as they were, and as the first. -/
structure OwnedPublication (sha256 : Text → Text) (dumpRequest : ActionRequest → Text)
    (label : Option HarnessLabel) (env : HarnessInput) (store store' : HarnessStore)
    (found : RecordRow) (origin : PublicationOrigin) (row : ActionRow) (runner : Nat) : Prop where
  label : label = some (.publish found.project origin.action runner)
  lookup : store.action found.project origin.action = some row
  investigation : row.investigation = origin.investigation
  holder : row.runner = some runner
  live : env.now < row.deadline
  approved : row.requestHash = origin.requestSha256
  unchanged : sha256 (dumpRequest row.record.request) = row.requestHash
  first : row.record.publication = none
  pins : ∀ d ∈ row.record.request.dependencyPins, store.publishedPin found.project d = some d.pin
  linked : ∃ row', store'.action found.project origin.action = some row' ∧
    row'.record.publication = some ⟨found.id, found.revision, found.sha, origin⟩

/-- Every revision that an access adds for an action is owned in this way. -/
def PublishesOwned (sha256 : Text → Text) (dumpRequest : ActionRequest → Text)
    (label : Option HarnessLabel) (env : HarnessInput) (store store' : HarnessStore) : Prop :=
  ∀ found ∈ store'.records, found ∉ store.records → ∀ origin, found.record.harnessOrigin = some origin →
    ∃ row runner, OwnedPublication sha256 dumpRequest label env store store' found origin row runner

variable {env : HarnessInput} {label : Option HarnessLabel}

theorem publishesOwned_of_records (h : store'.records = store.records) :
    PublishesOwned sha256 dumpRequest label env store store' := by
  intro found hmem hnew
  rw [h] at hmem
  exact absurd hmem hnew

theorem publishesOwned_of_tables
    (h : store'.tables = store.tables) : PublishesOwned sha256 dumpRequest label env store store' :=
  publishesOwned_of_records (Prod.mk.inj h).1

theorem publishesOwned_each {ρ α : Type} {m : HarnessProgram ρ α} (h : m.Each AddsNoRow) :
    m.Each (PublishesOwned sha256 dumpRequest) :=
  h.mono (fun _ _ _ _ => publishesOwned_of_tables)

variable {record : KnowledgeRecord} {opts : ActionOptions} {request : PutRequest}

theorem publishRecord_owned {hash : Text} {internal : Bool}
    (h : publishRecord sha256 dump dumpRequest env
      ⟨opts.project, opts.id, opts.action, opts.runner, hash⟩ request internal store =
        .ok (record, store')) :
    PublishesOwned sha256 dumpRequest (some (.publish opts.project opts.action opts.runner)) env
      store store' := by
  obtain ⟨row, knowledge, hstep⟩ := publishRecord_ok h
  obtain ⟨hput, _⟩ := putRecord_ok hstep.put
  obtain ⟨change, hname, hchange, hwritten⟩ := hstep.written
  have howned := hstep.publishable
  have hrecords : store'.records = store.records ++ [record.row sha256 dump] := by
    rw [hwritten]
    show knowledge.records = _
    rw [hput.written]
    rfl
  intro found hmem hnew origin horigin
  rw [hrecords] at hmem
  have hfound : found = record.row sha256 dump := by
    rcases mem_append.mp hmem with hold | hlast
    · exact absurd hold hnew
    · exact mem_singleton.mp hlast
  subst hfound
  have hcontext : origin = ⟨opts.id, opts.action, hash⟩ := by
    have hsame := hput.origin.symm.trans horigin
    exact (Option.some.inj hsame).symm
  subst hcontext
  have hproject : record.project = opts.project := hstep.project
  refine ⟨row, opts.runner, ?_⟩
  exact {
    label := by
      show _ = some (HarnessLabel.publish record.project opts.action opts.runner)
      rw [hproject]
    lookup := by
      show store.action record.project opts.action = some row
      rw [hproject]
      exact howned.lookup
    investigation := howned.investigation
    holder := howned.runner
    live := howned.live
    approved := howned.hash
    unchanged := howned.request.trans howned.hash.symm
    first := howned.unpublished
    pins := by
      show ∀ d ∈ row.record.request.dependencyPins, store.publishedPin record.project d = some d.pin
      rw [hproject]
      exact hstep.pins
    linked := by
      refine ⟨change row, ?_, ?_⟩
      · show store'.action record.project opts.action = _
        rw [hproject, hwritten]
        exact action_changed hname howned.lookup
      rw [hchange]
      obtain ⟨_, hid⟩ := action_name howned.lookup
      have horigin' : row.origin = ⟨opts.id, opts.action, hash⟩ := by
        simp only [ActionRow.origin, howned.investigation, hid, howned.hash]
      simp only [ActionRow.linked, horigin'] }

theorem each_workbenchWorker :
    (workbenchWorker sha256 dump dumpRequest opts).Each (PublishesOwned sha256 dumpRequest) := by
  refine Each.bind (publishesOwned_each (each_leaves fun env =>
    leaves_actionRecord.bind fun found => ?_)) fun action =>
    (publishesOwned_each (each_leaves fun _ => leaves_loadInvestigation)).bind fun inv => ?_
  · split
    · exact leaves_pure _
    · exact leaves_throw _
  split
  · exact each_pure _
  split
  · exact each_throw _
  refine (publishesOwned_each (each_leaves fun env => ?_)).bind fun normal =>
    Each.bind (each_atomically ?_ ?_) fun _ => each_pure _
  · exact fun _ _ _ h => by rw [← (normalizeAgain_ok h).2]
  · exact fun _ _ => publishesOwned_of_records rfl
  intro env s a s' h
  by_cases hbusy : env.busy = true
  · rw [if_pos hbusy] at h
    exact absurd h throw_ok
  · rw [if_neg hbusy] at h
    exact publishRecord_owned h

theorem put_owned {internal : Bool}
    (h : overKnowledge (putRecord sha256 dump env.freshId env.createdAt request internal none)
      store = .ok (record, store')) : PublishesOwned sha256 dumpRequest label env store store' := by
  obtain ⟨knowledge, hput, hstore⟩ := overKnowledge_ok.mp h
  dsimp only at hput hstore
  obtain ⟨hfound, _⟩ := putRecord_ok hput
  intro found hmem hnew origin horigin
  have hrecords : store'.records = store.records ++ [record.row sha256 dump] := by
    rw [hstore]
    show knowledge.records = _
    rw [hfound.written]
    rfl
  rw [hrecords] at hmem
  rcases mem_append.mp hmem with hold | hlast
  · exact absurd hold hnew
  rw [mem_singleton.mp hlast] at horigin
  have hnone : record.harnessOrigin = some origin := horigin
  rw [hfound.origin] at hnone
  cases hnone

theorem transaction_owned {call : HarnessCall} {a : Unit}
    (h : call.transaction sha256 dump dumpRequest env store = .ok (a, store')) :
    PublishesOwned sha256 dumpRequest none env store store' := by
  have hleaves : ∀ {α : Type} {t : HarnessTx α}, Leaves HarnessStore.tables t →
      (do let _ ← t : HarnessTx Unit) store = .ok (a, store') →
      PublishesOwned sha256 dumpRequest none env store store' := fun hview ht =>
    publishesOwned_of_tables ((hview.bind fun _ => leaves_pure _) store a store' ht)
  cases call with
  | create request => exact hleaves leaves_createInvestigation h
  | claim project id controller expected => exact hleaves leaves_claimInvestigation h
  | renew project id caller =>
    exact publishesOwned_of_tables (leaves_renewInvestigation store a store' h)
  | cancel project id caller => exact hleaves leaves_cancelInvestigation h
  | release project id caller expected next => exact hleaves leaves_releaseInvestigation h
  | note project id caller expected note => exact hleaves leaves_noteInvestigation h
  | propose caller request =>
    obtain ⟨action, middle, hpropose, hend⟩ := bind_ok.mp h
    cases hend
    obtain ⟨found, normal, _, _, hproposed⟩ := proposeAction_ok hpropose
    cases hproposed <;> exact publishesOwned_of_records rfl
  | finish caller request => exact hleaves leaves_finishInvestigation h
  | run | worker =>
    cases h
    exact publishesOwned_of_records rfl
  | beat opts token => exact publishesOwned_of_tables (leaves_beatAction store a store' h)
  | controllers rows =>
    cases modify_ok.mp h
    exact publishesOwned_of_records rfl
  | put request internal =>
    obtain ⟨record, middle, hput, hend⟩ := bind_ok.mp h
    cases hend
    exact put_owned hput
  | library change => exact publishesOwned_of_tables (leaves_changeLibrary store a store' h)
  | target imported =>
    have hview : Leaves HarnessStore.tables (addTarget imported) := by
      refine leaves_changeLibrary.bind fun _ => leaves_modify ?_
      exact fun _ => rfl
    exact publishesOwned_of_tables (hview store a store' h)
  | job call => exact hleaves leaves_overJobs h

theorem start_owned (call : HarnessCall) (n : Nat) (env : HarnessInput) (store : HarnessStore) :
    PublishesOwned sha256 dumpRequest none env store
        ((harnessMachine sha256 dump dumpRequest).start call n env store).1 ∧
      ((harnessMachine sha256 dump dumpRequest).start call n env store).2.Each
        (PublishesOwned sha256 dumpRequest) := by
  have hcall : ∀ call : HarnessCall,
      (harnessMachine sha256 dump dumpRequest).start call n env store =
        store.answered (call.transaction sha256 dump dumpRequest env store) →
      PublishesOwned sha256 dumpRequest none env store
          ((harnessMachine sha256 dump dumpRequest).start call n env store).1 ∧
        ((harnessMachine sha256 dump dumpRequest).start call n env store).2.Each
          (PublishesOwned sha256 dumpRequest) := by
    intro call hstart
    rw [hstart]
    cases h : call.transaction sha256 dump dumpRequest env store with
    | error e => exact ⟨publishesOwned_of_records rfl, trivial⟩
    | ok answer => exact ⟨transaction_owned h, trivial⟩
  cases call with
  | run caller project id action expected =>
    simp only [harnessMachine]
    cases h : claimAction sha256 env caller project id action expected n store with
    | error e => exact ⟨publishesOwned_of_records rfl, trivial⟩
    | ok answer =>
      obtain ⟨claimed, after⟩ := answer
      have htables := leaves_claimAction store claimed after h
      cases claimed with
      | answered record => exact ⟨publishesOwned_of_tables htables, trivial⟩
      | runs record inv =>
        exact ⟨publishesOwned_of_tables htables,
          (publishesOwned_each each_runAction).process ⟨record, inv⟩⟩
  | worker opts => exact ⟨publishesOwned_of_records rfl, each_workbenchWorker.process ()⟩
  | create | claim | renew | cancel | release | note | propose | finish | beat | controllers | put |
    library | target | job => exact hcall _ rfl

variable {row : ActionRow} {k : Nat}

theorem recoverPublication_published
    {publication : Publication} {found : RecordRow} {derived : Option DerivedReceipt}
    (hsound : store.Sound sha256 dump dumpRequest k) (hrow : row ∈ store.actions)
    (hpublication : row.record.publication = some publication) (hfound : found ∈ store.records)
    (hpublished : row.Published sha256 dumpRequest publication found)
    (hdistinct : row.Distinct sha256 dumpRequest)
    (hderived : derivedReceipt store row.record.request found.record = .ok derived) :
    recoverPublication sha256 dump dumpRequest env row.record store =
      .ok (⟨.ended .completed, false, "", [], some (publication.knowledgeId, publication.revision),
        derived, env.sessions⟩, store) := by
  have haction := hsound.rows row hrow
  have hrevision := hsound.knowledge.rows found hfound
  have hname := hpublished.name
  simp only [RecordRow.name, Prod.mk.injEq] at hname
  obtain ⟨hproject, hid, hnumber⟩ := hname
  have hworkbench : row.record.request.work.workbench = true := by
    by_contra hstatic
    have hnone := (haction.static (by simpa using hstatic)).1
    rw [hpublication] at hnone
    cases hnone
  have horigin : (⟨row.record.investigation, row.record.id,
      sha256 (dumpRequest row.record.request)⟩ : PublicationOrigin) = row.origin := by
    rw [haction.investigation, haction.id, ← haction.hash]
    rfl
  have hstored : store.knowledge.record row.record.project publication.knowledgeId
      publication.revision = some found := by
    rw [haction.project, ← hproject, ← hid, ← hnumber]
    exact hsound.knowledge.row_of_mem hfound
  obtain ⟨shown, hshown⟩ := hsound.knowledge.decorated_ok hfound
  have hrecord : shown.record = found.record := decorated_record hshown
  have hshow : showKnowledge sha256 dump store.knowledge row.record.project
      publication.knowledgeId publication.revision = .ok shown := by
    rw [haction.project, ← hproject, ← hid, ← hnumber, showKnowledge,
      hsound.knowledge.load_row hfound]
    exact hshown
  simp only [recoverPublication, bind_ok, get_ok]
  refine ⟨store, store, rfl, ?_⟩
  rw [hpublication]
  dsimp only
  rw [horigin, if_neg (by simp [hpublished.pointer, hworkbench]), hstored]
  dsimp only
  rw [if_neg (by simp [hpublished.sha.symm, hrevision.sha, hpublished.origin]), hshow]
  dsimp only
  rw [hrecord, if_neg (by simp [hpublished.content hdistinct]), hderived]
  dsimp only
  rw [hrevision.id, hrevision.revision, hid, hnumber]
  rfl

/-- The revisions that name an action as their origin. -/
def HarnessStore.revisionsOf (store : HarnessStore) (row : ActionRow) : List RecordRow :=
  store.records.filter (fun found => found.project = row.project ∧
    found.record.harnessOrigin.any (fun origin => origin.action = row.id))

theorem length_le_one {α : Type} {l : List α} (hnodup : l.Nodup)
    (h : ∀ a ∈ l, ∀ b ∈ l, a = b) : l.length ≤ 1 := by
  match l with
  | [] => simp
  | [a] => simp
  | a :: b :: rest =>
    have hsame := h a (by simp) b (by simp)
    simp [hsame] at hnodup

theorem HarnessStore.Sound.publication_of (h : store.Sound sha256 dump dumpRequest k)
    (hrow : row ∈ store.actions) {found : RecordRow}
    (hfound : found ∈ store.records) {origin : PublicationOrigin}
    (horigin : found.record.harnessOrigin = some origin) (hproject : found.project = row.project)
    (haction : origin.action = row.id) :
    row.record.publication = some ⟨found.id, found.revision, found.sha, origin⟩ := by
  obtain ⟨owner, howner, hproject', hid, hpublication⟩ := h.origins found hfound origin horigin
  have hname : owner.name = row.name := by
    simp only [ActionRow.name, hproject', hid, hproject, haction]
  have hsame := inj_on_of_nodup_map h.names howner hrow hname
  rw [← hsame]
  exact hpublication

theorem revisionsOf_le_one (h : store.Sound sha256 dump dumpRequest k)
    (hrow : row ∈ store.actions) : (store.revisionsOf row).length ≤ 1 := by
  have hpublication : ∀ found ∈ store.revisionsOf row, found ∈ store.records ∧
      ∃ origin, row.record.publication =
        some ⟨found.id, found.revision, found.sha, origin⟩ ∧ found.project = row.project := by
    intro found hmem
    obtain ⟨hfound, hkeep⟩ := mem_filter.mp hmem
    simp only [decide_eq_true_eq] at hkeep
    obtain ⟨hproject, hnamed⟩ := hkeep
    cases horigin : found.record.harnessOrigin with
    | none => simp [horigin] at hnamed
    | some origin =>
      have haction : origin.action = row.id := by simpa [horigin] using hnamed
      exact ⟨hfound, origin, h.publication_of hrow hfound horigin hproject haction, hproject⟩
  apply length_le_one
  · exact (List.Nodup.of_map RecordRow.name h.knowledge.distinct).filter _
  intro a ha b hb
  obtain ⟨hamem, _, ha, hap⟩ := hpublication a ha
  obtain ⟨hbmem, _, hb, hbp⟩ := hpublication b hb
  rw [ha] at hb
  simp only [Option.some.injEq, Publication.mk.injEq] at hb
  have hname : a.name = b.name := by
    simp only [RecordRow.name, hap, hbp, hb.1, hb.2.1]
  exact inj_on_of_nodup_map h.knowledge.distinct hamem hbmem hname

/-- What holds of the publications of a reachable state, of its events and of all
states behind it. -/
structure PublicationGuarantee (sha256 : Text → Text) (dump : KnowledgeRecord → Text)
    (dumpRequest : ActionRequest → Text)
    (st : Machine.State HarnessInput HarnessLabel HarnessStore) : Prop where
  /-- The pointer of an action names a stored revision that names the action. -/
  linked : ∀ row ∈ st.store.actions, ∀ publication, row.record.publication = some publication →
    ∃ found ∈ st.store.records, row.Published sha256 dumpRequest publication found
  /-- A revision that names an action is the one that the action points to. -/
  pointed : ∀ found ∈ st.store.records, ∀ origin, found.record.harnessOrigin = some origin →
    ∃ row ∈ st.store.actions, row.project = found.project ∧ row.id = origin.action ∧
      row.record.publication = some ⟨found.id, found.revision, found.sha, origin⟩
  once : ∀ row ∈ st.store.actions, (st.store.revisionsOf row).length ≤ 1
  /-- An event adds a revision with an origin only for the runner that holds the
  action, and then the pointer with it. -/
  owned : ∀ e, Machine.Does (PublishesOwned sha256 dumpRequest) st
    ((harnessMachine sha256 dump dumpRequest).next st e).store e
  /-- An event that adds a pointer adds its revision. -/
  together : ∀ e project aid row row' publication,
    st.store.action project aid = some row → row.record.publication = none →
    ((harnessMachine sha256 dump dumpRequest).next st e).store.action project aid = some row' →
    row'.record.publication = some publication →
    ∃ found ∈ ((harnessMachine sha256 dump dumpRequest).next st e).store.records,
      found ∉ st.store.records ∧ row'.Published sha256 dumpRequest publication found
  /-- A later run of a published action answers with its publication. -/
  recovered : ∀ row ∈ st.store.actions, ∀ publication,
    row.record.publication = some publication → row.Distinct sha256 dumpRequest →
    ∃ found ∈ st.store.records, row.Published sha256 dumpRequest publication found ∧
      ∀ env derived, derivedReceipt st.store row.record.request found.record = .ok derived →
        recoverPublication sha256 dump dumpRequest env row.record st.store =
          .ok (⟨.ended .completed, false, "", [],
            some (publication.knowledgeId, publication.revision), derived, env.sessions⟩, st.store)
  /-- A publication stays. -/
  kept : ∀ more project aid row publication, st.store.action project aid = some row →
    row.record.publication = some publication →
    ∃ row', ((harnessMachine sha256 dump dumpRequest).run st more).store.action project aid =
        some row' ∧ row'.identity = row.identity ∧ row'.record.publication = some publication

/-- **An action publishes at most once**, whatever is interleaved, crashes or is taken over. -/
theorem publication_at_most_once (sha256 : Text → Text) (dump : KnowledgeRecord → Text)
    (dumpRequest : ActionRequest → Text) (jobs : JobStore) (library : Library)
    (events : List (Event HarnessInput HarnessCall)) : PublicationGuarantee sha256 dump dumpRequest
      ((harnessMachine sha256 dump dumpRequest).run (idleHarness jobs library) events) := by
  obtain ⟨k, hsound⟩ := harness_sound sha256 dump dumpRequest jobs library events
  exact {
    linked := hsound.published
    pointed := hsound.origins
    once := fun row hrow => revisionsOf_le_one hsound hrow
    owned := fun e => Machine.run_each start_owned (by simp [idleHarness]) events e
    together := by
      intro e project aid row row' publication hrow hnone hrow' hpublication
      obtain ⟨k', hsound'⟩ := harness_sound sha256 dump dumpRequest jobs library (events ++ [e])
      rw [Machine.run_append] at hsound'
      obtain ⟨found, hfound, hpublished⟩ :=
        hsound'.published row' (row_some_mem hrow') publication hpublication
      refine ⟨found, hfound, ?_, hpublished⟩
      intro hold
      obtain ⟨hproject, hid⟩ := action_name hrow
      obtain ⟨hproject', hid'⟩ := action_name hrow'
      have hname := hpublished.name
      simp only [RecordRow.name, Prod.mk.injEq] at hname
      have hpointed := hsound.publication_of (row_some_mem hrow) hold hpublished.origin
        (by rw [hname.1, hproject', hproject]) (by rw [hid]; exact hid')
      rw [hnone] at hpointed
      cases hpointed
    recovered := by
      intro row hrow publication hpublication hdistinct
      obtain ⟨found, hfound, hpublished⟩ := hsound.published row hrow publication hpublication
      refine ⟨found, hfound, hpublished, ?_⟩
      intro env derived hderived
      exact recoverPublication_published hsound hrow hpublication hfound hpublished hdistinct
        hderived
    kept := by
      intro more project aid row publication hrow hpublication
      have hevolves := harness_evolves sha256 dump dumpRequest jobs library events more
      rw [Machine.run_append] at hevolves
      obtain ⟨row', hrow', hkept⟩ := hevolves.actions project aid row hrow
      exact ⟨row', hrow', hkept.identity, hkept.published publication hpublication⟩ }

end Indago
