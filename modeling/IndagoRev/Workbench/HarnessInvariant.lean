import IndagoRev.Workbench.HarnessRun
import IndagoRev.Workbench.KnowledgeHistory

/-!
# The invariant of the harness tables

What is reserved by an investigation is the sum over its actions. A row that a
runner holds is running and has no final result. An action points to a knowledge
revision exactly when that revision names the action as its origin.
-/

namespace Indago

open StdText Tables Transactions Interleaving

/-- What a proposal fixes for good. -/
def ActionRecord.identity (action : ActionRecord) :
    Text × Text × Text × Text × Proposal × ActionRequest :=
  (action.project, action.investigation, action.id, action.key, action.proposal, action.request)

/-- What the insertion of a row fixes for good. -/
def ActionRow.identity (row : ActionRow) :
    (Text × Text × Text) × (Text × Text) × (Text × Text × Text × Text × Proposal × ActionRequest) :=
  ((row.project, row.investigation, row.id), (row.key, row.requestHash), row.record.identity)

/-- What a stored action says about itself when `k` processes were started. -/
structure ActionRow.Sound (sha256 : Text → Text) (dumpRequest : ActionRequest → Text) (k : Nat)
    (row : ActionRow) : Prop where
  project : row.record.project = row.project
  investigation : row.record.investigation = row.investigation
  id : row.record.id = row.id
  key : row.record.key = row.key
  hash : row.requestHash = sha256 (dumpRequest row.record.request)
  started : ∀ n, row.runner = some n → n < k
  running : row.runner.isSome = true → row.record.status = .running
  held : row.runner.isSome = true → row.record.settled = false
  static : row.record.request.work.workbench = false →
    row.record.publication = none ∧ row.record.dispatchStarted = false
  dispatched : row.record.publication.isSome = true → row.record.dispatchStarted = true

/-- What the actions with these requests reserve together. -/
def Reserved.of (requests : List ActionRequest) : Reserved where
  actions := requests.length
  wallMs := (requests.map (fun r => r.budget.wallMs)).sum
  outputBytes := (requests.map (fun r => r.budget.outputBytes)).sum
  derivedArtifacts := requests.countP (fun r => r.derivedBytes.isSome)
  derivedBytes := (requests.map (fun r => r.derivedBytes.getD 0)).sum

/-- The requests of the actions of an investigation. -/
def HarnessStore.requests (store : HarnessStore) (project id : Text) : List ActionRequest :=
  (store.actionsOf project id).map (fun r => r.record.request)

/-- The counters stay within the limits. -/
structure Reserved.Within (used : Reserved) (limits : InvestigationLimits) (grant : DerivedGrant) :
    Prop where
  actions : used.actions ≤ limits.maxActions
  wallMs : used.wallMs ≤ limits.wallMs
  outputBytes : used.outputBytes ≤ limits.outputBytes
  derivedArtifacts : used.derivedArtifacts ≤ grant.maxArtifacts
  derivedBytes : used.derivedBytes ≤ grant.maxBytes

/-- The limits that a creation can set. -/
structure Investigation.Bounded (inv : Investigation) : Prop where
  maxActions : inv.limits.maxActions ≤ 128
  wallMs : inv.limits.wallMs ≤ 3600000
  outputBytes : inv.limits.outputBytes ≤ 16777216
  maxArtifacts : inv.envelope.derivedArtifacts.maxArtifacts ≤ 16
  maxBytes : inv.envelope.derivedArtifacts.maxBytes ≤ 16777216

/-- A terminal status that no runner can be behind. -/
def InvestigationStatus.closed (status : InvestigationStatus) : Bool :=
  status.terminal && status ≠ .cancelled

structure InvestigationRow.Sound (store : HarnessStore) (row : InvestigationRow) : Prop where
  project : row.record.project = row.project
  id : row.record.id = row.id
  bounded : row.record.Bounded
  within : row.record.reserved.Within row.record.limits row.record.envelope.derivedArtifacts
  counted : row.record.reserved = Reserved.of (store.requests row.project row.id)
  closed : row.record.status.closed = true →
    ∀ action ∈ store.actionsOf row.project row.id, action.runner = none

section Digests

variable (sha256 : Text → Text) (dump : KnowledgeRecord → Text)
  (dumpRequest : ActionRequest → Text)

variable (row : ActionRow)

/-- The origin of what an action publishes. -/
def ActionRow.origin : PublicationOrigin :=
  ⟨row.investigation, row.id, row.requestHash⟩

/-- No other request has the hash under which an action was proposed. -/
def ActionRow.Distinct : Prop :=
  ∀ request, sha256 (dumpRequest request) = row.requestHash → request = row.record.request

/-- The revision that an action points to is its publication. -/
structure ActionRow.Published (row : ActionRow) (publication : Publication) (found : RecordRow) :
    Prop where
  name : found.name = (row.project, publication.knowledgeId, publication.revision)
  sha : found.sha = publication.sha256
  origin : found.record.harnessOrigin = some row.origin
  pointer : publication.origin = row.origin
  content : row.Distinct sha256 dumpRequest →
    row.record.request.publishes sha256 found.record = true

structure HarnessStore.Sound (k : Nat) (store : HarnessStore) : Prop where
  knowledge : store.knowledge.Sound sha256 dump
  names : (store.actions.map ActionRow.name).Nodup
  rows : ∀ row ∈ store.actions, row.Sound sha256 dumpRequest k
  investigations : ∀ project id row, store.investigation project id = some row → row.Sound store
  owned : ∀ row ∈ store.actions,
    (store.investigation row.project row.investigation).isSome = true
  published : ∀ row ∈ store.actions, ∀ publication, row.record.publication = some publication →
    ∃ found ∈ store.knowledge.records, row.Published sha256 dumpRequest publication found
  origins : ∀ found ∈ store.knowledge.records, ∀ origin, found.record.harnessOrigin = some origin →
    ∃ row ∈ store.actions, row.project = found.project ∧ row.id = origin.action ∧
      row.record.publication = some ⟨found.id, found.revision, found.sha, origin⟩

end Digests

/-- A result whose outcome is known tells the publication. -/
def ActionResult.Tells (result : ActionResult) (publication : Publication) : Prop :=
  result.outcomeUnknown = false →
    result.knowledge = some (publication.knowledgeId, publication.revision)

/-- An action keeps what was proposed and published. -/
structure ActionRow.Keeps (row row' : ActionRow) : Prop where
  identity : row'.identity = row.identity
  published : ∀ publication, row.record.publication = some publication →
    row'.record.publication = some publication

theorem ActionRow.Keeps.refl (row : ActionRow) : row.Keeps row := ⟨rfl, fun _ h => h⟩

variable {a b c : ActionRow}

theorem ActionRow.Keeps.trans (h : a.Keeps b) (h' : b.Keeps c) : a.Keeps c :=
  ⟨h'.identity.trans h.identity, fun p hp => h'.published p (h.published p hp)⟩

/-- Under the guard it keeps a final result as well. An unknown outcome gives way
to the publication that was committed. -/
structure ActionRow.Evolves (guarded : Bool) (row row' : ActionRow) : Prop extends
    row.Keeps row' where
  settled : guarded = true → row.record.settled = true →
    row'.record.result = row.record.result ∧ row'.record.status = row.record.status ∧
      row'.record.publication = row.record.publication
  recovered : guarded = true → ∀ publication result,
    row.record.publication = some publication → row.record.result = some result →
    result.outcomeUnknown = true →
    ∃ result', row'.record.result = some result' ∧ result'.Tells publication

theorem ActionResult.Tells.of_unknown {result : ActionResult} {publication : Publication}
    (h : result.outcomeUnknown = true) : result.Tells publication := by
  intro hknown
  rw [h] at hknown
  cases hknown

theorem ActionRow.Evolves.refl (guarded : Bool) (row : ActionRow) : row.Evolves guarded row :=
  ⟨.refl row, fun _ _ => ⟨rfl, rfl, rfl⟩,
    fun _ _ result _ hresult hunknown => ⟨result, hresult, .of_unknown hunknown⟩⟩

theorem ActionRow.Evolves.trans {guarded : Bool} (h : a.Evolves guarded b)
    (h' : b.Evolves guarded c) : a.Evolves guarded c := by
  refine ⟨h.toKeeps.trans h'.toKeeps, ?_, ?_⟩
  · intro hguard hsettled
    obtain ⟨hresult, hstatus, hpublication⟩ := h.settled hguard hsettled
    have hagain : b.record.settled = true := by
      simpa only [ActionRecord.settled, ActionRecord.recoverable, hresult, hpublication]
        using hsettled
    obtain ⟨hresult', hstatus', hpublication'⟩ := h'.settled hguard hagain
    exact ⟨hresult'.trans hresult, hstatus'.trans hstatus, hpublication'.trans hpublication⟩
  · intro hguard publication result hpublication hresult hunknown
    obtain ⟨middle, hmiddle, htells⟩ := h.recovered hguard publication result hpublication hresult
      hunknown
    have hpublication' := h.published publication hpublication
    cases hknown : middle.outcomeUnknown with
    | true => exact h'.recovered hguard publication middle hpublication' hmiddle hknown
    | false =>
      have hsettled : b.record.settled = true := by
        simp [ActionRecord.settled, ActionRecord.recoverable, hmiddle, hpublication', hknown]
      exact ⟨middle, (h'.settled hguard hsettled).1.trans hmiddle, htells⟩

/-- An investigation keeps its limits, a change raises its revision, and a
terminal one keeps its end. -/
structure InvestigationRow.Evolves (row row' : InvestigationRow) : Prop where
  limits : row'.record.limits = row.record.limits
  grant : row'.record.envelope.derivedArtifacts = row.record.envelope.derivedArtifacts
  changed : row'.record = row.record ∨ row.record.revision < row'.record.revision
  terminal : row.record.status.terminal = true →
    row'.record.status = row.record.status ∧ row'.record.reserved = row.record.reserved ∧
      row'.record.report = row.record.report

theorem InvestigationRow.Evolves.refl (row : InvestigationRow) : row.Evolves row :=
  ⟨rfl, rfl, Or.inl rfl, fun _ => ⟨rfl, rfl, rfl⟩⟩

theorem InvestigationRow.Evolves.trans {a b c : InvestigationRow} (h : a.Evolves b)
    (h' : b.Evolves c) : a.Evolves c := by
  refine ⟨h'.limits.trans h.limits, h'.grant.trans h.grant, ?_, ?_⟩
  · rcases h.changed with heq | hlt
    · rw [← heq]
      exact h'.changed
    rcases h'.changed with heq | hlt'
    · rw [heq]
      exact Or.inr hlt
    · exact Or.inr (Nat.lt_trans hlt hlt')
  · intro hterminal
    obtain ⟨hstatus, hreserved, hreport⟩ := h.terminal hterminal
    obtain ⟨hstatus', hreserved', hreport'⟩ := h'.terminal (by rwa [hstatus])
    exact ⟨hstatus'.trans hstatus, hreserved'.trans hreserved, hreport'.trans hreport⟩

structure HarnessStore.Evolves (guarded : Bool) (store store' : HarnessStore) : Prop where
  actions : ∀ project id row, store.action project id = some row →
    ∃ row', store'.action project id = some row' ∧ row.Evolves guarded row'
  investigations : ∀ project id row, store.investigation project id = some row →
    ∃ row', store'.investigation project id = some row' ∧ row.Evolves row'
  records : store.knowledge.records <+: store'.knowledge.records

theorem HarnessStore.Evolves.refl (guarded : Bool) (store : HarnessStore) :
    store.Evolves guarded store :=
  ⟨fun _ _ row h => ⟨row, h, .refl guarded row⟩, fun _ _ row h => ⟨row, h, .refl row⟩,
    List.prefix_refl _⟩

theorem HarnessStore.Evolves.trans {guarded : Bool} {a b c : HarnessStore}
    (h : a.Evolves guarded b) (h' : b.Evolves guarded c) : a.Evolves guarded c := by
  refine ⟨?_, ?_, h.records.trans h'.records⟩
  · intro project id row hrow
    obtain ⟨mid, hmid, hfirst⟩ := h.actions project id row hrow
    obtain ⟨row', hrow', hsecond⟩ := h'.actions project id mid hmid
    exact ⟨row', hrow', hfirst.trans hsecond⟩
  intro project id row hrow
  obtain ⟨mid, hmid, hfirst⟩ := h.investigations project id row hrow
  obtain ⟨row', hrow', hsecond⟩ := h'.investigations project id mid hmid
  exact ⟨row', hrow', hfirst.trans hsecond⟩

/-- What run `n` may rely on: actions stay, nobody gives it a row, and a row that
it holds keeps its record until the dispatch. -/
structure HarnessStore.Relies (n : Nat) (store store' : HarnessStore) : Prop where
  actions : ∀ project id row, store.action project id = some row →
    ∃ row', store'.action project id = some row' ∧ row.Keeps row'
  held : ∀ project id row', store'.action project id = some row' → row'.runner = some n →
    ∃ row, store.action project id = some row ∧ row.runner = some n ∧
      (row.record.request.work.workbench = true → row.record.dispatchStarted = false →
        row'.record = row.record)

theorem HarnessStore.Relies.refl (n : Nat) (store : HarnessStore) : store.Relies n store :=
  ⟨fun _ _ row h => ⟨row, h, .refl row⟩, fun _ _ row h hn => ⟨row, h, hn, fun _ _ => rfl⟩⟩

theorem HarnessStore.Relies.trans {n : Nat} {a b c : HarnessStore} (h : a.Relies n b)
    (h' : b.Relies n c) : a.Relies n c := by
  refine ⟨?_, ?_⟩
  · intro project id row hrow
    obtain ⟨mid, hmid, hfirst⟩ := h.actions project id row hrow
    obtain ⟨row', hrow', hsecond⟩ := h'.actions project id mid hmid
    exact ⟨row', hrow', hfirst.trans hsecond⟩
  intro project id row' hrow' hn
  obtain ⟨mid, hmid, hmidn, hsame'⟩ := h'.held project id row' hrow' hn
  obtain ⟨row, hrow, hrown, hsame⟩ := h.held project id mid hmid hmidn
  refine ⟨row, hrow, hrown, ?_⟩
  intro hworkbench hdispatch
  have hfirst := hsame hworkbench hdispatch
  rw [hsame' (by rwa [hfirst]) (by rwa [hfirst]), hfirst]

/-- The runs of actions agree on the tables. The guard asks that no run stores
its job into an action that has a result. -/
def harnessDiscipline (sha256 : Text → Text) (dump : KnowledgeRecord → Text)
    (dumpRequest : ActionRequest → Text) (guarded : Bool) :
    Discipline HarnessLabel HarnessStore where
  inv := HarnessStore.Sound sha256 dump dumpRequest
  rely := HarnessStore.Relies
  evolves := HarnessStore.Evolves guarded
  meets _ label store := guarded = true → match label with
    | .storeJob project action => ∀ row, store.action project action = some row →
        row.record.result = none
    | _ => True
  good _ _ _ := True
  rely_refl := .refl
  rely_trans _ _ _ _ := .trans
  evolves_refl := .refl guarded
  evolves_trans _ _ _ := .trans

end Indago
