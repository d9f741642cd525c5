import IndagoRev.Workbench.HarnessSafety

/-!
# The budget of an investigation

In every state that a harness reaches the counters of an investigation are the
sums over its actions and within its limits, a repeated proposal changes nothing,
and an investigation that has ended stays as it ended.
-/

namespace Indago

open StdText Tables Transactions Interleaving

variable (sha256 : Text → Text) (dump : KnowledgeRecord → Text)

variable (dumpRequest : ActionRequest → Text) (jobs : JobStore) (library : Library)

/-- The invariant holds in every state that the harness reaches. -/
theorem harness_sound (events : List (Event HarnessInput HarnessCall)) :
    ∃ k, ((harnessMachine sha256 dump dumpRequest).run (idleHarness jobs library)
      events).store.Sound sha256 dump dumpRequest k := by
  have hidle : (harnessDiscipline sha256 dump dumpRequest false).Holds
      (idleHarness jobs library) := idleHarness_holds jobs library
  exact ⟨_, (hidle.run harness_starts events (harness_meets _ _)).1.inv⟩

theorem harness_evolves
    (events more : List (Event HarnessInput HarnessCall)) : HarnessStore.Evolves false
      ((harnessMachine sha256 dump dumpRequest).run (idleHarness jobs library) events).store
      ((harnessMachine sha256 dump dumpRequest).run (idleHarness jobs library)
        (events ++ more)).store := by
  have hidle : (harnessDiscipline sha256 dump dumpRequest false).Holds
      (idleHarness jobs library) := idleHarness_holds jobs library
  obtain ⟨hholds, -⟩ := hidle.run harness_starts events (harness_meets _ _)
  rw [Machine.run_append]
  exact (hholds.run harness_starts more (harness_meets _ _)).2

/-- How a store answers proposals. -/
structure ProposalGuarantee (sha256 : Text → Text) (dump : KnowledgeRecord → Text)
    (dumpRequest : ActionRequest → Text) (store : HarnessStore) (env : HarnessInput)
    (caller : Caller) (request : ProposeRequest) : Prop where
  /-- An accepted repetition has the request that is stored, and changes nothing. -/
  repeated : ∀ old action store', store.keyed request.project request.id request.key = some old →
    proposeAction sha256 dumpRequest env caller request store = .ok (action, store') →
    action = old.record ∧ store' = store ∧ old.record.proposal = request.proposal ∧
      ∃ found, request.Admitted sha256 env caller store found ∧
        normalizeRequest env store found.record request.draft = .ok old.record.request
  /-- An admitted repetition of the stored request is accepted. -/
  returned : ∀ old found, store.keyed request.project request.id request.key = some old →
    request.Admitted sha256 env caller store found →
    normalizeRequest env store found.record request.draft = .ok old.record.request →
    old.record.proposal = request.proposal →
    proposeAction sha256 dumpRequest env caller request store = .ok (old.record, store)
  /-- Under a known key another request is refused. -/
  conflict : ∀ old found, store.keyed request.project request.id request.key = some old →
    store.investigation request.project request.id = some found →
    (normalizeRequest env store found.record request.draft ≠ .ok old.record.request ∨
      old.record.proposal ≠ request.proposal) →
    ∃ e, proposeAction sha256 dumpRequest env caller request store = .error e
  /-- A terminal investigation accepts none. -/
  terminal : ∀ found, store.investigation request.project request.id = some found →
    found.record.status.terminal = true →
    ∃ e, proposeAction sha256 dumpRequest env caller request store = .error e
  /-- A refusal leaves the state. -/
  refused : ∀ e, proposeAction sha256 dumpRequest env caller request store = .error e →
    ∀ k, ((harnessMachine sha256 dump dumpRequest).start (.propose caller request) k env store).1 =
      store

theorem proposalGuarantee (store : HarnessStore) (env : HarnessInput)
    (caller : Caller) (request : ProposeRequest) :
    ProposalGuarantee sha256 dump dumpRequest store env caller request where
  repeated := by
    intro old action store' hkeyed h
    obtain ⟨found, normal, hadmitted, hnormal, hproposed⟩ := proposeAction_ok h
    cases hproposed with
    | known same hsame hrequest hproposal =>
      rw [hkeyed] at hsame
      cases hsame
      exact ⟨rfl, rfl, hproposal, found, hadmitted, by rw [hrequest]; exact hnormal⟩
    | inserted reserved hnone =>
      rw [hkeyed] at hnone
      cases hnone
  returned := fun old found hkeyed hadmitted hnormal hproposal =>
    proposeAction_known hadmitted hnormal hkeyed hproposal
  conflict := by
    intro old found hkeyed hfound hother
    cases h : proposeAction sha256 dumpRequest env caller request store with
    | error e => exact ⟨e, rfl⟩
    | ok answer =>
      obtain ⟨action, store'⟩ := answer
      obtain ⟨again, normal, hadmitted, hnormal, hproposed⟩ := proposeAction_ok h
      have hsame := hadmitted.lookup
      rw [hfound] at hsame
      cases hsame
      cases hproposed with
      | known same hlookup hrequest hproposal =>
        rw [hkeyed] at hlookup
        cases hlookup
        rw [← hrequest] at hnormal
        rcases hother with hrequest' | hproposal'
        · exact absurd hnormal hrequest'
        · exact absurd hproposal hproposal'
      | inserted reserved hnone =>
        rw [hkeyed] at hnone
        cases hnone
  terminal := by
    intro found hfound hterminal
    cases h : proposeAction sha256 dumpRequest env caller request store with
    | error e => exact ⟨e, rfl⟩
    | ok answer =>
      obtain ⟨again, _, hadmitted, _⟩ := proposeAction_ok h
      have hsame := hadmitted.lookup
      rw [hfound] at hsame
      cases hsame
      rw [hadmitted.isOpen] at hterminal
      cases hterminal
  refused := by
    intro e h k
    simp only [harnessMachine, HarnessCall.transaction]
    split
    · next hcall =>
        obtain ⟨action, _, hproposed, _⟩ := bind_ok.mp hcall
        rw [h] at hproposed
        cases hproposed
    · rfl

/-- What a stored investigation says of its actions, and what becomes of it. -/
structure BudgetGuarantee (store : HarnessStore) (row : InvestigationRow)
    (later : List (Event HarnessInput HarnessCall) → HarnessStore) : Prop where
  counted : row.record.reserved = Reserved.of (store.requests row.project row.id)
  within : row.record.reserved.Within row.record.limits row.record.envelope.derivedArtifacts
  kept : ∀ more, ∃ row', (later more).investigation row.project row.id = some row' ∧
    row'.record.limits = row.record.limits ∧
    row'.record.envelope.derivedArtifacts = row.record.envelope.derivedArtifacts ∧
    (row'.record ≠ row.record → row.record.revision < row'.record.revision) ∧
    (row.record.status.terminal = true → row'.record.status = row.record.status ∧
      row'.record.reserved = row.record.reserved ∧ row'.record.report = row.record.report)

/-- What holds of all investigations of a reachable state. -/
structure InvestigationsGuarantee (sha256 : Text → Text) (dump : KnowledgeRecord → Text)
    (dumpRequest : ActionRequest → Text) (store : HarnessStore)
    (later : List (Event HarnessInput HarnessCall) → HarnessStore) : Prop where
  budgets : ∀ project id row, store.investigation project id = some row →
    row.project = project ∧ row.id = id ∧ BudgetGuarantee store row later
  proposals : ∀ env caller request,
    ProposalGuarantee sha256 dump dumpRequest store env caller request

/-- **The budget of an investigation.**  In every state that the harness reaches. -/
theorem investigation_budget (events : List (Event HarnessInput HarnessCall)) :
    InvestigationsGuarantee sha256 dump dumpRequest
      ((harnessMachine sha256 dump dumpRequest).run (idleHarness jobs library) events).store
      (fun more => ((harnessMachine sha256 dump dumpRequest).run (idleHarness jobs library)
        (events ++ more)).store) where
  budgets := by
    intro project id row hrow
    obtain ⟨k, hsound⟩ := harness_sound sha256 dump dumpRequest jobs library events
    obtain ⟨rfl, rfl⟩ := investigation_name hrow
    have hbudget := hsound.investigations _ _ row hrow
    refine ⟨rfl, rfl, hbudget.counted, hbudget.within, ?_⟩
    intro more
    have hevolves := harness_evolves sha256 dump dumpRequest jobs library events more
    obtain ⟨row', hrow', hkept⟩ := hevolves.investigations _ _ row hrow
    refine ⟨row', hrow', hkept.limits, hkept.grant, ?_, hkept.terminal⟩
    intro hchanged
    exact hkept.changed.resolve_left hchanged
  proposals := fun env caller request => proposalGuarantee sha256 dump dumpRequest _ env caller request

/-- One target with one read-only investigation. -/
def smallJobs : JobStore := .fresh ["p"] [⟨"t", "p", "a"⟩]

def smallLibrary : Library :=
  ⟨["p"], [("p", "a")], [], [], [], [], [], none⟩

/-- The surroundings at a time, with the id that is drawn next. -/
def smallInput (now : Nat) (freshId : Text) : HarnessInput where
  now := now
  later := now
  busy := false
  commitBusy := false
  refused := false
  leaseLost := false
  freshId := freshId
  token := "token"
  createdAt := []
  bytes := 0
  computed := ⟨"p", none, 0, [], [], [], none, none, none, none, none, none, []⟩
  outcome := ⟨"completed", "{}", true⟩
  sessions := []

def smallCreate : CreateRequest where
  project := "p"
  target := ⟨"t", "a"⟩
  components := [⟨"t", "a"⟩]
  requiredFacts := ["fact"]
  proofRequirements := false
  owner := ⟨false, "owner"⟩
  maxActions := none
  wallMs := none
  outputBytes := none
  workbenchMutations := false
  analysisHelpers := false
  derivedArtifacts := none
  runtimeSessions := []

def smallCaller : Caller := ⟨"token", none⟩

def smallPropose : ProposeRequest where
  project := "p"
  id := "i"
  key := "k"
  proposal := ⟨"gap", "evidence", "prediction", "fallback"⟩
  draft := ⟨none, none, none, none, .static "xair" "inventory" [] [] [], [], none, none, none⟩
  expected := some 1

def smallMachine : Machine HarnessInput HarnessLabel HarnessStore HarnessCall :=
  harnessMachine id (fun _ => []) (fun _ => [])

/-- The investigation is created, an action proposed and claimed by a run. -/
def smallRun : List (Event HarnessInput HarnessCall) :=
  [.start (.create smallCreate) (smallInput 0 "i"),
    .start (.propose smallCaller smallPropose) (smallInput 1 "x"),
    .start (.run smallCaller "p" "i" "x" (some 2)) (smallInput 2 [])]

/-- While its action runs, the very same proposal is refused. -/
theorem repetition_refused_while_running :
    let store := (smallMachine.run (idleHarness smallJobs smallLibrary) smallRun).store
    let env := smallInput 3 "y"
    ((store.keyed "p" "i" "k").any fun old =>
      (store.investigation "p" "i").any fun found =>
        normalizeRequest env store found.record smallPropose.draft = .ok old.record.request ∧
          old.record.proposal = smallPropose.proposal) = true ∧
      proposeAction id (fun _ => []) env smallCaller smallPropose store =
        .error "investigation has an active runner" := by
  decide

end Indago
