import IndagoRev.Workbench.Harness

/-!
# The owner of an investigation

An owner proposes actions, which reserve their share of the budget, writes notes,
hands the investigation on, and finishes with a report or cancels. Every such
operation is one transaction, under the lease of the owner.
-/

namespace Indago

open StdText Tables Transactions

section Digests

-- SHA-256 of a text in hexadecimal, and the text of a request.
variable (sha256 : Text → Text) (dumpRequest : ActionRequest → Text)

/-- `ownership`. -/
def checkOwnership (now : Nat) (token : Text) (row : InvestigationRow) : HarnessTx Unit :=
  if textField token 256 = false then throw "invalid text: owner_token"
  else if row.tokenHash ≠ sha256 token ∨ row.deadline ≤ now then
    throw "ownership conflict: lease absent or expired"
  else pure ()

/-- A request to create an investigation, with its targets already looked up. -/
structure CreateRequest where
  project : Text
  target : Component
  components : List Component
  requiredFacts : List Text
  proofRequirements : Bool
  owner : Owner
  maxActions : Option Int
  wallMs : Option Int
  outputBytes : Option Int
  workbenchMutations : Bool
  analysisHelpers : Bool
  derivedArtifacts : Option (Option Int × Option Int)
  runtimeSessions : List Text

/-- `bound`. -/
def bound (name : String) (fallback max : Nat) (value : Option Int) : Except String Nat :=
  match value with
  | none => .ok fallback
  | some n => if n < 0 ∨ max < n then .error ("invalid bound: " ++ name) else .ok n.toNat

def CreateRequest.grant (request : CreateRequest) : Except String DerivedGrant :=
  match request.derivedArtifacts with
  | none => .ok ⟨0, 0⟩
  | some (artifacts, bytes) =>
    if request.workbenchMutations = false then
      .error "derived-artifact grant requires workbench_mutations"
    else do
      let maxArtifacts ← bound "max_artifacts" 4 16 artifacts
      let maxBytes ← bound "max_bytes" 1048576 16777216 bytes
      if maxArtifacts = 0 ∨ maxBytes = 0 ∨ 32 < request.components.length + maxArtifacts then
        .error "derived-artifact grant exceeds component limit or is empty"
      else pure ⟨maxArtifacts, maxBytes⟩

def CreateRequest.limits (request : CreateRequest) : Except String InvestigationLimits := do
  let maxActions ← bound "max_actions" 16 128 request.maxActions
  let wallMs ← bound "wall_ms" 120000 3600000 request.wallMs
  let outputBytes ← bound "output_bytes" 1048576 16777216 request.outputBytes
  pure ⟨maxActions, wallMs, outputBytes⟩

/-- The record of a new investigation. -/
def CreateRequest.build (request : CreateRequest) (id : Text) : Except String Investigation := do
  if textField request.owner.name 256 = false then .error "invalid text: name"
  else if request.requiredFacts = [] ∨ textList request.requiredFacts 32 = false ∨
      ¬ request.requiredFacts.Nodup then
    .error "invalid required_facts"
  else if request.components = [] ∨ 32 < request.components.length ∨
      ¬ (request.components.map Component.targetId).Nodup then
    .error "scope requires 1..32 target IDs"
  else if request.target ∉ request.components then
    .error "primary target must be included in scope"
  else if request.analysisHelpers = true ∧ request.workbenchMutations = false then
    .error "analysis_helpers requires workbench_mutations"
  else if 8 < request.runtimeSessions.length then
    .error "At most eight runtime observation sessions may be granted"
  else
    let grant ← request.grant
    let limits ← request.limits
    pure {
      id := id
      project := request.project
      targetId := request.target.targetId
      artifactSha256 := request.target.artifactSha256
      components := request.components
      derivedComponents := []
      requiredFacts := request.requiredFacts
      proofRequirements := request.proofRequirements
      owner := request.owner
      revision := 1
      status := .ready
      limits := limits
      reserved := ⟨0, 0, 0, 0, 0⟩
      envelope := ⟨request.workbenchMutations, request.analysisHelpers, grant, request.owner.builtin⟩
      board := []
      reasoning := []
      verifications := 0
      runtimeSessions := request.runtimeSessions
      report := none }

variable (env : HarnessInput)

/-- `create`: the caller gets the lease token. -/
def createInvestigation (request : CreateRequest) : HarnessTx Investigation := do
  let store ← get
  if env.refused then throw "invalid investigation request"
  else
    match request.build env.freshId with
    | .error e => throw e
    | .ok inv =>
      if (store.investigation request.project env.freshId).isSome then
        throw "UNIQUE constraint failed"
      else do
        modify (fun store => { store with investigations := store.investigations ++
          [⟨request.project, env.freshId, inv, sha256 env.token, env.now + 60000⟩] })
        pure inv

/-- Who asks: an owner token, and the controller that the call comes from. -/
structure Caller where
  token : Text
  controller : Option Nat

/-- The decisions of a built-in owner come from its controller. -/
def checkController (caller : Caller) (inv : Investigation) : HarnessTx Unit :=
  if inv.owner.builtin = true ∧ caller.controller = none then
    throw "ownership conflict: built-in reasoning decisions must come from its selected controller"
  else pure ()

variable (project id : Text)

/-- `claim`: a new lease for an investigation that nobody owns or runs. -/
def claimInvestigation (controller : Option Nat)
    (expected : Option Nat) : HarnessTx Investigation := do
  let found ← loadInvestigation project id
  checkRevision expected found.record
  let store ← get
  if env.now < found.deadline ∨ store.running project id env.now controller then
    throw "ownership conflict: active owner"
  else do
    updateInvestigation project id (fun r =>
      { r with tokenHash := sha256 env.token, deadline := env.now + 60000 })
    saveInvestigation project id found.record

/-- `renew`. -/
def renewInvestigation (caller : Caller) : HarnessTx Unit := do
  let found ← loadInvestigation project id
  checkOwnership sha256 env.now caller.token found
  updateInvestigation project id (fun r => { r with deadline := env.now + 60000 })

/-- `cancel`. The jobs of its actions are cancelled by files behind the commit. -/
def cancelInvestigation (caller : Caller) : HarnessTx Investigation := do
  let found ← loadInvestigation project id
  checkOwnership sha256 env.now caller.token found
  if found.record.status.terminal then pure found.record
  else saveInvestigation project id { found.record with status := .cancelled }

/-- Nobody else runs the investigation. -/
def checkIdle (caller : Caller) : HarnessTx Unit := do
  let store ← get
  if store.running project id env.now caller.controller then
    throw "investigation has an active runner"
  else pure ()

variable (inv : Investigation)

/-- The investigation under a new owner. -/
def Investigation.transferred (owner : Owner) : Investigation :=
  { inv with
    owner := owner, envelope := { inv.envelope with modelCalls := owner.builtin } }

/-- `release` without a next owner, else `transfer`. -/
def releaseInvestigation (caller : Caller)
    (expected : Option Nat) (next : Option Owner) : HarnessTx Investigation := do
  let found ← loadInvestigation project id
  checkOwnership sha256 env.now caller.token found
  checkRevision expected found.record
  checkIdle env project id caller
  let store ← get
  if store.unsettled project id = true ∧ found.record.status ≠ .cancelled then
    throw "settle or cancel actions before ownership transfer"
  else if next.any (fun owner => textField owner.name 256 = false) then
    throw "invalid text: name"
  else do
    if next.isSome then
      modify (fun store => { store with
        controllers := store.controllers.filter (fun c => ¬ (c.project = project ∧ c.id = id)) })
    updateInvestigation project id (fun r => { r with tokenHash := [], deadline := 0 })
    saveInvestigation project id (match next with
      | none => found.record
      | some owner => found.record.transferred owner)

/-- What an owner writes into a record while it is open. -/
inductive InvestigationNote where
  | checkpoint (board : Text)
  | reason (reasoning : Text)
  | certify (reasoning : Text)

def Investigation.noted : InvestigationNote → Investigation
  | .checkpoint board => { inv with board := board }
  | .reason reasoning => { inv with reasoning := reasoning }
  | .certify reasoning =>
    { inv with reasoning := reasoning, verifications := inv.verifications + 1 }

/-- A checkpoint and a reasoning update are decisions of the controller; a
certification wants all actions settled and leaves room for its record. -/
def InvestigationNote.allowed (note : InvestigationNote) (store : HarnessStore)
    (project id : Text) (caller : Caller) (inv : Investigation) : Except String Unit :=
  match note with
  | .checkpoint board =>
    if inv.owner.builtin = true ∧ caller.controller = none then .error "ownership conflict"
    else if 32768 < (String.ofList board).utf8ByteSize then .error "board exceeds budget"
    else .ok ()
  | .reason _ =>
    if inv.owner.builtin = true ∧ caller.controller = none then .error "ownership conflict"
    else .ok ()
  | .certify _ =>
    if store.unsettled project id then
      .error "Certification requires a settled active investigation"
    else if 16 ≤ inv.verifications then .error "Verification record limit"
    else .ok ()

/-- `checkpoint`, `reason` and `harness_certify`. -/
def noteInvestigation (caller : Caller)
    (expected : Option Nat) (note : InvestigationNote) : HarnessTx Investigation := do
  let found ← loadInvestigation project id
  checkOwnership sha256 env.now caller.token found
  checkRevision expected found.record
  checkIdle env project id caller
  let store ← get
  if found.record.status.terminal then throw "investigation is terminal"
  else if env.refused then throw "invalid note"
  else
    match note.allowed store project id caller found.record with
    | .error e => throw e
    | .ok () => saveInvestigation project id (found.record.noted note)

structure ProposeRequest where
  project : Text
  id : Text
  key : Text
  proposal : Proposal
  draft : ActionDraft
  expected : Option Nat

def Proposal.valid (proposal : Proposal) : Bool :=
  textField proposal.gap 2048 && textField proposal.expectedEvidence 2048 &&
    textField proposal.prediction 2048 && textField proposal.fallback 2048

variable (store : HarnessStore)

/-- The action of the investigation under a key. -/
def HarnessStore.keyed (project id key : Text) : Option ActionRow :=
  (store.actionsOf project id).find? (fun r => r.key = key)

variable (project id digest : Text)

/-- The actions of the investigation with one request hash. -/
def HarnessStore.repeats : List ActionRow :=
  (store.actionsOf project id).filter (fun r => r.requestHash = digest)

/-- A mutation with this hash ended with an unknown outcome. -/
def HarnessStore.uncertain : Bool :=
  (store.repeats project id digest).any (fun r => r.record.result.any ActionResult.outcomeUnknown)

/-- `propose`, once the request is normalised and its key is new. -/
def insertAction (request : ProposeRequest) (inv : Investigation)
    (normal : ActionRequest) : HarnessTx ActionRecord := do
  let store ← get
  let digest := sha256 (dumpRequest normal)
  if normal.work.workbench = true ∧ store.uncertain request.project request.id digest = true then
    throw "uncertain mutation outcome: inspect history before a different proposal"
  else if 3 ≤ (store.repeats request.project request.id digest).length then
    throw "unproductive cycle limit: change action or finish with gap"
  else
    match inv.reserve normal with
    | .error e => throw e
    | .ok reserved =>
      if (store.action request.project env.freshId).isSome then throw "UNIQUE constraint failed"
      else do
        let action : ActionRecord := ⟨env.freshId, request.project, request.id, request.key,
          request.proposal, normal, .proposed, false, none, none, none⟩
        modify (fun store => { store with actions := store.actions ++
          [⟨request.project, request.id, env.freshId, request.key, digest, action, none, 0⟩] })
        let _ ← saveInvestigation request.project request.id { inv with reserved := reserved }
        pure action

/-- `propose`. A known key answers with its action and reserves nothing. -/
def proposeAction (caller : Caller) (request : ProposeRequest) : HarnessTx ActionRecord := do
  let found ← loadInvestigation request.project request.id
  checkController caller found.record
  checkOwnership sha256 env.now caller.token found
  checkIdle env request.project request.id caller
  let store ← get
  if found.record.status.terminal then throw "investigation is terminal"
  else if textField request.key 64 = false ∨ isIdentifier request.key = false ∨
      request.proposal.valid = false then
    throw "invalid text"
  else
    match normalizeRequest env store found.record request.draft with
    | .error e => throw e
    | .ok normal =>
      match store.keyed request.project request.id request.key with
      | some old =>
        if old.record.request ≠ normal ∨ old.record.proposal ≠ request.proposal then
          throw "idempotency key conflict"
        else pure old.record
      | none => do
        checkRevision request.expected found.record
        insertAction sha256 dumpRequest env request found.record normal

structure FinishRequest where
  project : Text
  id : Text
  expected : Option Nat
  status : InvestigationStatus
  answer : Text
  claims : List ReportClaim
  gaps : List Text

def ReportClaim.valid (claim : ReportClaim) (facts : List Text) : Bool :=
  textField claim.fact 4096 && textField claim.text 4096 && textList claim.limitations 32 &&
    claim.fact ∈ facts && claim.evidenceIds ≠ [] && textList claim.evidenceIds 16

/-- Every required fact has a claim. -/
def FinishRequest.covers (request : FinishRequest) (facts : List Text) : Bool :=
  facts.all (fun fact => fact ∈ request.claims.map ReportClaim.fact)

/-- The report of a request, where its form allows it. An answer that is bound to
proof requirements is checked against the verified proofs instead. -/
def FinishRequest.report (request : FinishRequest) (inv : Investigation) : Except String Report :=
  if request.status = .answered ∧ inv.proofRequirements = true then
    .ok ⟨request.answer, request.claims, request.gaps, true⟩
  else if request.status.terminal = false ∨ request.status = .cancelled then
    .error "invalid terminal status"
  else if textField request.answer 16384 = false ∨ textList request.gaps 32 = false then
    .error "invalid text: answer"
  else if 32 < request.claims.length ∨
      ¬ request.claims.all (fun claim => claim.valid inv.requiredFacts) then
    .error "invalid claims list"
  else if request.status = .answered ∧
      (request.gaps ≠ [] ∨ request.covers inv.requiredFacts = false) then
    .error "answered report has uncovered required facts"
  else .ok ⟨request.answer, request.claims, request.gaps, false⟩

/-- `finish`. Citations and proofs that do not hold refuse it. -/
def finishInvestigation (caller : Caller) (request : FinishRequest) : HarnessTx Investigation := do
  let found ← loadInvestigation request.project request.id
  checkController caller found.record
  checkOwnership sha256 env.now caller.token found
  checkRevision request.expected found.record
  checkIdle env request.project request.id caller
  let store ← get
  if found.record.status.terminal then throw "investigation is terminal"
  else if store.unsettled request.project request.id then
    throw "settle actions before final report"
  else if env.refused then throw "citation not found in investigation project"
  else
    match request.report found.record with
    | .error e => throw e
    | .ok report =>
      saveInvestigation request.project request.id
        { found.record with status := request.status, report := some report }

end Digests

end Indago
