import IndagoRev.Workbench.HarnessDiscipline

/-!
# Proposals

A normalised request stays far below the range of a counter, so that a
reservation adds exactly the share of its request, and stays within the limits of
the investigation.
-/

namespace Indago

open StdText Tables Transactions Interleaving

variable {sha256 : Text → Text} {dump : KnowledgeRecord → Text}
  {dumpRequest : ActionRequest → Text} {guarded : Bool}
variable {store store' : HarnessStore} {project id aid : Text} {n k : Nat}

/-- What a normalised request may ask for at most. -/
structure ActionRequest.Capped (request : ActionRequest) : Prop where
  outputBytes : request.budget.outputBytes ≤ 67108864
  derivedBytes : request.derivedBytes.getD 0 ≤ 1048576

variable {value : Option Int}

theorem budgetField_le {name : String} {fallback min max : Nat} {n : Nat}
    (h : budgetField name fallback min max value = .ok n) (hfallback : fallback ≤ max) :
    n ≤ max := by
  unfold budgetField at h
  cases value with
  | none => cases h; exact hfallback
  | some v =>
    dsimp only at h
    split at h
    · cases h
    · cases h
      omega

theorem normalizeBudget_outputBytes {draft : Option BudgetDraft} {budget : ActionBudget}
    (h : normalizeBudget draft = .ok budget) : budget.outputBytes ≤ 67108864 := by
  cases draft with
  | none => cases h; decide
  | some draft =>
    simp only [normalizeBudget, except_bind_ok] at h
    obtain ⟨wallMs, _, outputBytes, houtput, memoryBytes, _, maxItems, _, h⟩ := h
    cases h
    exact budgetField_le houtput (by decide)

variable {env : HarnessInput} {inv : Investigation} {request : ActionRequest}

variable {draft : ActionDraft}

theorem normalizeStatic_capped {backend operation : Text} {c : Component}
    (h : normalizeStatic env store inv draft backend operation c = .ok request) :
    request.Capped := by
  unfold normalizeStatic at h
  split at h
  · cases h
  split at h
  · cases h
  simp only [except_bind_ok] at h
  obtain ⟨budget, hbudget, h⟩ := h
  split at h
  · cases h
  split at h
  · cases h
  split at h
  · cases h
  · cases h
    exact ⟨normalizeBudget_outputBytes hbudget, by simp⟩

theorem capsule_outputBytes (work : ActionWork) : work.capsule.outputBytes ≤ 67108864 := by
  unfold ActionWork.capsule
  split <;> decide

/-- A transform without a container names a range of at most one MiB. -/
theorem reservation_le {work : ActionWork}
    (h : work.granted inv = .ok ()) : work.reservation.getD 0 ≤ 1048576 := by
  cases work with
  | transformRun spec offset size container =>
    cases container with
    | true => simp [ActionWork.reservation]
    | false =>
      simp only [ActionWork.granted] at h
      split at h
      · cases h
      split at h
      · cases h
      · next hsize =>
          simp only [true_and, Nat.not_lt] at hsize
          simpa [ActionWork.reservation] using hsize
  | _ => simp [ActionWork.reservation]

theorem normalizeWorkbench_capped {c : Component}
    (h : normalizeWorkbench env store inv draft c = .ok request) : request.Capped := by
  unfold normalizeWorkbench at h
  split at h
  · cases h
  simp only [except_bind_ok] at h
  obtain ⟨_, hgranted, pins, _, h⟩ := h
  repeat (split at h; · cases h)
  cases h
  exact ⟨capsule_outputBytes draft.work, reservation_le hgranted⟩

/-- Every normalised request is far below the range of a counter. -/
theorem normalizeRequest_capped
    (h : normalizeRequest env store inv draft = .ok request) : request.Capped := by
  simp only [normalizeRequest, except_bind_ok] at h
  obtain ⟨c, _, h⟩ := h
  split at h
  · cases h
  · split at h
    · exact normalizeStatic_capped h
    · exact normalizeWorkbench_capped h

theorem add64_eq {m n : Nat} (h : m + n < 2 ^ 64) : add64 m n = m + n := Nat.mod_eq_of_lt h

theorem Reserved.of_append (requests : List ActionRequest) (request : ActionRequest) :
    Reserved.of (requests ++ [request]) = {
      actions := (Reserved.of requests).actions + 1
      wallMs := (Reserved.of requests).wallMs + request.budget.wallMs
      outputBytes := (Reserved.of requests).outputBytes + request.budget.outputBytes
      derivedArtifacts := (Reserved.of requests).derivedArtifacts +
        if request.derivedBytes.isSome then 1 else 0
      derivedBytes := (Reserved.of requests).derivedBytes + request.derivedBytes.getD 0 } := by
  simp [Reserved.of, List.countP_cons]

variable {grant : DerivedGrant}

theorem derive_ok {used next : Reserved} {bytes : Option Nat}
    (h : used.derive grant bytes = .ok next) (hcapped : bytes.getD 0 ≤ 1048576)
    (hartifacts : used.derivedArtifacts ≤ 16) (hbytes : used.derivedBytes ≤ 16777216) :
    next = { used with
      derivedArtifacts := used.derivedArtifacts + if bytes.isSome then 1 else 0
      derivedBytes := used.derivedBytes + bytes.getD 0 } ∧
    (used.derivedArtifacts ≤ grant.maxArtifacts → next.derivedArtifacts ≤ grant.maxArtifacts) ∧
    (used.derivedBytes ≤ grant.maxBytes → next.derivedBytes ≤ grant.maxBytes) := by
  cases bytes with
  | none =>
    cases h
    simp
  | some bytes =>
    simp only [Option.getD_some] at hcapped
    simp only [Reserved.derive] at h
    rw [add64_eq (by omega), add64_eq (by omega)] at h
    split at h
    · cases h
    · cases h
      simp only [Option.isSome_some, if_true, Option.getD_some, true_and]
      omega

/-- A reservation adds the share of its request and stays within the limits. -/
theorem reserve_ok {used : Reserved}
    {requests : List ActionRequest} (h : inv.reserve request = .ok used)
    (hcapped : request.Capped) (hcounted : inv.reserved = Reserved.of requests)
    (hbounded : inv.Bounded)
    (hwithin : inv.reserved.Within inv.limits inv.envelope.derivedArtifacts) :
    used = Reserved.of (requests ++ [request]) ∧
      used.Within inv.limits inv.envelope.derivedArtifacts := by
  simp only [Investigation.reserve, except_bind_ok] at h
  obtain ⟨derived, hderive, h⟩ := h
  obtain ⟨hderived, hartifacts, hbytes⟩ := derive_ok hderive hcapped.derivedBytes
    (Nat.le_trans hwithin.derivedArtifacts hbounded.maxArtifacts)
    (Nat.le_trans hwithin.derivedBytes hbounded.maxBytes)
  have hactions : derived.actions = inv.reserved.actions := by rw [hderived]
  have hwall : derived.wallMs = inv.reserved.wallMs := by rw [hderived]
  have houtput : derived.outputBytes = inv.reserved.outputBytes := by rw [hderived]
  split at h
  · cases h
  next hroom =>
    simp only [not_or, Nat.not_lt, Nat.not_le] at hroom
    obtain ⟨hwallCap, _, hroomActions, hroomWall, hroomOutput⟩ := hroom
    obtain ⟨hmaxActions, hmaxWall, hmaxOutput, _, _⟩ := hbounded
    have hwallLe := hwithin.wallMs
    have houtputLe := hwithin.outputBytes
    have hcapOutput := hcapped.outputBytes
    have haddActions : add64 derived.actions 1 = derived.actions + 1 := add64_eq (by omega)
    have haddWall : add64 derived.wallMs request.budget.wallMs =
        derived.wallMs + request.budget.wallMs := add64_eq (by omega)
    have haddOutput : add64 derived.outputBytes request.budget.outputBytes =
        derived.outputBytes + request.budget.outputBytes := add64_eq (by omega)
    rw [haddWall] at hroomWall
    rw [haddOutput] at hroomOutput
    rw [haddActions, haddWall, haddOutput] at h
    cases h
    constructor
    · rw [Reserved.of_append, ← hcounted, hderived]
    exact {
      actions := hroomActions
      wallMs := hroomWall
      outputBytes := hroomOutput
      derivedArtifacts := hartifacts hwithin.derivedArtifacts
      derivedBytes := hbytes hwithin.derivedBytes }

theorem bound_le {name : String} {fallback max : Nat} {n : Nat}
    (h : bound name fallback max value = .ok n) (hfallback : fallback ≤ max) : n ≤ max := by
  unfold bound at h
  cases value with
  | none => cases h; exact hfallback
  | some v =>
    dsimp only at h
    split at h
    · cases h
    · cases h
      omega

variable {request : CreateRequest}

theorem grant_bounded
    (h : request.grant = .ok grant) : grant.maxArtifacts ≤ 16 ∧ grant.maxBytes ≤ 16777216 := by
  unfold CreateRequest.grant at h
  split at h
  · cases h
    decide
  split at h
  · cases h
  simp only [except_bind_ok] at h
  obtain ⟨maxArtifacts, hartifacts, maxBytes, hbytes, h⟩ := h
  split at h
  · cases h
  · cases h
    exact ⟨bound_le hartifacts (by decide), bound_le hbytes (by decide)⟩

/-- The record of a new investigation. -/
structure CreateRequest.Built (request : CreateRequest) (id : Text) (inv : Investigation) :
    Prop where
  sameProject : inv.project = request.project
  sameId : inv.id = id
  ready : inv.status = .ready
  reserved : inv.reserved = ⟨0, 0, 0, 0, 0⟩
  bounded : inv.Bounded

theorem build_ok (h : request.build id = .ok inv) : request.Built id inv := by
  unfold CreateRequest.build at h
  repeat (split at h; · cases h)
  simp only [except_bind_ok] at h
  obtain ⟨grant, hgrant, limits, hlimits, h⟩ := h
  simp only [CreateRequest.limits, except_bind_ok] at hlimits
  obtain ⟨maxActions, hactions, wallMs, hwall, outputBytes, houtput, hlimits⟩ := hlimits
  cases hlimits
  cases h
  exact {
    sameProject := rfl
    sameId := rfl
    ready := rfl
    reserved := rfl
    bounded := ⟨bound_le hactions (by decide), bound_le hwall (by decide),
      bound_le houtput (by decide), (grant_bounded hgrant).1, (grant_bounded hgrant).2⟩ }

theorem commits_createInvestigation :
    (createInvestigation sha256 env request).Commits sha256 dump dumpRequest guarded n := by
  intro store inv store' h _
  simp only [createInvestigation, bind_ok, get_ok] at h
  obtain ⟨_, _, hget, h⟩ := h
  cases hget
  split at h
  · exact absurd h throw_ok
  cases hbuild : request.build env.freshId with
  | error e =>
    rw [hbuild] at h
    exact absurd h throw_ok
  | ok built =>
    rw [hbuild] at h
    dsimp only at h
    have hbuilt := build_ok hbuild
    split at h
    · exact absurd h throw_ok
    next hnew =>
      simp only [bind_ok, modify_ok, pure_ok] at h
      obtain ⟨_, _, hadded, h⟩ := h
      cases hadded
      cases h
      refine commits_opened ?_ hbuilt.sameProject hbuilt.sameId hbuilt.bounded
        hbuilt.reserved ?_
      · simpa using hnew
      · rw [hbuilt.ready]
        rfl

/-- The row that a proposal inserts. -/
def ProposeRequest.row (sha256 : Text → Text) (dumpRequest : ActionRequest → Text)
    (request : ProposeRequest) (freshId : Text) (normal : ActionRequest) : ActionRow :=
  ⟨request.project, request.id, freshId, request.key, sha256 (dumpRequest normal),
    ⟨freshId, request.project, request.id, request.key, request.proposal, normal, .proposed, false,
      none, none, none⟩, none, 0⟩

/-- What a proposal that is accepted does: a known key answers with its action, a
new one reserves and inserts. -/
inductive Proposed (sha256 : Text → Text) (dumpRequest : ActionRequest → Text)
    (env : HarnessInput) (request : ProposeRequest) (store : HarnessStore)
    (inv : Investigation) (normal : ActionRequest) : ActionRecord → HarnessStore → Prop where
  | known (old : ActionRow) (hkeyed : store.keyed request.project request.id request.key = some old)
      (hrequest : old.record.request = normal) (hproposal : old.record.proposal = request.proposal) :
      Proposed sha256 dumpRequest env request store inv normal old.record store
  | inserted (reserved : Reserved)
      (hkeyed : store.keyed request.project request.id request.key = none)
      (hexpected : request.expected = some inv.revision)
      (hreserved : inv.reserve normal = .ok reserved)
      (hfresh : store.action request.project env.freshId = none) :
      Proposed sha256 dumpRequest env request store inv normal
        (request.row sha256 dumpRequest env.freshId normal).record
        ({ store with actions := store.actions ++
          [request.row sha256 dumpRequest env.freshId normal] }.revised request.project request.id
            { inv with reserved := reserved })

variable {request : ProposeRequest} {normal : ActionRequest}

theorem insertAction_ok {r : ActionRecord × HarnessStore}
    (h : insertAction sha256 dumpRequest env request inv normal store = .ok r)
    (hkeyed : store.keyed request.project request.id request.key = none)
    (hexpected : request.expected = some inv.revision) :
    Proposed sha256 dumpRequest env request store inv normal r.1 r.2 := by
  simp only [insertAction, bind_ok, get_ok] at h
  obtain ⟨_, _, hget, h⟩ := h
  cases hget
  split at h
  · exact absurd h throw_ok
  split at h
  · exact absurd h throw_ok
  cases hreserve : inv.reserve normal with
  | error e =>
    rw [hreserve] at h
    exact absurd h throw_ok
  | ok reserved =>
    rw [hreserve] at h
    dsimp only at h
    split at h
    · exact absurd h throw_ok
    next hfresh =>
      simp only [bind_ok, modify_ok, pure_ok, saveInvestigation_ok] at h
      obtain ⟨_, _, hadded, _, _, hsaved, h⟩ := h
      cases hadded
      cases hsaved
      cases h
      exact .inserted reserved hkeyed hexpected hreserve (by simpa using hfresh)

/-- What lets a proposal through to its request. -/
structure ProposeRequest.Admitted (sha256 : Text → Text) (env : HarnessInput) (caller : Caller)
    (request : ProposeRequest) (store : HarnessStore) (found : InvestigationRow) : Prop where
  lookup : store.investigation request.project request.id = some found
  controller : ¬ (found.record.owner.builtin = true ∧ caller.controller = none)
  owned : textField caller.token 256 = true ∧ found.tokenHash = sha256 caller.token ∧
    env.now < found.deadline
  idle : store.running request.project request.id env.now caller.controller = false
  isOpen : found.record.status.terminal = false
  valid : textField request.key 64 = true ∧ isIdentifier request.key = true ∧
    request.proposal.valid = true

variable {caller : Caller}

/-- What an accepted proposal has checked and stored. -/
theorem proposeAction_ok {action : ActionRecord}
    (h : proposeAction sha256 dumpRequest env caller request store = .ok (action, store')) :
    ∃ found normal, request.Admitted sha256 env caller store found ∧
      normalizeRequest env store found.record request.draft = .ok normal ∧
      Proposed sha256 dumpRequest env request store found.record normal action store' := by
  simp only [proposeAction, bind_ok, get_ok, loadInvestigation_ok, checkController_ok,
    checkOwnership_ok, checkIdle_ok] at h
  obtain ⟨found, _, ⟨hfound, rfl⟩, _, _, ⟨hcontroller, hcheck⟩, _, _, ⟨howned, howner⟩, _, _,
    ⟨hidle, hstill⟩, _, _, hget, h⟩ := h
  cases hcheck
  cases howner
  cases hstill
  cases hget
  split at h
  · exact absurd h throw_ok
  next hopen =>
    split at h
    · exact absurd h throw_ok
    next hvalid =>
      simp only [not_or, Bool.not_eq_false] at hvalid
      cases hnormal : normalizeRequest env store found.record request.draft with
      | error e =>
        rw [hnormal] at h
        exact absurd h throw_ok
      | ok normal =>
        rw [hnormal] at h
        dsimp only at h
        refine ⟨found, normal, ⟨hfound, hcontroller, howned, hidle, by simpa using hopen,
          hvalid⟩, hnormal, ?_⟩
        cases hkeyed : store.keyed request.project request.id request.key with
        | some old =>
          rw [hkeyed] at h
          dsimp only at h
          split at h
          · exact absurd h throw_ok
          next hsame =>
            simp only [ne_eq, not_or, not_not] at hsame
            cases pure_ok.mp h
            exact .known old hkeyed hsame.1 hsame.2
        | none =>
          rw [hkeyed] at h
          simp only [bind_ok, checkRevision_ok] at h
          obtain ⟨_, _, ⟨hexpected, hcheck⟩, h⟩ := h
          cases hcheck
          exact insertAction_ok h hkeyed hexpected

/-- A repeated proposal returns the stored action. -/
theorem proposeAction_known {found : InvestigationRow} {old : ActionRow}
    (hadmitted : request.Admitted sha256 env caller store found)
    (hnormal : normalizeRequest env store found.record request.draft = .ok old.record.request)
    (hkeyed : store.keyed request.project request.id request.key = some old)
    (hproposal : old.record.proposal = request.proposal) :
    proposeAction sha256 dumpRequest env caller request store = .ok (old.record, store) := by
  simp only [proposeAction, bind_ok, get_ok, loadInvestigation_ok, checkController_ok,
    checkOwnership_ok, checkIdle_ok]
  refine ⟨found, store, ⟨hadmitted.lookup, rfl⟩, (), store, ⟨hadmitted.controller, rfl⟩, (), store,
    ⟨hadmitted.owned, rfl⟩, (), store, ⟨hadmitted.idle, rfl⟩, store, store, rfl, ?_⟩
  rw [if_neg (by simp [hadmitted.isOpen]), if_neg (by simp [hadmitted.valid]), hnormal]
  dsimp only
  rw [hkeyed]
  dsimp only
  rw [if_neg (by simp [hproposal])]
  rfl

theorem ProposeRequest.row_new {freshId : Text} :
    (request.row sha256 dumpRequest freshId normal).New sha256 dumpRequest where
  sound := {
    project := rfl
    investigation := rfl
    id := rfl
    key := rfl
    hash := rfl
    started := nofun
    running := nofun
    held := nofun
    static := fun _ => ⟨rfl, rfl⟩
    dispatched := nofun }
  runner := rfl
  publication := rfl

theorem closed_of_open {status : InvestigationStatus} (h : status.terminal = false) :
    status.closed = false := by
  simp [InvestigationStatus.closed, h]

theorem commits_proposeAction : (proposeAction sha256 dumpRequest env caller request).Commits
      sha256 dump dumpRequest guarded n := by
  intro store action store' h _
  obtain ⟨found, normal, hadmitted, hnormal, hproposed⟩ := proposeAction_ok h
  have hopen := hadmitted.isOpen
  cases hproposed with
  | known old => exact .refl _ n store
  | inserted reserved hkeyed hexpected hreserved hfresh =>
    refine commits_insert hadmitted.lookup (closed_of_open hopen) rfl rfl hfresh ProposeRequest.row_new
      (fun _ => rfl) ?_ ⟨rfl, rfl, rfl⟩ ?_
    · exact {
        limits := rfl
        grant := rfl
        changed := Or.inr (Nat.lt_succ_self _)
        terminal := fun hterminal => by rw [hopen] at hterminal; cases hterminal }
    · intro hcounted hbounded hwithin
      exact reserve_ok hreserved (normalizeRequest_capped hnormal) hcounted hbounded hwithin

end Indago
