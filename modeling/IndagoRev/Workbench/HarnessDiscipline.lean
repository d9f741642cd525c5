import IndagoRev.Workbench.HarnessSteps

/-!
# The discipline of the harness

Every transaction of an owner, and every access of a run or of a worker, keeps the
discipline of the harness tables.
-/

namespace Indago

open StdText Tables Transactions Interleaving

variable {sha256 : Text → Text} {dump : KnowledgeRecord → Text}
  {dumpRequest : ActionRequest → Text} {guarded : Bool}
variable {store store' : HarnessStore} {project id aid : Text} {n k : Nat}

@[simp] theorem loadInvestigation_ok {r : InvestigationRow × HarnessStore} :
    loadInvestigation project id store = .ok r ↔
      store.investigation project id = some r.1 ∧ store = r.2 := by
  simp only [loadInvestigation, bind_ok, get_ok]
  constructor
  · rintro ⟨_, _, hget, h⟩
    cases hget
    cases hlookup : store.investigation project id with
    | none =>
      rw [hlookup] at h
      exact absurd h throw_ok
    | some found =>
      rw [hlookup] at h
      rw [pure_ok] at h
      rw [h]
      exact ⟨rfl, rfl⟩
  · rintro ⟨hlookup, hstore⟩
    refine ⟨store, store, rfl, ?_⟩
    rw [hlookup, pure_ok, hstore]

@[simp] theorem actionRecord_ok {r : ActionRow × HarnessStore} :
    actionRecord project id aid store = .ok r ↔
      store.action project aid = some r.1 ∧ r.1.investigation = id ∧ store = r.2 := by
  simp only [actionRecord, bind_ok, get_ok]
  constructor
  · rintro ⟨_, _, hget, h⟩
    cases hget
    cases hlookup : store.action project aid with
    | none =>
      rw [hlookup] at h
      exact absurd h throw_ok
    | some found =>
      rw [hlookup] at h
      dsimp only at h
      split at h
      · next howner =>
          rw [pure_ok] at h
          rw [h]
          exact ⟨rfl, howner, rfl⟩
      · exact absurd h throw_ok
  · rintro ⟨hlookup, howner, hstore⟩
    refine ⟨store, store, rfl, ?_⟩
    rw [hlookup]
    dsimp only
    rw [if_pos howner, pure_ok, hstore]

variable {r : Unit × HarnessStore} {change : InvestigationRow → InvestigationRow}

@[simp] theorem updateInvestigation_ok : updateInvestigation project id change store = .ok r ↔
      r = ((), store.withInvestigation project id change) := modify_ok

@[simp] theorem updateAction_ok {change : ActionRow → ActionRow} :
    updateAction project aid change store = .ok r ↔
      r = ((), store.withAction project aid change) := modify_ok

/-- The store with a new revision of an investigation. -/
def HarnessStore.revised (store : HarnessStore) (project id : Text) (inv : Investigation) :
    HarnessStore :=
  store.withInvestigation project id (fun r =>
    { r with record := { inv with revision := inv.revision + 1 } })

variable {inv : Investigation}

@[simp] theorem saveInvestigation_ok {r : Investigation × HarnessStore} :
    saveInvestigation project id inv store = .ok r ↔
      r = ({ inv with revision := inv.revision + 1 }, store.revised project id inv) := by
  simp [saveInvestigation, HarnessStore.revised]

variable {expected : Option Nat}

@[simp] theorem checkRevision_ok : checkRevision expected inv store = .ok r ↔
      expected = some inv.revision ∧ r = ((), store) := by
  unfold checkRevision
  split
  · next h => simp [h]
  · next h => simp [h]

variable {caller : Caller}

@[simp] theorem checkController_ok : checkController caller inv store = .ok r ↔
      ¬ (inv.owner.builtin = true ∧ caller.controller = none) ∧ r = ((), store) := by
  unfold checkController
  split
  · next h => simp [h]
  · next h => simp [h]

@[simp] theorem checkOwnership_ok {now : Nat} {token : Text} {row : InvestigationRow}
    : checkOwnership sha256 now token row store = .ok r ↔
      (textField token 256 = true ∧ row.tokenHash = sha256 token ∧ now < row.deadline) ∧
        r = ((), store) := by
  unfold checkOwnership
  split
  · next h => simp [h]
  next h =>
    split
    · next hlease =>
        constructor
        · intro hthis
          exact absurd hthis throw_ok
        intro ⟨⟨_, htoken, hnow⟩, _⟩
        rcases hlease with hother | hlate
        · exact absurd htoken hother
        · omega
    · next hlease =>
        simp only [not_or, not_not, Nat.not_le] at hlease
        simp [hlease, h]

variable {env : HarnessInput}

@[simp] theorem checkIdle_ok : checkIdle env project id caller store = .ok r ↔
      store.running project id env.now caller.controller = false ∧ r = ((), store) := by
  simp only [checkIdle, bind_ok, get_ok]
  constructor
  · rintro ⟨_, _, hget, h⟩
    cases hget
    split at h
    · exact absurd h throw_ok
    · next hidle => exact ⟨by simpa using hidle, pure_ok.mp h⟩
  · rintro ⟨hidle, hr⟩
    refine ⟨store, store, rfl, ?_⟩
    rw [if_neg (by simp [hidle]), pure_ok, hr]

variable {found : InvestigationRow}

/-- A lease may change as long as the record stays. -/
theorem commits_lease
    (hname : ∀ row, (change row).name = row.name) (hrecord : ∀ row, (change row).record = row.record)
    (hfound : store.investigation project id = some found) :
    (harnessDiscipline sha256 dump dumpRequest guarded).Commits n store
      (store.withInvestigation project id change) := by
  apply commits_investigation hfound
  exact {
    name := hname
    evolves := {
      limits := by rw [hrecord]
      grant := by rw [hrecord]
      changed := Or.inl (hrecord found)
      terminal := by
        intro _
        rw [hrecord]
        exact ⟨rfl, rfl, rfl⟩ }
    project := by rw [hrecord]
    id := by rw [hrecord]
    reserved := by rw [hrecord]
    closed := by
      intro hclosed
      rw [hrecord] at hclosed
      exact Or.inl hclosed }

/-- A record that a new revision may hold: what counts is kept, and the end of a
terminal investigation as well. -/
structure Investigation.Revises (store : HarnessStore) (project id : Text)
    (old inv : Investigation) : Prop where
  sameProject : inv.project = old.project
  sameId : inv.id = old.id
  revision : inv.revision = old.revision
  limits : inv.limits = old.limits
  grant : inv.envelope.derivedArtifacts = old.envelope.derivedArtifacts
  reserved : inv.reserved = old.reserved
  terminal : old.status.terminal = true → inv.status = old.status ∧ inv.report = old.report
  closed : inv.status.closed = true → old.status.closed = true ∨
    store.unsettled project id = false

/-- An owner may store the next revision of a record. -/
theorem commits_revised (hfound : store.investigation project id = some found)
    (h : found.record.Revises store project id inv) :
    (harnessDiscipline sha256 dump dumpRequest guarded).Commits n store
      (store.revised project id inv) := by
  apply commits_investigation hfound
  obtain ⟨hproject, hid⟩ := investigation_name hfound
  exact {
    name := fun _ => rfl
    evolves := {
      limits := h.limits
      grant := h.grant
      changed := by
        right
        show found.record.revision < inv.revision + 1
        rw [h.revision]
        exact Nat.lt_succ_self _
      terminal := fun hterminal =>
        ⟨(h.terminal hterminal).1, h.reserved, (h.terminal hterminal).2⟩ }
    project := h.sameProject
    id := h.sameId
    reserved := h.reserved
    closed := by
      rw [hproject, hid]
      exact h.closed }

/-- What a transaction may do, whichever process runs it. -/
def HarnessTx.Commits {α : Type} (sha256 : Text → Text) (dump : KnowledgeRecord → Text)
    (dumpRequest : ActionRequest → Text) (guarded : Bool) (n : Nat) (t : HarnessTx α) : Prop :=
  ∀ store a store', t store = .ok (a, store') →
    (∃ k, store.Sound sha256 dump dumpRequest k) →
      (harnessDiscipline sha256 dump dumpRequest guarded).Commits n store store'

theorem commits_claimInvestigation {controller expected : Option Nat} :
    (claimInvestigation sha256 env project id controller expected).Commits
      sha256 dump dumpRequest guarded n := by
  intro store inv store' h _
  simp only [claimInvestigation, bind_ok, get_ok, loadInvestigation_ok, checkRevision_ok] at h
  obtain ⟨found, _, ⟨hfound, rfl⟩, _, _, ⟨_, hcheck⟩, _, _, hget, h⟩ := h
  cases hcheck
  cases hget
  split at h
  · exact absurd h throw_ok
  simp only [bind_ok, updateInvestigation_ok, saveInvestigation_ok] at h
  obtain ⟨_, _, hlease, h⟩ := h
  cases hlease
  cases h
  have hleased : (harnessDiscipline sha256 dump dumpRequest guarded).Commits n store
      (store.withInvestigation project id (fun r =>
        { r with tokenHash := sha256 env.token, deadline := env.now + 60000 })) :=
    commits_lease (fun _ => rfl) (fun _ => rfl) hfound
  have hafter := investigation_changed (fun _ => rfl : ∀ r : InvestigationRow, InvestigationRow.name
    { r with tokenHash := sha256 env.token, deadline := env.now + 60000 } = r.name) hfound
  exact hleased.trans (commits_revised hafter
    ⟨rfl, rfl, rfl, rfl, rfl, rfl, fun _ => ⟨rfl, rfl⟩, Or.inl⟩)

theorem commits_renewInvestigation :
    (renewInvestigation sha256 env project id caller).Commits sha256 dump dumpRequest guarded n := by
  intro store _ store' h _
  simp only [renewInvestigation, bind_ok, loadInvestigation_ok, checkOwnership_ok,
    updateInvestigation_ok] at h
  obtain ⟨found, _, ⟨hfound, rfl⟩, _, _, ⟨_, hcheck⟩, h⟩ := h
  cases hcheck
  cases h
  exact commits_lease (fun _ => rfl) (fun _ => rfl) hfound

theorem commits_cancelInvestigation : (cancelInvestigation sha256 env project id caller).Commits
      sha256 dump dumpRequest guarded n := by
  intro store inv store' h _
  simp only [cancelInvestigation, bind_ok, loadInvestigation_ok, checkOwnership_ok] at h
  obtain ⟨found, _, ⟨hfound, rfl⟩, _, _, ⟨_, hcheck⟩, h⟩ := h
  cases hcheck
  split at h
  · cases pure_ok.mp h
    exact .refl _ n store
  next hopen =>
    rw [saveInvestigation_ok] at h
    cases h
    apply commits_revised hfound
    exact ⟨rfl, rfl, rfl, rfl, rfl, rfl, fun hterminal => absurd hterminal hopen, fun h => by cases h⟩

theorem commits_controllers {rows : List ControllerRow} :
    (harnessDiscipline sha256 dump dumpRequest guarded).Commits n store
      { store with controllers := rows } := commits_same rfl rfl rfl

theorem Investigation.Revises.of_actions {old inv : Investigation}
    (h : old.Revises store project id inv) (hactions : store'.actions = store.actions) :
    old.Revises store' project id inv where
  __ := h
  closed := by
    unfold HarnessStore.unsettled HarnessStore.actionsOf
    rw [hactions]
    exact h.closed

theorem commits_relinquish {inv inv' : Investigation}
    (hfound : store.investigation project id = some found)
    (hrevises : found.record.Revises store project id inv')
    (h : (do updateInvestigation project id (fun r => { r with tokenHash := [], deadline := 0 })
             saveInvestigation project id inv' : HarnessTx Investigation) store =
      .ok (inv, store')) :
    (harnessDiscipline sha256 dump dumpRequest guarded).Commits n store store' := by
  simp only [bind_ok, updateInvestigation_ok, saveInvestigation_ok] at h
  obtain ⟨_, _, hlease, h⟩ := h
  cases hlease
  cases h
  have hleased : (harnessDiscipline sha256 dump dumpRequest guarded).Commits n store
      (store.withInvestigation project id (fun r => { r with tokenHash := [], deadline := 0 })) :=
    commits_lease (fun _ => rfl) (fun _ => rfl) hfound
  have hafter := investigation_changed (fun _ => rfl : ∀ r : InvestigationRow,
    InvestigationRow.name { r with tokenHash := [], deadline := 0 } = r.name) hfound
  exact hleased.trans (commits_revised hafter (hrevises.of_actions rfl))

theorem commits_releaseInvestigation {next : Option Owner} :
    (releaseInvestigation sha256 env project id caller expected next).Commits
      sha256 dump dumpRequest guarded n := by
  intro store inv store' h _
  simp only [releaseInvestigation, bind_ok, get_ok, loadInvestigation_ok, checkOwnership_ok,
    checkRevision_ok, checkIdle_ok] at h
  obtain ⟨found, _, ⟨hfound, rfl⟩, _, _, ⟨_, hcheck⟩, _, _, ⟨_, hrevision⟩, _, _, ⟨_, hidle⟩, _, _,
    hget, h⟩ := h
  cases hcheck
  cases hrevision
  cases hidle
  cases hget
  split at h
  · exact absurd h throw_ok
  split at h
  · exact absurd h throw_ok
  -- the controllers go first, then the lease, then the owner
  cases next with
  | none =>
    rw [if_neg (by simp)] at h
    exact commits_relinquish hfound
      ⟨rfl, rfl, rfl, rfl, rfl, rfl, fun _ => ⟨rfl, rfl⟩, Or.inl⟩ h
  | some owner =>
    rw [if_pos (show (some owner).isSome = true from rfl)] at h
    simp only [bind_ok, modify_ok] at h
    obtain ⟨_, _, hcleared, h⟩ := h
    cases hcleared
    have hcontrollers : ∀ rows, ({ store with controllers := rows } :
        HarnessStore).investigation project id = some found := fun _ => hfound
    have hrevises : ∀ s, found.record.Revises s project id (found.record.transferred owner) :=
      fun _ => ⟨rfl, rfl, rfl, rfl, rfl, rfl, fun _ => ⟨rfl, rfl⟩, Or.inl⟩
    exact commits_controllers.trans
      (commits_relinquish (hcontrollers _) (hrevises _) (bind_ok.mpr h))

theorem commits_noteInvestigation {note : InvestigationNote} :
    (noteInvestigation sha256 env project id caller expected note).Commits
      sha256 dump dumpRequest guarded n := by
  intro store inv store' h _
  simp only [noteInvestigation, bind_ok, get_ok, loadInvestigation_ok, checkOwnership_ok,
    checkRevision_ok, checkIdle_ok] at h
  obtain ⟨found, _, ⟨hfound, rfl⟩, _, _, ⟨_, hcheck⟩, _, _, ⟨_, hrevision⟩, _, _, ⟨_, hidle⟩, _, _,
    hget, h⟩ := h
  cases hcheck
  cases hrevision
  cases hidle
  cases hget
  split at h
  · exact absurd h throw_ok
  next hopen =>
    split at h
    · exact absurd h throw_ok
    cases hallowed : note.allowed store project id caller found.record with
    | error e =>
      rw [hallowed] at h
      exact absurd h throw_ok
    | ok _ =>
      rw [hallowed] at h
      rw [saveInvestigation_ok] at h
      cases h
      apply commits_revised hfound
      cases note with
      | checkpoint | reason | certify =>
        exact ⟨rfl, rfl, rfl, rfl, rfl, rfl, fun _ => ⟨rfl, rfl⟩, Or.inl⟩

theorem commits_finishInvestigation {request : FinishRequest} :
    (finishInvestigation sha256 env caller request).Commits sha256 dump dumpRequest guarded n := by
  intro store inv store' h _
  simp only [finishInvestigation, bind_ok, get_ok, loadInvestigation_ok, checkController_ok,
    checkOwnership_ok, checkRevision_ok, checkIdle_ok] at h
  obtain ⟨found, _, ⟨hfound, rfl⟩, _, _, ⟨_, hcontroller⟩, _, _, ⟨_, hcheck⟩, _, _, ⟨_, hrevision⟩,
    _, _, ⟨_, hidle⟩, _, _, hget, h⟩ := h
  cases hcontroller
  cases hcheck
  cases hrevision
  cases hidle
  cases hget
  split at h
  · exact absurd h throw_ok
  next hopen =>
    split at h
    · exact absurd h throw_ok
    next hsettled =>
      split at h
      · exact absurd h throw_ok
      cases hreport : request.report found.record with
      | error e =>
        rw [hreport] at h
        exact absurd h throw_ok
      | ok report =>
        rw [hreport, saveInvestigation_ok] at h
        cases h
        apply commits_revised hfound
        exact ⟨rfl, rfl, rfl, rfl, rfl, rfl, fun hterminal => absurd hterminal hopen,
          fun _ => Or.inr (by simpa using hsettled)⟩

end Indago
