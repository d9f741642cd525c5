import IndagoRev.Workbench.HarnessInvariant

/-!
# Changes of the harness tables

Each transaction of the harness is made of a few kinds of changes: one action row,
one investigation row, a new row, or the knowledge tables. For each kind there is
one lemma that says when it keeps the discipline.
-/

namespace Indago

open StdText Tables Transactions Interleaving List

variable {sha256 : Text → Text} {dump : KnowledgeRecord → Text}
  {dumpRequest : ActionRequest → Text} {guarded : Bool}
variable {store : HarnessStore} {project id aid : Text} {n k : Nat}

/-- The store with one action row changed. -/
def HarnessStore.withAction (store : HarnessStore) (project id : Text)
    (change : ActionRow → ActionRow) : HarnessStore :=
  { store with actions := rewrite ActionRow.name (project, id) change store.actions }

/-- The store with one investigation row changed. -/
def HarnessStore.withInvestigation (store : HarnessStore) (project id : Text)
    (change : InvestigationRow → InvestigationRow) : HarnessStore :=
  { store with
    investigations := rewrite InvestigationRow.name (project, id) change store.investigations }

theorem action_name {row : ActionRow} (h : store.action project aid = some row) :
    row.project = project ∧ row.id = aid := by
  have hkey := row_some_key h
  simpa [ActionRow.name] using hkey

theorem investigation_name {row : InvestigationRow}
    (h : store.investigation project id = some row) : row.project = project ∧ row.id = id := by
  have hkey := row_some_key h
  simpa [InvestigationRow.name] using hkey

variable {change : ActionRow → ActionRow}

theorem action_withAction {project' aid' : Text} (hkey : ∀ row, (change row).name = row.name) :
    (store.withAction project aid change).action project' aid' =
      if (project', aid') = (project, aid) then (store.action project aid).map change
      else store.action project' aid' := by
  by_cases hsame : (project', aid') = (project, aid)
  · rw [if_pos hsame]
    obtain ⟨rfl, rfl⟩ := Prod.mk.inj hsame
    exact row_rewrite_self hkey
  · rw [if_neg hsame]
    exact row_rewrite_other hkey hsame

theorem investigation_withInvestigation {change : InvestigationRow → InvestigationRow}
    {project' id' : Text} (hkey : ∀ row, (change row).name = row.name) :
    (store.withInvestigation project id change).investigation project' id' =
      if (project', id') = (project, id) then (store.investigation project id).map change
      else store.investigation project' id' := by
  by_cases hsame : (project', id') = (project, id)
  · rw [if_pos hsame]
    obtain ⟨rfl, rfl⟩ := Prod.mk.inj hsame
    exact row_rewrite_self hkey
  · rw [if_neg hsame]
    exact row_rewrite_other hkey hsame

variable {found : ActionRow}

theorem action_changed (hkey : ∀ row, (change row).name = row.name)
    (hfound : store.action project aid = some found) :
    (store.withAction project aid change).action project aid = some (change found) := by
  rw [action_withAction hkey, if_pos rfl, hfound]
  rfl

theorem investigation_changed {change : InvestigationRow → InvestigationRow}
    (hkey : ∀ row, (change row).name = row.name) {found : InvestigationRow}
    (hfound : store.investigation project id = some found) :
    (store.withInvestigation project id change).investigation project id = some (change found) := by
  rw [investigation_withInvestigation hkey, if_pos rfl, hfound]
  rfl

/-- A row behind a change is the changed row or was there before. -/
theorem mem_withAction (hnames : (store.actions.map ActionRow.name).Nodup)
    (hfound : store.action project aid = some found)
    {row : ActionRow} (h : row ∈ (store.withAction project aid change).actions) :
    row = change found ∨ (row ∈ store.actions ∧ row.name ≠ (project, aid)) := by
  rcases mem_rewrite h with ⟨old, hold, hname, rfl⟩ | hother
  · have hlookup := row_of_mem hnames hold
    rw [hname] at hlookup
    have hsame : store.action project aid = some old := hlookup
    rw [hfound] at hsame
    rw [Option.some.inj hsame]
    exact Or.inl rfl
  · exact Or.inr hother

theorem identity_eq {row row' : ActionRow} (h : row'.identity = row.identity) :
    row'.project = row.project ∧ row'.investigation = row.investigation ∧ row'.id = row.id ∧
      row'.key = row.key ∧ row'.requestHash = row.requestHash ∧
      row'.record.identity = row.record.identity := by
  simp only [ActionRow.identity, Prod.mk.injEq] at h
  exact ⟨h.1.1, h.1.2.1, h.1.2.2, h.2.1.1, h.2.1.2, h.2.2⟩

theorem request_eq {a b : ActionRecord} (h : a.identity = b.identity) : a.request = b.request := by
  simp only [ActionRecord.identity, Prod.mk.injEq] at h
  exact h.2.2.2.2.2

/-- A change that keeps what was proposed keeps the requests of every investigation. -/
theorem requests_withAction (hnames : (store.actions.map ActionRow.name).Nodup)
    (hfound : store.action project aid = some found)
    (hidentity : (change found).identity = found.identity)
    (project' id' : Text) : (store.withAction project aid change).requests project' id' =
      store.requests project' id' := by
  apply map_filter_rewrite
  intro row hrow hname
  have hlookup := row_of_mem hnames hrow
  rw [hname] at hlookup
  have hsame : store.action project aid = some row := hlookup
  rw [hfound] at hsame
  obtain rfl := Option.some.inj hsame
  obtain ⟨hproject, hinvestigation, _, _, _, hrecord⟩ := identity_eq hidentity
  exact ⟨by rw [hproject, hinvestigation], request_eq hrecord⟩

theorem ActionRow.Sound.mono {row : ActionRow} (h : row.Sound sha256 dumpRequest n) (hle : n ≤ k) :
    row.Sound sha256 dumpRequest k where
  __ := h
  started := fun m hm => Nat.lt_of_lt_of_le (h.started m hm) hle

theorem HarnessStore.Sound.mono (h : store.Sound sha256 dump dumpRequest n) (hle : n ≤ k) :
    store.Sound sha256 dump dumpRequest k where
  __ := h
  rows := fun row hrow => (h.rows row hrow).mono hle

/-- Where an investigation is open or nothing of it is unsettled, no runner is left
behind. -/
theorem HarnessStore.Sound.idle (h : store.Sound sha256 dump dumpRequest k)
    (hsettled : store.unsettled project id = false) :
    ∀ row ∈ store.actionsOf project id, row.runner = none := by
  intro row hrow
  have hmem : row ∈ store.actions := (mem_filter.mp hrow).1
  cases hrunner : row.runner with
  | none => rfl
  | some m =>
    have hstatus := (h.rows row hmem).running (by rw [hrunner]; rfl)
    have hnot := any_eq_false.mp hsettled row hrow
    simp [ActionRecord.unsettled, hstatus] at hnot

/-- What a change of one action row has to keep. -/
structure ActionChange (sha256 : Text → Text) (dumpRequest : ActionRequest → Text)
    (guarded : Bool) (n : Nat) (store : HarnessStore) (found : ActionRow)
    (change : ActionRow → ActionRow) : Prop where
  name : ∀ row, (change row).name = row.name
  evolves : found.Evolves guarded (change found)
  publication : (change found).record.publication = found.record.publication
  sound : ∀ k, n < k → found.Sound sha256 dumpRequest k → (change found).Sound sha256 dumpRequest k
  runner : ∀ m, (change found).runner = some m → m = n ∨ found.runner = some m ∧
    (found.record.request.work.workbench = true → found.record.dispatchStarted = false →
      (change found).record = found.record)
  closed : (change found).runner.isSome = true → found.runner.isSome = true ∨
    ∀ row, store.investigation found.project found.investigation = some row →
      row.record.status.closed = false

variable {store' : HarnessStore}

theorem InvestigationRow.Sound.of_actions {row : InvestigationRow}
    (h : row.Sound store) (hactions : store'.actions = store.actions) : row.Sound store' where
  __ := h
  counted := by
    unfold HarnessStore.requests HarnessStore.actionsOf
    rw [hactions]
    exact h.counted
  closed := by
    unfold HarnessStore.actionsOf
    rw [hactions]
    exact h.closed

/-- A changed action neither adds to what is reserved nor runs behind a closed
investigation. -/
theorem InvestigationRow.Sound.withAction {row : InvestigationRow} (h : row.Sound store)
    (hlookup : store.investigation row.project row.id = some row)
    (hnames : (store.actions.map ActionRow.name).Nodup)
    (hfound : store.action project aid = some found)
    (hidentity : (change found).identity = found.identity)
    (hclosed : (change found).runner.isSome = true → found.runner.isSome = true ∨
      ∀ row, store.investigation found.project found.investigation = some row →
        row.record.status.closed = false) : row.Sound (store.withAction project aid change) where
  __ := h
  counted := by
    rw [requests_withAction hnames hfound hidentity]
    exact h.counted
  closed := by
    obtain ⟨hproject, hinvestigation, _⟩ := identity_eq hidentity
    intro hthis action haction
    obtain ⟨hmem, howner⟩ := mem_filter.mp haction
    simp only [decide_eq_true_eq] at howner
    rcases mem_withAction hnames hfound hmem with rfl | ⟨hold, _⟩
    · rw [hproject, hinvestigation] at howner
      cases hrunner : (change found).runner with
      | none => rfl
      | some m =>
        rcases hclosed (by rw [hrunner]; rfl) with hheld | hopen
        · have hmember : found ∈ store.actionsOf row.project row.id :=
            mem_filter.mpr ⟨row_some_mem hfound, by simp [howner]⟩
          rw [h.closed hthis found hmember] at hheld
          cases hheld
        · rw [← howner.1, ← howner.2] at hlookup
          rw [hopen row hlookup] at hthis
          cases hthis
    · exact h.closed hthis action (mem_filter.mpr ⟨hold, by simpa using howner⟩)

/-- A change of one action row keeps the discipline. -/
theorem commits_action (hfound : store.action project aid = some found)
    (h : ActionChange sha256 dumpRequest guarded n store found change) :
    (harnessDiscipline sha256 dump dumpRequest guarded).Commits n store
      (store.withAction project aid change) where
  keeps := by
    intro k hk hinv
    have hmem : found ∈ store.actions := row_some_mem hfound
    obtain ⟨hproject, hinvestigation, hid, _, hhash, hrecord⟩ := identity_eq h.evolves.identity
    have hrow : ∀ row ∈ (store.withAction project aid change).actions,
        row = change found ∨ row ∈ store.actions := by
      intro row hrow
      exact (mem_withAction hinv.names hfound hrow).imp_right And.left
    constructor
    · exact hinv.knowledge
    · have hsame : (store.withAction project aid change).actions.map ActionRow.name =
          store.actions.map ActionRow.name := keys_rewrite h.name
      rw [hsame]
      exact hinv.names
    · intro row hmem'
      rcases hrow row hmem' with rfl | hold
      · exact h.sound k hk (hinv.rows found hmem)
      · exact hinv.rows row hold
    · intro project' id' row hlookup
      obtain ⟨rfl, rfl⟩ := investigation_name hlookup
      exact (hinv.investigations _ _ row hlookup).withAction hlookup hinv.names hfound
        h.evolves.identity h.closed
    · intro row hmem'
      rcases hrow row hmem' with rfl | hold
      · rw [hproject, hinvestigation]
        exact hinv.owned found hmem
      · exact hinv.owned row hold
    · intro row hmem' publication hpublication
      rcases hrow row hmem' with rfl | hold
      · rw [h.publication] at hpublication
        obtain ⟨revision, hrevision, hpublished⟩ :=
          hinv.published found hmem publication hpublication
        have horigin : (change found).origin = found.origin := by
          simp only [ActionRow.origin, hinvestigation, hid, hhash]
        have hrequest := request_eq hrecord
        exact ⟨revision, hrevision, {
          name := by rw [hproject]; exact hpublished.name
          sha := hpublished.sha
          origin := by rw [horigin]; exact hpublished.origin
          pointer := by rw [horigin]; exact hpublished.pointer
          content := by
            unfold ActionRow.Distinct
            rw [hhash, hrequest]
            exact hpublished.content }⟩
      · exact hinv.published row hold publication hpublication
    · intro revision hrevision origin horigin
      obtain ⟨row, hold, hproject', hid', hpublication⟩ :=
        hinv.origins revision hrevision origin horigin
      by_cases hname : row.name = (project, aid)
      · have hlookup := row_of_mem hinv.names hold
        rw [hname] at hlookup
        have hsame : store.action project aid = some row := hlookup
        rw [hfound] at hsame
        obtain rfl := Option.some.inj hsame
        have hnew : (store.withAction project aid change).action project aid =
            some (change found) := by
          rw [action_withAction h.name, if_pos rfl, hfound]
          rfl
        exact ⟨change found, row_some_mem hnew, hproject.trans hproject', hid.trans hid',
          h.publication.trans hpublication⟩
      · refine ⟨row, ?_, hproject', hid', hpublication⟩
        apply mem_map.mpr
        exact ⟨row, hold, by rw [if_neg hname]⟩
  others := by
    intro m hm
    constructor
    · intro project' aid' row hlookup
      rw [action_withAction h.name]
      split
      · next hsame =>
          obtain ⟨rfl, rfl⟩ := Prod.mk.inj hsame
          rw [hfound] at hlookup ⊢
          obtain rfl := Option.some.inj hlookup
          exact ⟨change found, rfl, h.evolves.toKeeps⟩
      · exact ⟨row, hlookup, .refl row⟩
    · intro project' aid' row' hlookup hrunner
      rw [action_withAction h.name] at hlookup
      split at hlookup
      · next hsame =>
          obtain ⟨rfl, rfl⟩ := Prod.mk.inj hsame
          rw [hfound, Option.map_some, Option.some.injEq] at hlookup
          subst hlookup
          rcases h.runner m hrunner with heq | ⟨hbefore, hrecord⟩
          · exact absurd heq hm
          · exact ⟨found, hfound, hbefore, hrecord⟩
      · exact ⟨row', hlookup, hrunner, fun _ _ => rfl⟩
  evolves := by
    refine ⟨?_, fun _ _ row hrow => ⟨row, hrow, .refl row⟩, prefix_refl _⟩
    intro project' aid' row hlookup
    rw [action_withAction h.name]
    split
    · next hsame =>
        obtain ⟨rfl, rfl⟩ := Prod.mk.inj hsame
        rw [hfound] at hlookup ⊢
        obtain rfl := Option.some.inj hlookup
        exact ⟨change found, rfl, h.evolves⟩
    · exact ⟨row, hlookup, .refl guarded row⟩

/-- What a change of one investigation row has to keep. -/
structure InvestigationChange (store : HarnessStore) (found : InvestigationRow)
    (change : InvestigationRow → InvestigationRow) : Prop where
  name : ∀ row, (change row).name = row.name
  evolves : found.Evolves (change found)
  project : (change found).record.project = found.record.project
  id : (change found).record.id = found.record.id
  reserved : (change found).record.reserved = found.record.reserved
  closed : (change found).record.status.closed = true → found.record.status.closed = true ∨
    store.unsettled found.project found.id = false

/-- A change of one investigation row keeps the discipline. -/
theorem commits_investigation {found : InvestigationRow}
    (hfound : store.investigation project id = some found)
    {change : InvestigationRow → InvestigationRow} (h : InvestigationChange store found change) :
    (harnessDiscipline sha256 dump dumpRequest guarded).Commits n store
      (store.withInvestigation project id change) where
  keeps := by
    intro k hk hinv
    have hlookup := @investigation_withInvestigation store project id change
    constructor
    · exact hinv.knowledge
    · exact hinv.names
    · exact hinv.rows
    · intro project' id' row hrow
      rw [hlookup h.name] at hrow
      split at hrow
      · rw [hfound, Option.map_some, Option.some.injEq] at hrow
        subst hrow
        have hbefore := hinv.investigations project id found hfound
        obtain ⟨hproject, hid⟩ := Prod.mk.inj (h.name found)
        exact {
          project := by rw [h.project, hbefore.project, hproject]
          id := by rw [h.id, hbefore.id, hid]
          bounded := by
            have hbounded := hbefore.bounded
            constructor
            · rw [h.evolves.limits]; exact hbounded.maxActions
            · rw [h.evolves.limits]; exact hbounded.wallMs
            · rw [h.evolves.limits]; exact hbounded.outputBytes
            · rw [h.evolves.grant]; exact hbounded.maxArtifacts
            · rw [h.evolves.grant]; exact hbounded.maxBytes
          within := by
            rw [h.reserved, h.evolves.limits, h.evolves.grant]
            exact hbefore.within
          counted := by
            rw [h.reserved, hproject, hid]
            exact hbefore.counted
          closed := by
            intro hclosed
            rw [hproject, hid]
            rcases h.closed hclosed with hold | hsettled
            · exact hbefore.closed hold
            · exact hinv.idle hsettled }
      · exact (hinv.investigations project' id' row hrow).of_actions rfl
    · intro row hrow
      have hbefore := hinv.owned row hrow
      rw [hlookup h.name]
      split
      · rw [hfound]
        rfl
      · exact hbefore
    · exact hinv.published
    · exact hinv.origins
  others := fun m _ => ⟨fun _ _ row hrow => ⟨row, hrow, .refl row⟩,
    fun _ _ row hrow hm => ⟨row, hrow, hm, fun _ _ => rfl⟩⟩
  evolves := by
    refine ⟨fun _ _ row hrow => ⟨row, hrow, .refl guarded row⟩, ?_, prefix_refl _⟩
    intro project' id' row hrow
    rw [investigation_withInvestigation h.name]
    split
    · next hsame =>
        obtain ⟨rfl, rfl⟩ := Prod.mk.inj hsame
        rw [hfound] at hrow ⊢
        obtain rfl := Option.some.inj hrow
        exact ⟨change found, rfl, h.evolves⟩
    · exact ⟨row, hrow, .refl row⟩

theorem commits_same (hactions : store'.actions = store.actions)
    (hinvestigations : store'.investigations = store.investigations)
    (hknowledge : store'.knowledge = store.knowledge) :
    (harnessDiscipline sha256 dump dumpRequest guarded).Commits n store store' := by
  obtain ⟨jobs, knowledge, investigations, actions, controllers⟩ := store'
  subst hactions hinvestigations hknowledge
  exact {
    keeps := fun k _ hinv => {
      knowledge := hinv.knowledge
      names := hinv.names
      rows := hinv.rows
      investigations := fun project id row hrow =>
        (hinv.investigations project id row hrow).of_actions rfl
      owned := hinv.owned
      published := hinv.published
      origins := hinv.origins }
    others := fun m _ => ⟨fun _ _ row hrow => ⟨row, hrow, .refl row⟩,
      fun _ _ row hrow hm => ⟨row, hrow, hm, fun _ _ => rfl⟩⟩
    evolves := ⟨fun _ _ row hrow => ⟨row, hrow, .refl guarded row⟩,
      fun _ _ row hrow => ⟨row, hrow, .refl row⟩, prefix_refl _⟩ }

variable {knowledge : KnowledgeStore}

/-- Knowledge that other commands write has no origin in the harness. -/
theorem commits_knowledge (hsound : store.knowledge.Sound sha256 dump → knowledge.Sound sha256 dump)
    (hrecords : store.knowledge.records <+: knowledge.records)
    (horigins : ∀ found ∈ knowledge.records, found ∈ store.knowledge.records ∨
      found.record.harnessOrigin = none) :
    (harnessDiscipline sha256 dump dumpRequest guarded).Commits n store
      { store with knowledge := knowledge } where
  keeps := fun k _ hinv => {
    knowledge := hsound hinv.knowledge
    names := hinv.names
    rows := hinv.rows
    investigations := fun project id row hrow =>
      (hinv.investigations project id row hrow).of_actions rfl
    owned := hinv.owned
    published := by
      intro row hrow publication hpublication
      obtain ⟨found, hfound, hpublished⟩ := hinv.published row hrow publication hpublication
      exact ⟨found, hrecords.subset hfound, hpublished⟩
    origins := by
      intro found hfound origin horigin
      rcases horigins found hfound with hold | hnone
      · exact hinv.origins found hold origin horigin
      · rw [hnone] at horigin
        cases horigin }
  others := fun m _ => ⟨fun _ _ row hrow => ⟨row, hrow, .refl row⟩,
    fun _ _ row hrow hm => ⟨row, hrow, hm, fun _ _ => rfl⟩⟩
  evolves := ⟨fun _ _ row hrow => ⟨row, hrow, .refl guarded row⟩,
    fun _ _ row hrow => ⟨row, hrow, .refl row⟩, hrecords⟩

/-- A new investigation keeps the discipline. -/
theorem commits_opened {found : InvestigationRow}
    (hnew : store.investigation found.project found.id = none)
    (hproject : found.record.project = found.project) (hid : found.record.id = found.id)
    (hbounded : found.record.Bounded) (hreserved : found.record.reserved = ⟨0, 0, 0, 0, 0⟩)
    (hclosed : found.record.status.closed = false) :
    (harnessDiscipline sha256 dump dumpRequest guarded).Commits n store
      { store with investigations := store.investigations ++ [found] } where
  keeps := by
    intro k hk hinv
    have hlookup : ∀ project id, Tables.row InvestigationRow.name (project, id)
        (store.investigations ++ [found]) = (store.investigation project id).or
          (if found.name = (project, id) then some found else none) :=
      fun project id => row_insert found
    -- an action of the new investigation would have had an investigation before
    have hnone : store.actionsOf found.project found.id = [] := by
      apply filter_eq_nil_iff.mpr
      intro action haction howner
      simp only [decide_eq_true_eq] at howner
      have howned := hinv.owned action haction
      rw [howner.1, howner.2, hnew] at howned
      cases howned
    constructor
    · exact hinv.knowledge
    · exact hinv.names
    · exact hinv.rows
    · intro project id row hrow
      have hcases : store.investigation project id = some row ∨ row = found := by
        have hafter : Tables.row InvestigationRow.name (project, id)
            (store.investigations ++ [found]) = some row := hrow
        rw [hlookup] at hafter
        cases hbefore : store.investigation project id with
        | some old =>
          rw [hbefore, Option.some_or] at hafter
          exact Or.inl hafter
        | none =>
          rw [hbefore, Option.none_or] at hafter
          split at hafter
          · exact Or.inr (Option.some.inj hafter).symm
          · cases hafter
      rcases hcases with hbefore | rfl
      · exact (hinv.investigations project id row hbefore).of_actions rfl
      exact {
        project := hproject
        id := hid
        bounded := hbounded
        within := by
          rw [hreserved]
          constructor <;> exact Nat.zero_le _
        counted := by
          have hrequests : store.requests row.project row.id = [] := by
            rw [HarnessStore.requests, hnone]
            rfl
          show _ = Reserved.of (store.requests row.project row.id)
          rw [hreserved, hrequests]
          rfl
        closed := by
          intro hthis
          rw [hclosed] at hthis
          cases hthis }
    · intro action haction
      have hbefore := hinv.owned action haction
      show (Tables.row InvestigationRow.name (action.project, action.investigation)
        (store.investigations ++ [found])).isSome = true
      rw [hlookup, Option.isSome_or, hbefore]
      rfl
    · exact hinv.published
    · exact hinv.origins
  others := fun m _ => ⟨fun _ _ row hrow => ⟨row, hrow, .refl row⟩,
    fun _ _ row hrow hm => ⟨row, hrow, hm, fun _ _ => rfl⟩⟩
  evolves := by
    refine ⟨fun _ _ row hrow => ⟨row, hrow, .refl guarded row⟩, ?_, prefix_refl _⟩
    intro project id old hold
    refine ⟨old, ?_, .refl old⟩
    show Tables.row InvestigationRow.name (project, id) (store.investigations ++ [found]) = some old
    have hbefore : Tables.row InvestigationRow.name (project, id) store.investigations = some old := hold
    rw [row_insert, hbefore]
    rfl

/-- A row of an action that was just proposed. -/
structure ActionRow.New (sha256 : Text → Text) (dumpRequest : ActionRequest → Text)
    (row : ActionRow) : Prop where
  sound : row.Sound sha256 dumpRequest 0
  runner : row.runner = none
  publication : row.record.publication = none

/-- An action of an open investigation is inserted and leaves every other row. -/
theorem commits_insert {found : InvestigationRow} {action : ActionRow}
    (hfound : store.investigation project id = some found)
    (hopen : found.record.status.closed = false) (hproject : action.project = project)
    (hinvestigation : action.investigation = id)
    (hfresh : store.action project action.id = none) (hnew : action.New sha256 dumpRequest)
    {change : InvestigationRow → InvestigationRow} (hname : ∀ row, (change row).name = row.name)
    (hevolves : found.Evolves (change found))
    (hsame : (change found).record.project = found.record.project ∧
      (change found).record.id = found.record.id ∧
      (change found).record.status = found.record.status)
    (hreserved : found.record.reserved = Reserved.of (store.requests project id) →
      found.record.Bounded →
      found.record.reserved.Within found.record.limits found.record.envelope.derivedArtifacts →
      (change found).record.reserved =
          Reserved.of (store.requests project id ++ [action.record.request]) ∧
        (change found).record.reserved.Within found.record.limits
          found.record.envelope.derivedArtifacts) :
    (harnessDiscipline sha256 dump dumpRequest guarded).Commits n store
      ({ store with actions := store.actions ++ [action] }.withInvestigation project id change) where
  keeps := by
    intro k hk hinv
    have hlookup := @investigation_withInvestigation
      { store with actions := store.actions ++ [action] } project id change
    obtain ⟨hfoundProject, hfoundId⟩ := investigation_name hfound
    have hrequests : ∀ project' id', ({ store with
        actions := store.actions ++ [action] } : HarnessStore).requests project' id' =
        store.requests project' id' ++
          (if (project', id') = (project, id) then [action.record.request] else []) := by
      intro project' id'
      simp only [HarnessStore.requests, HarnessStore.actionsOf, filter_append, map_append]
      by_cases hthis : (project', id') = (project, id)
      · obtain ⟨rfl, rfl⟩ := Prod.mk.inj hthis
        simp [hproject, hinvestigation]
      have hother : ¬ (action.project = project' ∧ action.investigation = id') := by
        intro ⟨hp, hi⟩
        rw [hproject] at hp
        rw [hinvestigation] at hi
        exact hthis (by rw [hp, hi])
      simp [hthis, hother]
    constructor
    · exact hinv.knowledge
    · show ((store.actions ++ [action]).map ActionRow.name).Nodup
      rw [map_append, nodup_append]
      refine ⟨hinv.names, nodup_singleton _, ?_⟩
      intro name hmem other hother
      obtain ⟨row, hrow, rfl⟩ := mem_map.mp hmem
      have hother' : other = (project, action.id) := by
        simpa [ActionRow.name, hproject] using hother
      rw [hother']
      exact row_none_iff.mp hfresh row hrow
    · intro row hrow
      rcases mem_append.mp hrow with hold | hthis
      · exact hinv.rows row hold
      · rw [mem_singleton.mp hthis]
        exact hnew.sound.mono (Nat.zero_le k)
    · intro project' id' row hrow
      rw [hlookup hname] at hrow
      split at hrow
      · next hthis =>
          have hsome : store.investigation project id = some found := hfound
          have hmapped : (store.investigation project id).map change = some row := hrow
          rw [hsome, Option.map_some, Option.some.injEq] at hmapped
          subst hmapped
          have hbefore := hinv.investigations project id found hfound
          obtain ⟨hp, hi⟩ := Prod.mk.inj (hname found)
          have hcounted := hbefore.counted
          rw [hfoundProject, hfoundId] at hcounted
          obtain ⟨hnow, hwithin⟩ := hreserved hcounted hbefore.bounded hbefore.within
          exact {
            project := by rw [hsame.1, hbefore.project, hp]
            id := by rw [hsame.2.1, hbefore.id, hi]
            bounded := by
              have hbounded := hbefore.bounded
              constructor
              · rw [hevolves.limits]; exact hbounded.maxActions
              · rw [hevolves.limits]; exact hbounded.wallMs
              · rw [hevolves.limits]; exact hbounded.outputBytes
              · rw [hevolves.grant]; exact hbounded.maxArtifacts
              · rw [hevolves.grant]; exact hbounded.maxBytes
            within := by
              rw [hevolves.limits, hevolves.grant]
              exact hwithin
            counted := by
              rw [hp, hi, hfoundProject, hfoundId, hnow]
              have hafter := hrequests project id
              rw [if_pos rfl] at hafter
              exact congrArg Reserved.of hafter.symm
            closed := by
              intro hclosed
              rw [hsame.2.2, hopen] at hclosed
              cases hclosed }
      · next hother =>
          have hbefore := hinv.investigations project' id' row hrow
          have hrow' : store.investigation project' id' = some row := hrow
          obtain ⟨hp, hi⟩ := investigation_name hrow'
          have hsameRequests := hrequests project' id'
          rw [if_neg hother, append_nil] at hsameRequests
          exact {
            project := hbefore.project
            id := hbefore.id
            bounded := hbefore.bounded
            within := hbefore.within
            counted := by
              have hcounted := hbefore.counted
              rw [hp, hi] at hcounted ⊢
              rw [hcounted]
              exact congrArg Reserved.of hsameRequests.symm
            closed := by
              intro hclosed other hmem
              obtain ⟨hmem', howner⟩ := mem_filter.mp hmem
              rcases mem_append.mp hmem' with hold | hthis
              · exact hbefore.closed hclosed other (mem_filter.mpr ⟨hold, howner⟩)
              · rw [mem_singleton.mp hthis]
                exact hnew.runner }
    · intro row hrow
      rw [hlookup hname]
      split
      · show ((store.investigation project id).map change).isSome = true
        rw [hfound]
        rfl
      next hother =>
        rcases mem_append.mp hrow with hold | hthis
        · exact hinv.owned row hold
        · rw [mem_singleton.mp hthis, hproject, hinvestigation] at hother
          exact absurd rfl hother
    · intro row hrow publication hpublication
      rcases mem_append.mp hrow with hold | hthis
      · exact hinv.published row hold publication hpublication
      · rw [mem_singleton.mp hthis, hnew.publication] at hpublication
        cases hpublication
    · intro revision hrevision origin horigin
      obtain ⟨row, hold, hrest⟩ := hinv.origins revision hrevision origin horigin
      exact ⟨row, mem_append_left _ hold, hrest⟩
  others := by
    intro m _
    have hbefore : ∀ project' aid' row, store.action project' aid' = some row →
        Tables.row ActionRow.name (project', aid') (store.actions ++ [action]) = some row := by
      intro project' aid' row hrow
      have hthis : Tables.row ActionRow.name (project', aid') store.actions = some row := hrow
      rw [row_insert, hthis]
      rfl
    constructor
    · intro project' aid' row hrow
      exact ⟨row, hbefore project' aid' row hrow, .refl row⟩
    intro project' aid' row' hrow' hm
    have hafter : Tables.row ActionRow.name (project', aid') (store.actions ++ [action]) =
        some row' := hrow'
    rw [row_insert] at hafter
    cases hold : Tables.row ActionRow.name (project', aid') store.actions with
    | some row =>
      rw [hold, Option.some_or, Option.some.injEq] at hafter
      subst hafter
      exact ⟨row, hold, hm, fun _ _ => rfl⟩
    | none =>
      rw [hold, Option.none_or] at hafter
      split at hafter
      · rw [← Option.some.inj hafter, hnew.runner] at hm
        cases hm
      · cases hafter
  evolves := by
    refine ⟨?_, ?_, prefix_refl _⟩
    · intro project' aid' row hrow
      refine ⟨row, ?_, .refl guarded row⟩
      have hthis : Tables.row ActionRow.name (project', aid') store.actions = some row := hrow
      show Tables.row ActionRow.name (project', aid') (store.actions ++ [action]) = some row
      rw [row_insert, hthis]
      rfl
    intro project' id' row hrow
    rw [investigation_withInvestigation hname]
    split
    · next hthis =>
        obtain ⟨rfl, rfl⟩ := Prod.mk.inj hthis
        rw [hfound] at hrow
        obtain rfl := Option.some.inj hrow
        refine ⟨change found, ?_, hevolves⟩
        show (store.investigation project' id').map change = _
        rw [hfound]
        rfl
    · exact ⟨row, hrow, .refl row⟩

/-- The row that a published record appends. -/
def KnowledgeRecord.row (sha256 : Text → Text) (dump : KnowledgeRecord → Text)
    (record : KnowledgeRecord) : RecordRow :=
  ⟨record.project, record.id, record.revision, record.kind, record, sha256 (dump record)⟩

/-- The action with the pointer to its publication. -/
def ActionRow.linked (row : ActionRow) (published : RecordRow) : ActionRow :=
  { row with record := { row.record with
    publication := some ⟨published.id, published.revision, published.sha, row.origin⟩ } }

/-- Nothing is known of the outcome of an action that a runner holds and that
points to no publication. -/
theorem ActionRow.Sound.unanswered {row : ActionRow} (h : row.Sound sha256 dumpRequest k)
    (hheld : row.runner.isSome = true) (hnone : row.record.publication = none) :
    row.record.result = none := by
  have hbefore := h.held hheld
  cases hresult : row.record.result with
  | none => rfl
  | some result => simp [ActionRecord.settled, ActionRecord.recoverable, hresult, hnone] at hbefore

theorem linked_sound {row : ActionRow} {published : RecordRow}
    (h : row.Sound sha256 dumpRequest k) (hresult : row.record.result = none)
    (hworkbench : row.record.request.work.workbench = true)
    (hdispatched : row.record.dispatchStarted = true) :
    (row.linked published).Sound sha256 dumpRequest k where
  __ := h
  held := by
    intro _
    simp [ActionRow.linked, ActionRecord.settled, hresult]
  static := by
    intro hstatic
    rw [ActionRow.linked, hworkbench] at hstatic
    cases hstatic
  dispatched := fun _ => hdispatched

theorem linked_keeps {found changed : ActionRow} {published : RecordRow}
    (hnone : found.record.publication = none) (hchange : changed = found.linked published) :
    found.Keeps changed := by
  rw [hchange]
  refine ⟨rfl, ?_⟩
  intro publication hpublication
  rw [hnone] at hpublication
  cases hpublication

/-- A revision and the pointer to it are stored together: the action that the
runner holds and that points nowhere yet, and its only publication. -/
theorem commits_publish (hfound : store.action project aid = some found)
    {record : KnowledgeRecord} {request : PutRequest}
    (hput : Put sha256 dump request (some found.origin) store.knowledge record knowledge)
    (hproject : record.project = found.project) (hheld : found.runner.isSome = true)
    (hworkbench : found.record.request.work.workbench = true)
    (hdispatched : found.record.dispatchStarted = true) (hnone : found.record.publication = none)
    (hresult : found.record.result = none) (hcontent : found.Distinct sha256 dumpRequest →
      found.record.request.publishes sha256 record = true)
    (hname : ∀ row, (change row).name = row.name)
    (hchange : change found = found.linked (record.row sha256 dump)) :
    (harnessDiscipline sha256 dump dumpRequest guarded).Commits n store
      ({ store with knowledge := knowledge }.withAction project aid change) where
  keeps := by
    intro k hk hinv
    have hmem : found ∈ store.actions := row_some_mem hfound
    have hidentity : (change found).identity = found.identity := by
      rw [hchange]
      rfl
    have hrecords : knowledge.records = store.knowledge.records ++ [record.row sha256 dump] := by
      rw [hput.written]
      rfl
    have hfound' : ({ store with knowledge := knowledge } : HarnessStore).action project aid =
        some found := hfound
    have hrow : ∀ row ∈ (({ store with knowledge := knowledge } : HarnessStore).withAction
        project aid change).actions, row = change found ∨
          (row ∈ store.actions ∧ row.name ≠ (project, aid)) :=
      fun row hrow => mem_withAction hinv.names hfound' hrow
    constructor
    · exact hput.sound hinv.knowledge
    · have hsame : (({ store with knowledge := knowledge } : HarnessStore).withAction
          project aid change).actions.map ActionRow.name = store.actions.map ActionRow.name :=
        keys_rewrite hname
      rw [hsame]
      exact hinv.names
    · intro row hmem'
      rcases hrow row hmem' with rfl | ⟨hold, _⟩
      · rw [hchange]
        exact linked_sound (hinv.rows found hmem) hresult hworkbench hdispatched
      · exact hinv.rows row hold
    · intro project' id' row hlookup
      have hlookup' : store.investigation project' id' = some row := hlookup
      obtain ⟨rfl, rfl⟩ := investigation_name hlookup'
      have hbefore : row.Sound { store with knowledge := knowledge } :=
        (hinv.investigations _ _ row hlookup).of_actions rfl
      exact hbefore.withAction hlookup hinv.names hfound' hidentity (fun _ => Or.inl hheld)
    · intro row hmem'
      rcases hrow row hmem' with rfl | ⟨hold, _⟩
      · rw [hchange]
        exact hinv.owned found hmem
      · exact hinv.owned row hold
    · intro row hmem' publication hpublication
      rcases hrow row hmem' with rfl | ⟨hold, _⟩
      · rw [hchange] at hpublication ⊢
        obtain rfl := Option.some.inj hpublication
        refine ⟨record.row sha256 dump, ?_, ?_⟩
        · show _ ∈ knowledge.records
          rw [hrecords]
          exact mem_append_right _ (mem_singleton.mpr rfl)
        exact {
          name := by
            simp only [KnowledgeRecord.row, RecordRow.name, ActionRow.linked, hproject]
          sha := rfl
          origin := hput.origin
          pointer := rfl
          content := hcontent }
      · obtain ⟨revision, hrevision, hpublished⟩ :=
          hinv.published row hold publication hpublication
        refine ⟨revision, ?_, hpublished⟩
        show revision ∈ knowledge.records
        rw [hrecords]
        exact mem_append_left _ hrevision
    · intro revision hrevision origin horigin
      have hthis : revision ∈ knowledge.records := hrevision
      rw [hrecords] at hthis
      rcases mem_append.mp hthis with hold | hnew
      · -- the action points nowhere yet, so no older revision names it
        obtain ⟨row, hrow', hproject', hid', hpublication⟩ :=
          hinv.origins revision hold origin horigin
        have hother : row.name ≠ (project, aid) := by
          intro hsame
          have hlookup := row_of_mem hinv.names hrow'
          rw [hsame] at hlookup
          have hsome : store.action project aid = some row := hlookup
          rw [hfound] at hsome
          rw [← Option.some.inj hsome, hnone] at hpublication
          cases hpublication
        refine ⟨row, ?_, hproject', hid', hpublication⟩
        exact mem_map.mpr ⟨row, hrow', by rw [if_neg hother]⟩
      · obtain rfl := mem_singleton.mp hnew
        have hfirst : record.harnessOrigin = some found.origin := hput.origin
        have hsecond : record.harnessOrigin = some origin := horigin
        rw [hfirst] at hsecond
        obtain rfl := Option.some.inj hsecond
        have hlookup : (({ store with knowledge := knowledge } : HarnessStore).withAction
            project aid change).action project aid = some (change found) := by
          rw [action_withAction hname, if_pos rfl, hfound']
          rfl
        refine ⟨change found, row_some_mem hlookup, ?_, ?_, ?_⟩
        · rw [hchange]
          exact hproject.symm
        · rw [hchange]
          rfl
        · rw [hchange]
          rfl
  others := by
    intro m _
    constructor
    · intro project' aid' row hlookup
      rw [action_withAction hname]
      split
      · next hsame =>
          obtain ⟨rfl, rfl⟩ := Prod.mk.inj hsame
          have hthis : some found = some row := hfound.symm.trans hlookup
          obtain rfl := Option.some.inj hthis
          refine ⟨change found, ?_, linked_keeps hnone hchange⟩
          show (store.action project' aid').map change = _
          rw [hfound]
          rfl
      · exact ⟨row, hlookup, .refl row⟩
    · intro project' aid' row' hlookup hm
      rw [action_withAction hname] at hlookup
      split at hlookup
      · next hsame =>
          obtain ⟨rfl, rfl⟩ := Prod.mk.inj hsame
          have hthis : (store.action project' aid').map change = some row' := hlookup
          rw [hfound, Option.map_some, Option.some.injEq, hchange] at hthis
          subst hthis
          refine ⟨found, hfound, hm, ?_⟩
          intro _ hundispatched
          rw [hdispatched] at hundispatched
          cases hundispatched
      · exact ⟨row', hlookup, hm, fun _ _ => rfl⟩
  evolves := by
    have hrecords : store.knowledge.records <+: knowledge.records := by
      rw [hput.written]
      exact prefix_append _ _
    refine ⟨?_, fun _ _ row hrow => ⟨row, hrow, .refl row⟩, hrecords⟩
    intro project' aid' row hlookup
    rw [action_withAction hname]
    split
    · next hsame =>
        obtain ⟨rfl, rfl⟩ := Prod.mk.inj hsame
        have hthis : some found = some row := hfound.symm.trans hlookup
        obtain rfl := Option.some.inj hthis
        refine ⟨change found, ?_, ?_⟩
        · show (store.action project' aid').map change = _
          rw [hfound]
          rfl
        refine ⟨linked_keeps hnone hchange, ?_, ?_⟩
        · intro _ hsettled
          simp [ActionRecord.settled, hresult] at hsettled
        · intro _ publication result hpublication _ _
          rw [hnone] at hpublication
          cases hpublication
    · exact ⟨row, hlookup, .refl guarded row⟩

end Indago
