import IndagoRev.Models.ModelDecisions
import IndagoRev.Workbench.HarnessFrames

/-!
# The ledger of generations

The counter of the row is the number of reservations that were not given back, and
they are numbered from one on. A runner may only write the row while it owns it, and
only sends a request that it reserved, once.
-/

namespace Indago

open StdText Tables Transactions Interleaving List

/-- The reservations after one more effect. -/
def ModelEffect.settle (live : List (Nat × Nat)) : ModelEffect → List (Nat × Nat)
  | .reserved n g => live ++ [(n, g)]
  | .returned n g => live.erase (n, g)
  | _ => live

variable (log : List ModelEffect)

/-- The reservations that were not given back, as runners with their generations. -/
def reservations : List (Nat × Nat) :=
  log.foldl ModelEffect.settle []

/-- The requests whose transport began. -/
def transports : List (Nat × Nat) :=
  log.filterMap fun
    | .sent n g => some (n, g)
    | _ => none

/-- What a log may go on with. A generation is given back by the runner that reserved
it last, as long as it was not sent. -/
def ModelEffect.Allowed : ModelEffect → Prop
  | .reserved _ g => g = (reservations log).length + 1
  | .returned n g => (reservations log).getLast? = some (n, g) ∧ (n, g) ∉ transports log
  | .sent n g => (n, g) ∈ reservations log ∧ (n, g) ∉ transports log
  | .turned .. => True

/-- A log every effect of which was allowed when it happened. -/
inductive Lawful : List ModelEffect → Prop where
  | nil : Lawful []
  | snoc (log : List ModelEffect) (e : ModelEffect) (h : Lawful log) (he : e.Allowed log) :
      Lawful (log ++ [e])

@[simp] theorem reservations_snoc (e : ModelEffect) :
    reservations (log ++ [e]) = e.settle (reservations log) := by
  simp [reservations]

@[simp] theorem transports_append (log more : List ModelEffect) :
    transports (log ++ more) = transports log ++ transports more := by
  simp [transports]

variable {log : List ModelEffect}

/-- Reservations that were not given back are numbered from one on. -/
theorem Lawful.numbers (h : Lawful log) :
    (reservations log).map Prod.snd = List.range' 1 (reservations log).length := by
  induction h with
  | nil => rfl
  | snoc log e h he ih =>
    rw [reservations_snoc]
    cases e with
    | reserved n g =>
      simp only [ModelEffect.Allowed] at he
      simp only [ModelEffect.settle, map_append, map_singleton, length_append,
        length_singleton, ih, he]
      rw [range'_concat]
      simp [Nat.add_comm]
    | returned n g =>
      obtain ⟨hlast, _⟩ := he
      obtain ⟨front, hfront⟩ := getLast?_eq_some_iff.mp hlast
      have hnodup : (reservations log).Nodup := by
        apply List.Nodup.of_map Prod.snd
        rw [ih]
        exact nodup_range'
      have herase : (reservations log).erase (n, g) = front := by
        rw [hfront, nodup_append] at hnodup
        rw [hfront, erase_append_right]
        · simp
        · intro hmem
          exact hnodup.2.2 _ hmem _ (mem_singleton.mpr rfl) rfl
      simp only [ModelEffect.settle, herase]
      rw [hfront, map_append, length_append, length_singleton,
        range'_concat] at ih
      exact (append_inj' ih rfl).1
    | sent n g => exact ih
    | turned g d r a => exact ih

theorem Lawful.nodup (h : Lawful log) : (reservations log).Nodup := by
  apply List.Nodup.of_map Prod.snd
  rw [h.numbers]
  exact nodup_range'

/-- A number is reserved by one runner alone. -/
theorem Lawful.unique (h : Lawful log) {n m g : Nat}
    (hn : (n, g) ∈ reservations log) (hm : (m, g) ∈ reservations log) : n = m := by
  have hmap : ((reservations log).map Prod.snd).Nodup := by
    rw [h.numbers]
    exact nodup_range'
  have hsame := inj_on_of_nodup_map hmap hn hm rfl
  exact (Prod.mk.inj hsame).1

/-- Giving back the last reservation takes it off the end. -/
theorem Lawful.returned (h : Lawful log) {n g : Nat}
    (hlast : (reservations log).getLast? = some (n, g)) :
    reservations log = (reservations log).erase (n, g) ++ [(n, g)] := by
  obtain ⟨front, hfront⟩ := getLast?_eq_some_iff.mp hlast
  have hnodup := h.nodup
  rw [hfront, nodup_append] at hnodup
  rw [hfront, erase_append_right]
  · simp
  · intro hmem
    exact hnodup.2.2 _ hmem _ (mem_singleton.mpr rfl) rfl

/-- The open reservation with the highest number is the last one. -/
theorem Lawful.last {log : List ModelEffect} (h : Lawful log) {n : Nat}
    (hmem : (n, (reservations log).length) ∈ reservations log) :
    (reservations log).getLast? = some (n, (reservations log).length) := by
  have hpos : 0 < (reservations log).length := length_pos_of_mem hmem
  have hne : reservations log ≠ [] := ne_nil_of_length_pos hpos
  have hlast := getLast?_eq_getLast_of_ne_nil hne
  have hnumber : ((reservations log).getLast hne).2 = (reservations log).length := by
    have hnumbers := h.numbers
    have hmapped : ((reservations log).map Prod.snd).getLast? =
        some ((reservations log).getLast hne).2 := by
      rw [getLast?_map, hlast]
      rfl
    rw [hnumbers, getLast?_range'] at hmapped
    simp only [Nat.ne_of_gt hpos, if_false, Option.some.injEq] at hmapped
    omega
  have hsame := h.unique (n := ((reservations log).getLast hne).1) (m := n)
    (g := (reservations log).length) (by
      have hin := getLast_mem hne
      rwa [← hnumber])  hmem
  rw [hlast, ← hsame, ← hnumber]

/-- Only reserved requests are sent, each of them once. -/
theorem Lawful.transports (h : Lawful log) :
    (∀ p ∈ transports log, p ∈ reservations log) ∧ (Indago.transports log).Nodup := by
  induction h with
  | nil => exact ⟨nofun, nodup_nil⟩
  | snoc log e h he ih =>
    rw [reservations_snoc, transports_append]
    cases e with
    | reserved n g =>
      refine ⟨fun p hp => mem_append_left _ (ih.1 p ?_), ?_⟩
      · simpa [Indago.transports] using hp
      · simpa [Indago.transports] using ih.2
    | returned n g =>
      refine ⟨fun p hp => ?_, by simpa [Indago.transports] using ih.2⟩
      have hold : p ∈ Indago.transports log := by simpa [Indago.transports] using hp
      have hne : p ≠ (n, g) := fun heq => he.2 (heq ▸ hold)
      exact (mem_erase_of_ne hne).mpr (ih.1 p hold)
    | sent n g =>
      have hsent : Indago.transports [ModelEffect.sent n g] = [(n, g)] := rfl
      rw [hsent]
      refine ⟨fun p hp => ?_, ?_⟩
      · rcases mem_append.mp hp with hold | hnew
        · exact ih.1 p hold
        · rw [mem_singleton.mp hnew]
          exact he.1
      rw [nodup_append]
      refine ⟨ih.2, nodup_singleton _, ?_⟩
      intro p hp q hq hsame
      rw [mem_singleton.mp hq] at hsame
      exact he.2 (hsame ▸ hp)
    | turned g d r a =>
      refine ⟨fun p hp => ih.1 p ?_, by simpa [Indago.transports] using ih.2⟩
      simpa [Indago.transports] using hp

section Controller

variable (ctx : ExploreContext)

/-- Process `n` is the runner that the row names. -/
def ExploreStore.Owns (n : Nat) (store : ExploreStore) : Prop :=
  ∃ row, store.row = some row ∧ row.runner = some n

/-- The counters of a record agree with each other. -/
structure ModelState.Balanced (state : ModelState) : Prop where
  within : state.generations ≤ state.maxGenerations
  bounded : state.maxGenerations ≤ 128
  tokens : state.reservedOutputTokens = ctx.profile.outputTokens * state.generations
  duration : state.reservedGenerationMs = ctx.profile.generationMs * state.generations

/-- What a decision may ask of the harness. -/
def Decision.Asks (generation : Nat) : Decision → DecisionRequest → Prop
  | .analyze _ _, .analysis g => g = generation
  | .function acceptance payload, .workflow location step =>
    ∃ source plan, functionPlan ctx acceptance source = .ok plan ∧ location = plan.location ∧
      step < (workflowOperations acceptance).length ∧
      ∀ direct, payload = .direct direct → direct = source
  | _, _ => False

/-- The key of an action in its investigation. -/
def ActionRow.slot (row : ActionRow) : Text × Text × Text :=
  (row.project, row.investigation, row.key)

/-- No two actions of an investigation have one key. -/
def HarnessStore.Single (store : HarnessStore) : Prop :=
  ∀ r ∈ store.actions, ∀ r' ∈ store.actions, r.slot = r'.slot → r = r'

/-- An action stands under the key of its request. -/
def ExploreStore.Stands (part : DecisionRequest) (action : Text) (store : ExploreStore) : Prop :=
  ∃ row, store.harness.action ctx.project action = some row ∧ row.investigation = ctx.id ∧
    row.key = part.key ctx.sha256

structure ExploreStore.Sound (k : Nat) (store : ExploreStore) : Prop where
  harness : store.harness.Sound ctx.sha256 ctx.dump ctx.dumpRequest k
  single : store.harness.Single
  lawful : Lawful store.effects
  unstarted : store.row = none → reservations store.effects = []
  counted : ∀ row, store.row = some row →
    row.record.generations = (reservations store.effects).length
  balanced : ∀ row, store.row = some row → row.record.Balanced ctx
  closed : ∀ row, store.row = some row → row.record.phase = .terminal → store.ended ctx = true
  turned : ∀ g d part a, ModelEffect.turned g d part a ∈ store.effects →
    d.Asks ctx g part ∧ store.Stands ctx part a

/-- A phase from which no request is sent. -/
def ModelPhase.shut (phase : ModelPhase) : Prop := phase = .requestInflight ∨ phase = .terminal

/-- The last generation is one of process `n`, and no further one follows it. -/
def ExploreStore.Locked (n : Nat) (store : ExploreStore) : Prop :=
  ∃ row g, store.row = some row ∧ row.record.phase.shut ∧
    (reservations store.effects).getLast? = some (n, g)

/-- What runner `n` may rely on: only it writes the row while it owns it, nobody
gives its generations back, and an interrupted request stays the last one. -/
structure ExploreStore.Relies (n : Nat) (store store' : ExploreStore) : Prop where
  harness : store.harness.Relies n store'.harness
  ended : store.ended ctx = true → store'.ended ctx = true
  owned : store'.Owns n → store.Owns n ∧
    store'.row.map ModelRow.record = store.row.map ModelRow.record ∧
    reservations store'.effects = reservations store.effects
  reserved : ∀ g, (n, g) ∈ reservations store.effects → (n, g) ∈ reservations store'.effects
  sent : ∀ g, (n, g) ∈ transports store'.effects ↔ (n, g) ∈ transports store.effects
  locked : store.Locked n → store'.Locked n ∧
    reservations store'.effects = reservations store.effects

theorem ExploreStore.Relies.refl (n : Nat) (store : ExploreStore) : store.Relies ctx n store :=
  ⟨.refl n store.harness, id, fun h => ⟨h, rfl, rfl⟩, fun _ h => h, fun _ => Iff.rfl,
    fun h => ⟨h, rfl⟩⟩

theorem ExploreStore.Relies.trans {n : Nat} {a b c : ExploreStore} (h : a.Relies ctx n b)
    (h' : b.Relies ctx n c) : a.Relies ctx n c where
  harness := h.harness.trans h'.harness
  ended := fun hended => h'.ended (h.ended hended)
  owned := fun howns => by
    obtain ⟨hmid, hrecord', hlive'⟩ := h'.owned howns
    obtain ⟨hfirst, hrecord, hlive⟩ := h.owned hmid
    exact ⟨hfirst, hrecord'.trans hrecord, hlive'.trans hlive⟩
  reserved := fun g hg => h'.reserved g (h.reserved g hg)
  sent := fun g => (h'.sent g).trans (h.sent g)
  locked := fun hlocked => by
    obtain ⟨hmid, hlive⟩ := h.locked hlocked
    obtain ⟨hlast, hlive'⟩ := h'.locked hmid
    exact ⟨hlast, hlive'.trans hlive⟩

/-- The runners of an investigation agree on its row. -/
def exploreDiscipline : Discipline ExploreLabel ExploreStore where
  inv := ExploreStore.Sound ctx
  rely := ExploreStore.Relies ctx
  evolves store store' := store.effects <+: store'.effects
  meets _ _ _ := True
  good _ _ _ := True
  rely_refl := .refl ctx
  rely_trans _ _ _ _ := .trans ctx
  evolves_refl _ := prefix_refl _
  evolves_trans _ _ _ := List.IsPrefix.trans

end Controller

variable {ctx : ExploreContext} {store : ExploreStore} {n k : Nat}

/-- Tables in which the rows that were there keep their identity and none was added
have no new keys. -/
theorem single_of_count {before after : HarnessStore}
    (hbefore : (before.actions.map ActionRow.name).Nodup)
    (hafter : (after.actions.map ActionRow.name).Nodup)
    (hkept : ∀ project id row, before.action project id = some row →
      ∃ row', after.action project id = some row' ∧ row'.identity = row.identity)
    (hcount : after.actions.length = before.actions.length) (h : before.Single) : after.Single := by
  have hsubset : before.actions.map ActionRow.name ⊆ after.actions.map ActionRow.name := by
    intro name hname
    obtain ⟨row, hrow, rfl⟩ := mem_map.mp hname
    obtain ⟨row', hrow', _⟩ := hkept row.project row.id row (row_of_mem hbefore hrow)
    have hname' := action_name hrow'
    exact mem_map.mpr ⟨row', row_some_mem hrow', by
      simp [ActionRow.name, hname'.1, hname'.2]⟩
  have hperm := (subperm_of_subset hbefore hsubset).perm_of_length_le (by simp [hcount])
  -- every row comes from one that was there
  have hsource : ∀ row' ∈ after.actions, ∃ row ∈ before.actions, row'.identity = row.identity := by
    intro row' hrow'
    obtain ⟨row, hrow, hname⟩ := mem_map.mp
      (hperm.mem_iff.mpr (mem_map_of_mem hrow'))
    obtain ⟨found, hfound, hidentity⟩ := hkept row.project row.id row (row_of_mem hbefore hrow)
    have hsame : found = row' := by
      apply inj_on_of_nodup_map hafter (row_some_mem hfound) hrow'
      have hname' := action_name hfound
      rw [← hname]
      simp [ActionRow.name, hname'.1, hname'.2]
    exact ⟨row, hrow, hsame ▸ hidentity⟩
  intro r hr r' hr' hslot
  obtain ⟨old, hold, hidentity⟩ := hsource r hr
  obtain ⟨old', hold', hidentity'⟩ := hsource r' hr'
  simp only [ActionRow.identity, Prod.mk.injEq] at hidentity hidentity'
  simp only [ActionRow.slot, Prod.mk.injEq] at hslot
  have hsame : old = old' := by
    apply h old hold old' hold'
    simp only [ActionRow.slot, Prod.mk.injEq]
    exact ⟨hidentity.1.1.symm.trans (hslot.1.trans hidentity'.1.1),
      hidentity.1.2.1.symm.trans (hslot.2.1.trans hidentity'.1.2.1),
      hidentity.2.1.1.symm.trans (hslot.2.2.trans hidentity'.2.1.1)⟩
  apply inj_on_of_nodup_map hafter hr hr'
  simp only [ActionRow.name, Prod.mk.injEq]
  refine ⟨hslot.1, ?_⟩
  rw [hidentity.1.2.2, hidentity'.1.2.2, hsame]

variable {harness : HarnessStore}

theorem ended_of_evolves (h : store.harness.Evolves false harness)
    (hended : store.ended ctx = true) :
    ExploreStore.ended ctx { store with harness := harness } = true := by
  unfold ExploreStore.ended at hended ⊢
  cases hlookup : store.harness.investigation ctx.project ctx.id with
  | none =>
    rw [hlookup] at hended
    cases hended
  | some found =>
    rw [hlookup] at hended
    obtain ⟨found', hfound', hevolves⟩ := h.investigations _ _ found hlookup
    rw [hfound']
    have hterminal : found.record.status.terminal = true := hended
    show found'.record.status.terminal = true
    rw [(hevolves.terminal hterminal).1]
    exact hterminal

variable {part : DecisionRequest}

theorem stands_of_evolves (h : store.harness.Evolves false harness)
    {a : Text} (hstands : store.Stands ctx part a) :
    ExploreStore.Stands ctx part a { store with harness := harness } := by
  obtain ⟨row, hrow, hinvestigation, hkey⟩ := hstands
  obtain ⟨row', hrow', hevolves⟩ := h.actions _ _ row hrow
  have hidentity := hevolves.identity
  simp only [ActionRow.identity, Prod.mk.injEq] at hidentity
  exact ⟨row', hrow', hidentity.1.2.1.trans hinvestigation, hidentity.2.1.1.trans hkey⟩

/-- What the harness does with its own tables, without a second action for a key. -/
theorem commits_tables
    (h : (harnessDiscipline ctx.sha256 ctx.dump ctx.dumpRequest false).Commits n store.harness
      harness) (hsingle : ∀ k, store.harness.Sound ctx.sha256 ctx.dump ctx.dumpRequest k →
      harness.Sound ctx.sha256 ctx.dump ctx.dumpRequest k → store.harness.Single → harness.Single) :
    (exploreDiscipline ctx).Commits n store { store with harness := harness } where
  keeps := fun k hk hsound =>
    { harness := h.keeps k hk hsound.harness
      single := hsingle k hsound.harness (h.keeps k hk hsound.harness) hsound.single
      lawful := hsound.lawful
      unstarted := hsound.unstarted
      counted := hsound.counted
      balanced := hsound.balanced
      closed := fun row hrow hphase => ended_of_evolves h.evolves (hsound.closed row hrow hphase)
      turned := fun g d part a hmem =>
        ⟨(hsound.turned g d part a hmem).1,
          stands_of_evolves h.evolves (hsound.turned g d part a hmem).2⟩ }
  others := fun m hm =>
    ⟨h.others m hm, ended_of_evolves h.evolves, fun howns => ⟨howns, rfl, rfl⟩, fun _ hg => hg,
      fun _ => Iff.rfl, fun hlocked => ⟨hlocked, rfl⟩⟩
  evolves := prefix_refl _

/-- So does every transaction of the harness that adds no action. -/
theorem commits_rows
    (h : (harnessDiscipline ctx.sha256 ctx.dump ctx.dumpRequest false).Commits n store.harness
      harness) (hcount : harness.actions.length = store.harness.actions.length) :
    (exploreDiscipline ctx).Commits n store { store with harness := harness } := by
  apply commits_tables h
  intro k hsound hsound' hsingle
  refine single_of_count hsound.names hsound'.names ?_ hcount hsingle
  intro project id row hrow
  obtain ⟨row', hrow', hevolves⟩ := h.evolves.actions project id row hrow
  exact ⟨row', hrow', hevolves.identity⟩

/-- What the owner of the row may write into it. -/
structure ExploreStore.Writable (ctx : ExploreContext) (n : Nat) (store : ExploreStore)
    (state : ModelState) : Prop where
  counted : state.generations = (reservations store.effects).length ∨
    state.generations = (reservations store.effects).length + 1 ∨
    state.generations + 1 = (reservations store.effects).length ∧
      (n, (reservations store.effects).length) ∈ reservations store.effects ∧
      (n, (reservations store.effects).length) ∉ transports store.effects
  balanced : state.Balanced ctx
  closed : state.phase = .terminal → store.ended ctx = true
  unlocked : ∀ m, m ≠ n → store.Locked m →
    state.generations = (reservations store.effects).length ∧ state.phase.shut

/-- The store with a new record in its row. -/
def ExploreStore.written (store : ExploreStore) (n deadline : Nat) (row : ModelRow)
    (state : ModelState) : ExploreStore :=
  { store with
    row := some { row with record := state, deadline := deadline }
    effects := store.effects ++ ledgerChange n row.record.generations state.generations }

variable {state : ModelState}

/-- The row is written back only by its runner, under a new lease. -/
theorem persist_ok {now : Nat} {a : Unit} {store' : ExploreStore}
    (h : persist n now state store = .ok (a, store')) :
    ∃ row, store.row = some row ∧ row.runner = some n ∧
      store' = store.written n (now + 60000) row state := by
  simp only [persist, bind_ok, get_ok] at h
  obtain ⟨_, _, hget, h⟩ := h
  cases hget
  cases hrow : store.row with
  | none =>
    rw [hrow] at h
    exact absurd h throw_ok
  | some row =>
    rw [hrow] at h
    dsimp only at h
    split at h
    · next hrunner =>
        rw [set_ok] at h
        cases h
        exact ⟨row, rfl, hrunner, rfl⟩
    · exact absurd h throw_ok

/-- The reservations behind a write are as many as the record counts. -/
structure ExploreStore.Counts (n : Nat) (store store' : ExploreStore) (state : ModelState) :
    Prop where
  lawful : Lawful store'.effects
  length : (reservations store'.effects).length = state.generations
  kept : ∀ m g, m ≠ n → (m, g) ∈ reservations store.effects → (m, g) ∈ reservations store'.effects
  sent : transports store'.effects = transports store.effects
  same : state.generations = (reservations store.effects).length →
    reservations store'.effects = reservations store.effects
  reserved : state.generations = (reservations store.effects).length + 1 →
    (n, state.generations) ∈ reservations store'.effects

theorem written_counts {row : ModelRow} (deadline : Nat) (hlawful : Lawful store.effects)
    (hrow : row.record.generations = (reservations store.effects).length)
    (hwritable : store.Writable ctx n state) :
    store.Counts n (store.written n deadline row state) state := by
  unfold ExploreStore.written ledgerChange
  rw [hrow]
  rcases hwritable.counted with hsame | hmore | ⟨hless, hmem, hunsent⟩
  · -- nothing is counted
    rw [if_neg (by omega), if_neg (by omega)]
    exact ⟨by simpa using hlawful, by simpa using hsame.symm, fun _ _ _ h => by simpa using h,
      by simp, fun _ => by simp, fun h => by omega⟩
  · -- one more generation
    rw [if_pos (by omega)]
    refine ⟨.snoc _ _ hlawful hmore, ?_, ?_, ?_, ?_, ?_⟩
    · simp [ModelEffect.settle, hmore]
    · exact fun m g _ hg => by simp [ModelEffect.settle, hg]
    · simp [transports]
    · exact fun h => by omega
    · exact fun _ => by simp [ModelEffect.settle]
  · -- one generation is given back
    rw [if_neg (by omega), if_pos (by omega)]
    have hlast := hlawful.last hmem
    have hsplit := hlawful.returned hlast
    refine ⟨.snoc _ _ hlawful ⟨hlast, hunsent⟩, ?_, ?_, ?_, ?_, ?_⟩
    · have hlength := congrArg List.length hsplit
      rw [length_append, length_singleton] at hlength
      simp only [reservations_snoc, ModelEffect.settle]
      omega
    · intro m g hm hg
      have hne : (m, g) ≠ (n, (reservations store.effects).length) := by
        intro heq
        exact hm (Prod.mk.inj heq).1
      simp only [reservations_snoc, ModelEffect.settle]
      exact (mem_erase_of_ne hne).mpr hg
    · simp [transports]
    · exact fun h => by omega
    · exact fun h => by omega

/-- A runner may write what agrees with the ledger. -/
theorem commits_written {row : ModelRow} {deadline : Nat} (hlawful : Lawful store.effects)
    (hcounted : row.record.generations = (reservations store.effects).length)
    (hrunner : row.runner = some n) (hwritable : store.Writable ctx n state) :
    (exploreDiscipline ctx).Commits n store (store.written n deadline row state) := by
  have hcounts := written_counts deadline hlawful hcounted hwritable
  refine ⟨?_, ?_, prefix_append _ _⟩
  · intro k _ hsound
    exact
      { harness := hsound.harness
        single := hsound.single
        lawful := hcounts.lawful
        unstarted := nofun
        counted := fun row' hrow' => by
          cases hrow'
          exact hcounts.length.symm
        balanced := fun row' hrow' => by
          cases hrow'
          exact hwritable.balanced
        closed := fun row' hrow' hphase => by
          cases hrow'
          exact hwritable.closed hphase
        turned := fun g d part a hmem => by
          apply hsound.turned g d part a
          rcases mem_append.mp hmem with hold | hnew
          · exact hold
          unfold ledgerChange at hnew
          split at hnew
          · simp at hnew
          · split at hnew <;> simp at hnew }
  · intro m hm
    refine ⟨.refl m _, id, ?_, fun g hg => hcounts.kept m g hm hg, ?_, ?_⟩
    · intro ⟨row', hrow', hrunner'⟩
      cases hrow'
      have hother : row.runner = some m := hrunner'
      rw [hrunner] at hother
      exact absurd (Option.some.inj hother).symm hm
    · intro g
      rw [hcounts.sent]
    · intro hlocked
      obtain ⟨hsame, hshut⟩ := hwritable.unlocked m hm hlocked
      have hlive := hcounts.same hsame
      obtain ⟨_, g, _, _, hlast⟩ := hlocked
      exact ⟨⟨_, g, rfl, hshut, by rw [hlive]; exact hlast⟩, hlive⟩

theorem taken_state (hsound : store.Sound ctx k)
    (hrecord : ∀ row, store.row = some row → row.record = state)
    (hinitial : store.row = none → state.generations = 0 ∧ state.Balanced ctx ∧
      state.phase = .ready) :
    state.generations = (reservations store.effects).length ∧ state.Balanced ctx ∧
      (state.phase = .terminal → store.ended ctx = true) := by
  cases hrow : store.row with
  | none =>
    obtain ⟨hzero, hbalanced, hphase⟩ := hinitial hrow
    rw [hsound.unstarted hrow]
    exact ⟨hzero, hbalanced, fun h => by rw [hphase] at h; cases h⟩
  | some row =>
    have hsame := hrecord row hrow
    subst hsame
    exact ⟨hsound.counted row hrow, hsound.balanced row hrow, hsound.closed row hrow⟩

/-- A row may be taken over with the record that is stored in it. -/
theorem commits_takeover {deadline : Nat}
    (hrecord : ∀ row, store.row = some row → row.record = state)
    (hinitial : store.row = none → state.generations = 0 ∧ state.Balanced ctx ∧
      state.phase = .ready) : (exploreDiscipline ctx).Commits n store
      { store with row := some ⟨state, some n, deadline⟩ } := by
  refine ⟨?_, ?_, prefix_refl _⟩
  · intro k _ hsound
    have hstate := taken_state hsound hrecord hinitial
    exact
      { harness := hsound.harness
        single := hsound.single
        lawful := hsound.lawful
        unstarted := nofun
        counted := fun row' hrow' => by
          cases hrow'
          exact hstate.1
        balanced := fun row' hrow' => by
          cases hrow'
          exact hstate.2.1
        closed := fun row' hrow' hphase => by
          cases hrow'
          exact hstate.2.2 hphase
        turned := hsound.turned }
  · intro m hm
    refine ⟨.refl m _, id, ?_, fun _ hg => hg, fun _ => Iff.rfl, ?_⟩
    · intro ⟨row', hrow', hrunner'⟩
      cases hrow'
      exact absurd (Option.some.inj hrunner').symm hm
    · intro ⟨row, g, hrow, hshut, hlast⟩
      rw [hrecord row hrow] at hshut
      exact ⟨⟨_, g, rfl, hshut, hlast⟩, rfl⟩

theorem commits_leased {row row' : ModelRow} (hrow : store.row = some row)
    (hrecord : row'.record = row.record) (hrunner : ∀ m, row'.runner = some m → row.runner = some m) :
    (exploreDiscipline ctx).Commits n store { store with row := some row' } := by
  refine ⟨?_, ?_, prefix_refl _⟩
  · intro k _ hsound
    exact
      { harness := hsound.harness
        single := hsound.single
        lawful := hsound.lawful
        unstarted := nofun
        counted := fun found hfound => by
          cases hfound
          rw [hrecord]
          exact hsound.counted row hrow
        balanced := fun found hfound => by
          cases hfound
          rw [hrecord]
          exact hsound.balanced row hrow
        closed := fun found hfound hphase => by
          cases hfound
          rw [hrecord] at hphase
          exact hsound.closed row hrow hphase
        turned := hsound.turned }
  · intro m _
    refine ⟨.refl m _, id, ?_, fun _ hg => hg, fun _ => Iff.rfl, ?_⟩
    · intro ⟨found, hfound, hfoundRunner⟩
      cases hfound
      refine ⟨⟨row, hrow, hrunner m hfoundRunner⟩, ?_, rfl⟩
      simp [hrow, hrecord]
    intro ⟨found, g, hfound, hshut, hlast⟩
    rw [hrow] at hfound
    cases hfound
    exact ⟨⟨row', g, rfl, by rw [hrecord]; exact hshut, hlast⟩, rfl⟩

/-- A reserved request that was not sent may be sent. -/
theorem commits_sent {g : Nat} (hmem : (n, g) ∈ reservations store.effects)
    (hunsent : (n, g) ∉ transports store.effects) : (exploreDiscipline ctx).Commits n store
      { store with effects := store.effects ++ [.sent n g] } := by
  have hlive : reservations (store.effects ++ [.sent n g]) = reservations store.effects := by
    simp [ModelEffect.settle]
  refine ⟨?_, ?_, prefix_append _ _⟩
  · intro k _ hsound
    exact
      { harness := hsound.harness
        single := hsound.single
        lawful := .snoc _ _ hsound.lawful ⟨hmem, hunsent⟩
        unstarted := fun hrow => hlive.trans (hsound.unstarted hrow)
        counted := fun row hrow => by
          rw [hlive]
          exact hsound.counted row hrow
        balanced := hsound.balanced
        closed := hsound.closed
        turned := fun g' d part a hturned => by
          apply hsound.turned g' d part a
          simpa using hturned }
  · intro m hm
    refine ⟨.refl m _, id, fun howns => ⟨howns, rfl, hlive⟩, fun g' hg' => by rwa [hlive], ?_, ?_⟩
    · intro g'
      simp only [transports_append, mem_append]
      constructor
      · intro h
        rcases h with hold | hnew
        · exact hold
        · simp [transports] at hnew
          exact absurd hnew.1 hm
      · exact Or.inl
    · intro ⟨row, g', hrow, hshut, hlast⟩
      exact ⟨⟨row, g', hrow, hshut, by rwa [hlive]⟩, hlive⟩

/-- A decision is turned into the action that stands under its key. -/
theorem commits_turned {g : Nat} {d : Decision} {a : Text}
    (hasks : d.Asks ctx g part) (hstands : store.Stands ctx part a) :
    (exploreDiscipline ctx).Commits n store
      { store with effects := store.effects ++ [.turned g d part a] } := by
  have hlive : reservations (store.effects ++ [.turned g d part a]) =
      reservations store.effects := by
    simp [ModelEffect.settle]
  have hsent : transports (store.effects ++ [.turned g d part a]) = transports store.effects := by
    simp [transports]
  refine ⟨?_, ?_, prefix_append _ _⟩
  · intro k _ hsound
    exact
      { harness := hsound.harness
        single := hsound.single
        lawful := .snoc _ _ hsound.lawful trivial
        unstarted := fun hrow => hlive.trans (hsound.unstarted hrow)
        counted := fun row hrow => by
          rw [hlive]
          exact hsound.counted row hrow
        balanced := hsound.balanced
        closed := hsound.closed
        turned := fun g' d' part' a' hturned => by
          rcases mem_append.mp hturned with hold | hnew
          · exact hsound.turned g' d' part' a' hold
          · cases mem_singleton.mp hnew
            exact ⟨hasks, hstands⟩ }
  · intro m _
    refine ⟨.refl m _, id, fun howns => ⟨howns, rfl, hlive⟩, fun g' hg' => by rwa [hlive], ?_, ?_⟩
    · intro g'
      rw [hsent]
    · intro ⟨row, g', hrow, hshut, hlast⟩
      exact ⟨⟨row, g', hrow, hshut, by rwa [hlive]⟩, hlive⟩

end Indago
