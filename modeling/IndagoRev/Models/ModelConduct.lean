import IndagoRev.Models.ModelLedger

/-!
# How a runner behaves

A condition on the local state of a runner is firm when nothing that others do, and
nothing in the tables of the harness, can break it. The programs that turn decisions
into actions keep the account of a runner, and change the row only while they own it.

Main results: `Tame.bind` and the other rules of tame programs, over `Firm` conditions.
-/

namespace Indago

open StdText Tables Transactions Interleaving Program List

variable {ctx : ExploreContext} {request : ExploreRequest} {store store' : ExploreStore}
  {limit n k : Nat}

/-- The row went to a runner because its lease had ended, and kept its record. -/
structure Takeover (n : Nat) (env : ExploreInput) (store store' : ExploreStore) : Prop where
  vacant : ∀ row, store.row = some row → row.runner = none ∨ row.deadline ≤ env.harness.now
  taken : ∃ row', store'.row = some row' ∧ row'.runner = some n ∧
    ∀ row, store.row = some row → row'.record = row.record

/-- The row changes for the runner that owns it, or is taken over. -/
def RowRule (label : Option ExploreLabel) (env : ExploreInput) (store store' : ExploreStore) :
    Prop :=
  store'.row = store.row ∨
    ∃ n, label = some (.runner n) ∧ (store.Owns n ∨ Takeover n env store store')

/-- The counters and the phase of a state. -/
def ModelState.account (state : ModelState) : Nat × Nat × Nat × Nat × ModelPhase :=
  (state.generations, state.maxGenerations, state.reservedOutputTokens,
    state.reservedGenerationMs, state.phase)

theorem ModelState.Balanced.of_account {state state' : ModelState} (h : state.Balanced ctx)
    (haccount : state'.account = state.account) : state'.Balanced ctx := by
  simp only [ModelState.account, Prod.mk.injEq] at haccount
  obtain ⟨hgenerations, hmax, htokens, hduration, _⟩ := haccount
  exact ⟨by rw [hgenerations, hmax]; exact h.within, by rw [hmax]; exact h.bounded,
    by rw [htokens, hgenerations]; exact h.tokens,
    by rw [hduration, hgenerations]; exact h.duration⟩

/-- A condition that others cannot break, and that looks at the account only. -/
structure Firm (ctx : ExploreContext) (n : Nat) (P : ExploreLocal → ExploreStore → Prop) :
    Prop where
  stable : ∀ r s s', s.Relies ctx n s' → P r s → P r s'
  tables : ∀ r s harness, s.harness.Evolves false harness → P r s →
    P r { s with harness := harness }
  turned : ∀ r s g d part a, P r s → P r { s with effects := s.effects ++ [.turned g d part a] }
  account : ∀ r r' s, r'.state.account = r.state.account → P r s → P r' s

/-- No other runner has the last word. -/
def ExploreStore.Alone (n : Nat) (store : ExploreStore) : Prop := ∀ m, m ≠ n → ¬ store.Locked m

/-- The account of a runner agrees with the row as long as it owns it. -/
structure Holding (ctx : ExploreContext) (limit n : Nat) (r : ExploreLocal) (s : ExploreStore) :
    Prop where
  balanced : r.state.Balanced ctx
  pinned : r.state.maxGenerations = limit
  running : r.state.phase ≠ .terminal
  synced : s.Owns n → r.state.generations = (reservations s.effects).length ∧ s.Alone n

/-- Beside that no request is on its way. -/
structure Landed (ctx : ExploreContext) (limit n : Nat) (r : ExploreLocal) (s : ExploreStore) :
    Prop extends Holding ctx limit n r s where
  landed : r.state.phase ≠ .requestInflight

/-- The generation of a runner is reserved and was not sent. -/
structure Ticket (ctx : ExploreContext) (limit n : Nat) (r : ExploreLocal) (s : ExploreStore) :
    Prop extends Holding ctx limit n r s where
  reserved : (n, r.state.generations) ∈ reservations s.effects
  unsent : (n, r.state.generations) ∉ transports s.effects

/-- What a runner may write when it closes. -/
structure Closable (ctx : ExploreContext) (n : Nat) (r : ExploreLocal) (s : ExploreStore) :
    Prop where
  writable : s.Owns n → s.Writable ctx n r.state

variable {part : DecisionRequest} {d : Decision} {a : Text} {log : List ModelEffect}

theorem reservations_turned {g : Nat} :
    reservations (log ++ [.turned g d part a]) = reservations log := by
  simp [ModelEffect.settle]

theorem transports_turned {g : Nat} :
    transports (log ++ [.turned g d part a]) = transports log := by
  simp [transports]

theorem locked_turned {m g : Nat} :
    ExploreStore.Locked m { store with effects := store.effects ++ [.turned g d part a] } ↔
      store.Locked m := by
  unfold ExploreStore.Locked
  simp only [reservations_turned]

/-- What an owner finds after the actions of others is what it left. -/
theorem locked_of_relies (h : store.Relies ctx n store') (howns : store'.Owns n) {m : Nat} :
    store'.Locked m → store.Locked m := by
  intro ⟨row', g, hrow', hshut, hlast⟩
  obtain ⟨⟨row, hrow, _⟩, hrecord, hlive⟩ := h.owned howns
  rw [hrow', hrow] at hrecord
  have hsame : row'.record = row.record := Option.some.inj hrecord
  exact ⟨row, g, hrow, by rw [← hsame]; exact hshut, by rw [← hlive]; exact hlast⟩

variable {r : ExploreLocal}

/-- What others do leaves a runner its holding. -/
theorem Holding.stable (h : Holding ctx limit n r store)
    (hrelies : store.Relies ctx n store') : Holding ctx limit n r store' where
  __ := h
  synced := fun howns => by
    obtain ⟨hbefore, _, hlive⟩ := hrelies.owned howns
    obtain ⟨hcount, halone⟩ := h.synced hbefore
    refine ⟨by rw [hlive]; exact hcount, ?_⟩
    intro m hm hlocked
    exact halone m hm (locked_of_relies hrelies howns hlocked)

theorem Holding.turned (h : Holding ctx limit n r store) {g : Nat} :
    Holding ctx limit n r { store with effects := store.effects ++ [.turned g d part a] } where
  __ := h
  synced := fun howns => by
    obtain ⟨hcount, halone⟩ := h.synced howns
    refine ⟨by simpa only [reservations_turned] using hcount, ?_⟩
    exact fun m hm hlocked => halone m hm (locked_turned.mp hlocked)

/-- A holding depends on the counters of the local state alone. -/
theorem Holding.account {r r' : ExploreLocal} (h : Holding ctx limit n r store)
    (haccount : r'.state.account = r.state.account) : Holding ctx limit n r' store := by
  have hparts := haccount
  simp only [ModelState.account, Prod.mk.injEq] at hparts
  obtain ⟨hgenerations, hmax, _, _, hphase⟩ := hparts
  exact ⟨h.balanced.of_account haccount, by rw [hmax]; exact h.pinned,
    by rw [hphase]; exact h.running, by rw [hgenerations]; exact h.synced⟩

theorem firm_holding : Firm ctx n (Holding ctx limit n) where
  stable := fun _ _ _ hrelies h => h.stable hrelies
  tables := fun _ _ _ _ h => ⟨h.balanced, h.pinned, h.running, h.synced⟩
  turned := fun _ _ _ _ _ _ h => h.turned
  account := fun _ _ _ haccount h => h.account haccount

theorem firm_landed : Firm ctx n (Landed ctx limit n) where
  stable := fun _ _ _ hrelies h => ⟨h.toHolding.stable hrelies, h.landed⟩
  tables := fun _ _ _ _ h => ⟨⟨h.balanced, h.pinned, h.running, h.synced⟩, h.landed⟩
  turned := fun _ _ _ _ _ _ h => ⟨h.toHolding.turned, h.landed⟩
  account := fun r r' s haccount h => by
    refine ⟨h.toHolding.account haccount, ?_⟩
    have hphase : r'.state.phase = r.state.phase := by
      simp only [ModelState.account, Prod.mk.injEq] at haccount
      exact haccount.2.2.2.2
    rw [hphase]
    exact h.landed

theorem firm_ticket : Firm ctx n (Ticket ctx limit n) where
  stable := fun _ _ _ hrelies h => ⟨h.toHolding.stable hrelies, hrelies.reserved _ h.reserved,
    fun hsent => h.unsent ((hrelies.sent _).mp hsent)⟩
  tables := fun _ _ _ _ h =>
    ⟨⟨h.balanced, h.pinned, h.running, h.synced⟩, h.reserved, h.unsent⟩
  turned := fun _ _ _ _ _ _ h => ⟨h.toHolding.turned, by
    rw [reservations_turned]
    exact h.reserved, by
    rw [transports_turned]
    exact h.unsent⟩
  account := fun r r' s haccount h => by
    have hgenerations : r'.state.generations = r.state.generations := by
      simp only [ModelState.account, Prod.mk.injEq] at haccount
      exact haccount.1
    exact ⟨h.toHolding.account haccount, by rw [hgenerations]; exact h.reserved,
      by rw [hgenerations]; exact h.unsent⟩

theorem firm_closable : Firm ctx n (Closable ctx n) where
  stable := fun r s s' hrelies h => by
    refine ⟨fun howns => ?_⟩
    obtain ⟨hbefore, _, hlive⟩ := hrelies.owned howns
    have hwritable := h.writable hbefore
    refine ⟨?_, hwritable.balanced, fun hphase => hrelies.ended (hwritable.closed hphase), ?_⟩
    · rw [hlive, hrelies.sent]
      exact hwritable.counted
    · intro m hm hlocked
      rw [hlive]
      exact hwritable.unlocked m hm (locked_of_relies hrelies howns hlocked)
  tables := fun r s harness hevolves h => by
    refine ⟨fun howns => ?_⟩
    have hwritable := h.writable howns
    exact ⟨hwritable.counted, hwritable.balanced,
      fun hphase => ended_of_evolves hevolves (hwritable.closed hphase), hwritable.unlocked⟩
  turned := fun r s g d part a h => by
    refine ⟨fun howns => ?_⟩
    have hwritable := h.writable howns
    refine ⟨?_, hwritable.balanced, hwritable.closed, ?_⟩
    · rw [reservations_turned, transports_turned]
      exact hwritable.counted
    · intro m hm hlocked
      rw [reservations_turned]
      exact hwritable.unlocked m hm (locked_turned.mp hlocked)
  account := fun r r' s haccount h => by
    refine ⟨fun howns => ?_⟩
    have hwritable := h.writable howns
    have hparts := haccount
    simp only [ModelState.account, Prod.mk.injEq] at hparts
    obtain ⟨hgenerations, _, _, _, hphase⟩ := hparts
    exact ⟨by rw [hgenerations]; exact hwritable.counted, hwritable.balanced.of_account haccount,
      by rw [hphase]; exact hwritable.closed, by rw [hgenerations, hphase]; exact hwritable.unlocked⟩

/-- A firm condition stays firm when the counters are fixed with it. -/
theorem Firm.fixed {P : ExploreLocal → ExploreStore → Prop} (h : Firm ctx n P)
    (account : Nat × Nat × Nat × Nat × ModelPhase) :
    Firm ctx n (fun r s => P r s ∧ r.state.account = account) where
  stable := fun r s s' hrelies hp => ⟨h.stable r s s' hrelies hp.1, hp.2⟩
  tables := fun r s harness hevolves hp => ⟨h.tables r s harness hevolves hp.1, hp.2⟩
  turned := fun r s g d part a hp => ⟨h.turned r s g d part a hp.1, hp.2⟩
  account := fun r r' s haccount hp => ⟨h.account r r' s haccount hp.1, haccount.trans hp.2⟩

theorem Holding.closable (h : Holding ctx limit n r store) : Closable ctx n r store := by
  refine ⟨fun howns => ?_⟩
  obtain ⟨hcount, halone⟩ := h.synced howns
  exact ⟨Or.inl hcount, h.balanced, fun hphase => absurd hphase h.running,
    fun m hm hlocked => absurd hlocked (halone m hm)⟩

/-- A program that keeps a condition, and treats the row by its rule. -/
structure Tame (ctx : ExploreContext) (n : Nat) (P : ExploreLocal → ExploreStore → Prop)
    {α : Type} (m : ExploreProgram α) : Prop where
  keeps : Keeps (exploreDiscipline ctx) n P m
  each : m.Each RowRule

section Tame

variable {P : ExploreLocal → ExploreStore → Prop} {α β : Type}

theorem tame_pure (a : α) : Tame ctx n P (pure a : ExploreProgram α) :=
  ⟨keeps_pure a, each_pure a⟩

theorem tame_throw (e : ModelError) : Tame ctx n P (throw e : ExploreProgram α) :=
  ⟨keeps_throw e, each_throw e⟩

theorem tame_get : Tame ctx n P (get : ExploreProgram ExploreLocal) := ⟨keeps_get, each_get⟩

theorem tame_modify (hfirm : Firm ctx n P) {f : ExploreLocal → ExploreLocal}
    (h : ∀ r, (f r).state.account = r.state.account) :
    Tame ctx n P (modify f : ExploreProgram PUnit) :=
  ⟨keeps_modify (fun r s hp => hfirm.account r (f r) s (h r) hp), each_modify f⟩

variable {m : ExploreProgram α}

/-- Tame programs are closed under sequencing. -/
theorem Tame.bind {f : α → ExploreProgram β} (h : Tame ctx n P m)
    (hf : ∀ a, Tame ctx n P (f a)) : Tame ctx n P (m >>= f) :=
  ⟨h.keeps.bind (fun a => (hf a).keeps), h.each.bind (fun a => (hf a).each)⟩

theorem Tame.tryCatch {handle : ModelError → ExploreProgram α}
    (h : Tame ctx n P m) (hhandle : ∀ e, Tame ctx n P (handle e)) :
    Tame ctx n P (MonadExcept.tryCatch m handle) :=
  ⟨h.keeps.tryCatch (fun e => (hhandle e).keeps), h.each.tryCatch (fun e => (hhandle e).each)⟩

theorem tame_ite {c : Prop} [Decidable c] {m m' : ExploreProgram α} (h : Tame ctx n P m)
    (h' : Tame ctx n P m') : Tame ctx n P (if c then m else m') := by
  split
  · exact h
  · exact h'

variable {t : ExploreInput → ExploreTx α}

theorem tame_atomically (hfirm : Firm ctx n P)
    (hrow : ∀ env s a s', t env s = .ok (a, s') → s'.row = s.row)
    (h : ∀ env r s k a s', P r s → n < k → s.Sound ctx k → t env s = .ok (a, s') →
      (exploreDiscipline ctx).Commits n s s' ∧ P r s') :
    Tame ctx n P (Program.atomically (.runner n) t : ExploreProgram α) where
  keeps := keeps_atomically (fun r s s' hrelies hp => hfirm.stable r s s' hrelies hp)
    (fun _ => trivial)
    (fun r s k env a s' hp hk hinv ht => h env r s k a s' hp hk hinv ht)
  each := each_atomically (fun _ _ => Or.inl rfl)
    (fun env s a s' ht => Or.inl (hrow env s a s' ht))

theorem exploreQuery_ok {t : ExploreTx α} {busy : Bool} {a : α}
    (h : (if busy then throw (.other "database is locked") else t : ExploreTx α) store =
      .ok (a, store')) : t store = .ok (a, store') := by
  by_cases hbusy : busy = true
  · rw [if_pos hbusy] at h
    exact absurd h throw_ok
  · rw [if_neg hbusy] at h
    exact h

theorem tame_query (hfirm : Firm ctx n P)
    (hrow : ∀ env s a s', t env s = .ok (a, s') → s'.row = s.row)
    (h : ∀ env r s k a s', P r s → n < k → s.Sound ctx k → t env s = .ok (a, s') →
      (exploreDiscipline ctx).Commits n s s' ∧ P r s') : Tame ctx n P (exploreQuery n t) :=
  tame_atomically hfirm (fun env s a s' ht => hrow env s a s' (exploreQuery_ok ht))
    (fun env r s k a s' hp hk hinv ht => h env r s k a s' hp hk hinv (exploreQuery_ok ht))

theorem ensures_exploreQuery {s : ExploreStore}
    {Q : Except ModelError α → ExploreLocal → ExploreStore → Prop}
    (hok : ∀ s' k env a s'', s.Relies ctx n s' → n < k → s'.Sound ctx k →
      t env s' = .ok (a, s'') → (exploreDiscipline ctx).Commits n s' s'' ∧ Q (.ok a) r s'')
    (herror : ∀ e s', s.Relies ctx n s' → Q (.error e) r s') :
    Ensures (exploreDiscipline ctx) n (exploreQuery n t) Q r s :=
  ensures_atomically fun s' hrelies k hk hsound _ =>
    ⟨trivial, fun env => ⟨fun a s'' h => hok s' k env a s'' hrelies hk hsound (exploreQuery_ok h),
      fun e _ => herror e s' hrelies⟩⟩

theorem tame_look (hfirm : Firm ctx n P) (h : ∀ env s a s', t env s = .ok (a, s') → s' = s) :
    Tame ctx n P (Program.atomically (.runner n) t : ExploreProgram α) := by
  apply tame_atomically hfirm
  · intro env s a s' ht
    rw [h env s a s' ht]
  · intro env r s k a s' hp _ _ ht
    rw [h env s a s' ht]
    exact ⟨.refl _ n s, hp⟩

theorem tame_surroundings (hfirm : Firm ctx n P) : Tame ctx n P (surroundings n) := by
  apply tame_look hfirm
  intro env s a s' h
  cases hrefused : env.refused with
  | some e =>
    rw [hrefused] at h
    exact absurd h throw_ok
  | none =>
    rw [hrefused] at h
    cases pure_ok.mp h
    rfl

theorem tame_cancelledFlag (hfirm : Firm ctx n P) : Tame ctx n P (cancelledFlag n) := by
  apply tame_look hfirm
  intro env s a s' h
  cases pure_ok.mp h
  rfl

theorem tame_clock (hfirm : Firm ctx n P) : Tame ctx n P (clock n) := by
  apply tame_look hfirm
  intro env s a s' h
  cases pure_ok.mp h
  rfl

end Tame

theorem overHarness_ok {α : Type} {t : HarnessTx α} {a : α}
    (h : overHarness ctx t store = .ok (a, store')) :
    ∃ harness, t (store.visible ctx) = .ok (a, harness) ∧
      store' = { store with harness := harness } := by
  simp only [overHarness] at h
  cases ht : t (store.visible ctx) with
  | error e =>
    rw [ht] at h
    cases h
  | ok answer =>
    rw [ht] at h
    cases h
    exact ⟨answer.2, rfl, rfl⟩

/-- What a controller is shown differs in the table of controllers alone. -/
theorem commits_visible :
    (harnessDiscipline ctx.sha256 ctx.dump ctx.dumpRequest false).Commits n store.harness
      (store.visible ctx) :=
  commits_controllers

/-- What a controller sees of sound tables is sound. -/
theorem visible_sound (h : store.Sound ctx k) :
    (store.visible ctx).Sound ctx.sha256 ctx.dump ctx.dumpRequest k := by
  have hsound := h.harness
  exact
    { knowledge := hsound.knowledge
      names := hsound.names
      rows := hsound.rows
      investigations := fun project id row hrow =>
        ⟨(hsound.investigations project id row hrow).project,
          (hsound.investigations project id row hrow).id,
          (hsound.investigations project id row hrow).bounded,
          (hsound.investigations project id row hrow).within,
          (hsound.investigations project id row hrow).counted,
          (hsound.investigations project id row hrow).closed⟩
      owned := hsound.owned
      published := hsound.published
      origins := hsound.origins }

/-- A transaction of the harness that keeps its discipline and adds no action. -/
structure HarnessTx.Keeps {α : Type} (ctx : ExploreContext) (n : Nat) (t : HarnessTx α) : Prop where
  commits : t.Commits ctx.sha256 ctx.dump ctx.dumpRequest false n
  count : ∀ s a s', t s = .ok (a, s') → s'.actions.length = s.actions.length

theorem commits_overHarness {α : Type} {t : HarnessTx α} (ht : t.Keeps ctx n) {a : α}
    (hsound : store.Sound ctx k) (h : overHarness ctx t store = .ok (a, store')) :
    (exploreDiscipline ctx).Commits n store store' ∧
      ∃ harness, store' = { store with harness := harness } ∧
        store.harness.Evolves false harness := by
  obtain ⟨harness, hok, rfl⟩ := overHarness_ok h
  have hcommits := commits_visible.trans
    (ht.commits _ a harness hok ⟨k, visible_sound hsound⟩)
  have hcount := ht.count (store.visible ctx) a harness hok
  exact ⟨commits_rows hcommits hcount, harness, rfl, hcommits.evolves⟩

section Operations

variable {P : ExploreLocal → ExploreStore → Prop} {α : Type}

/-- A transaction that keeps the discipline and adds no action keeps what is firm. -/
theorem tame_overHarness (hfirm : Firm ctx n P) {t : ExploreInput → HarnessTx α}
    (ht : ∀ env, (t env).Keeps ctx n) :
    Tame ctx n P (exploreQuery n (fun env => overHarness ctx (t env))) := by
  apply tame_query hfirm
  · intro env s a s' h
    obtain ⟨harness, _, rfl⟩ := overHarness_ok h
    rfl
  · intro env r s k a s' hp _ hsound h
    obtain ⟨hcommits, harness, rfl, hevolves⟩ := commits_overHarness (ht env) hsound h
    exact ⟨hcommits, hfirm.tables r s harness hevolves hp⟩

theorem keeps_still {t : HarnessTx α} (h : ∀ s a s', t s = .ok (a, s') → s' = s) :
    t.Keeps ctx n where
  commits := fun s a s' hok _ => by
    rw [h s a s' hok]
    exact .refl _ n s
  count := fun s a s' hok => by rw [h s a s' hok]

theorem keeps_of_tables {t : HarnessTx α}
    (hcommits : t.Commits ctx.sha256 ctx.dump ctx.dumpRequest false n)
    (htables : Leaves HarnessStore.tables t) : t.Keeps ctx n :=
  ⟨hcommits, fun s a s' h => (Prod.mk.inj (htables s a s' h)).2⟩

theorem tame_showInvestigation (hfirm : Firm ctx n P) : Tame ctx n P (showInvestigation ctx n) := by
  apply tame_overHarness hfirm
  intro env
  apply keeps_still
  intro s a s' h
  simp only [bind_ok, loadInvestigation_ok, pure_ok] at h
  obtain ⟨_, _, ⟨_, hsame⟩, h⟩ := h
  cases h
  exact hsame.symm

theorem tame_owned (hfirm : Firm ctx n P) {operation : ExploreInput → Nat → HarnessTx α}
    (h : ∀ env revision, (operation env revision).Keeps ctx n) :
    Tame ctx n P (owned ctx n operation) :=
  (tame_showInvestigation hfirm).bind fun _ => tame_overHarness hfirm (fun env => h env _)

theorem tame_setResult (hfirm : Firm ctx n P) (status : Text) :
    Tame ctx n P (setResult status) := tame_modify hfirm (fun _ => rfl)

theorem tame_setFeedback (hfirm : Firm ctx n P) (feedback : Feedback) :
    Tame ctx n P (setFeedback feedback) := tame_modify hfirm (fun _ => rfl)

variable {env : HarnessInput} {caller : Caller}

theorem keeps_finish {finish : FinishRequest} :
    (finishInvestigation ctx.sha256 env caller finish).Keeps ctx n :=
  keeps_of_tables commits_finishInvestigation leaves_finishInvestigation

theorem keeps_note {expected : Option Nat} {note : InvestigationNote} :
    (noteInvestigation ctx.sha256 env ctx.project ctx.id caller expected note).Keeps ctx n :=
  keeps_of_tables commits_noteInvestigation leaves_noteInvestigation

theorem tame_finishWith (hfirm : Firm ctx n P) {status : InvestigationStatus} {why : String} :
    Tame ctx n P (finishWith ctx request n status why) :=
  (tame_owned hfirm fun _ _ => keeps_finish).bind fun _ => tame_setResult hfirm _

/-- A proposal keeps one action for each key, and answers with the one under its own. -/
theorem proposed_single {propose : ProposeRequest}
    {harness harness' : HarnessStore} {action : ActionRecord}
    (h : proposeAction ctx.sha256 ctx.dumpRequest env caller propose harness =
      .ok (action, harness')) (hsound : harness.Sound ctx.sha256 ctx.dump ctx.dumpRequest k)
    (hsound' : harness'.Sound ctx.sha256 ctx.dump ctx.dumpRequest k) :
    (harness.Single → harness'.Single) ∧
      ∃ row, harness'.action propose.project action.id = some row ∧
        row.investigation = propose.id ∧ row.key = propose.key := by
  obtain ⟨found, normal, _, _, hproposed⟩ := proposeAction_ok h
  cases hproposed with
  | known old hkeyed =>
    refine ⟨id, old, ?_, ?_⟩
    · have hmem := mem_of_find?_eq_some hkeyed
      obtain ⟨hold, hname⟩ := mem_filter.mp hmem
      have hproject : old.project = propose.project := by simp at hname; exact hname.1
      rw [(hsound.rows old hold).id, ← hproject]
      exact row_of_mem hsound.names hold
    · have hmem := mem_of_find?_eq_some hkeyed
      obtain ⟨_, hname⟩ := mem_filter.mp hmem
      have hkey := find?_some hkeyed
      simp only [decide_eq_true_eq] at hname hkey
      exact ⟨hname.2, hkey⟩
  | inserted reserved hkeyed hexpected hreserved hfresh =>
    have hnew : ∀ r ∈ harness.actions, r.slot ≠ (propose.project, propose.id, propose.key) := by
      intro r hr hslot
      simp only [ActionRow.slot, Prod.mk.injEq] at hslot
      have hnone := find?_eq_none.mp hkeyed r (mem_filter.mpr ⟨hr, by
        simp [hslot.1, hslot.2.1]⟩)
      simp [hslot.2.2] at hnone
    refine ⟨?_, propose.row ctx.sha256 ctx.dumpRequest env.freshId normal, ?_, rfl, rfl⟩
    · intro hsingle r hr r' hr' hslot
      rcases mem_append.mp hr with hold | hlast
      · rcases mem_append.mp hr' with hold' | hlast'
        · exact hsingle r hold r' hold' hslot
        · rw [mem_singleton.mp hlast'] at hslot
          exact absurd hslot (hnew r hold)
      · rw [mem_singleton.mp hlast] at hslot ⊢
        rcases mem_append.mp hr' with hold' | hlast'
        · exact absurd hslot.symm (hnew r' hold')
        · exact (mem_singleton.mp hlast').symm
    · have hlast : propose.row ctx.sha256 ctx.dumpRequest env.freshId normal ∈ harness.actions ++
          [propose.row ctx.sha256 ctx.dumpRequest env.freshId normal] :=
        mem_append_right _ (mem_singleton.mpr rfl)
      have hfound := row_of_mem hsound'.names hlast
      exact hfound

theorem commits_proposeRequest {decision : Decision}
    {proposal : Proposal} {draft : ActionDraft} {env : ExploreInput} {generation revision : Nat}
    {action : ActionRecord} (hk : n < k) (hsound : store.Sound ctx k)
    (hasks : decision.Asks ctx generation part)
    (h : proposeRequest ctx request n decision part proposal draft env generation revision store =
      .ok (action, store')) : (exploreDiscipline ctx).Commits n store store' ∧
      ∃ harness, store.harness.Evolves false harness ∧ store' = { store with
        harness := harness
        effects := store.effects ++ [.turned generation decision part action.id] } := by
  simp only [proposeRequest, bind_ok, modify_ok, pure_ok] at h
  obtain ⟨found, middle, hpropose, _, _, hturned, h⟩ := h
  cases hturned
  cases h
  obtain ⟨harness, hok, rfl⟩ := overHarness_ok hpropose
  have hcommits : (harnessDiscipline ctx.sha256 ctx.dump ctx.dumpRequest false).Commits n
      store.harness harness := commits_visible.trans
    (commits_proposeAction _ action harness hok ⟨k, visible_sound hsound⟩)
  have hvisible := visible_sound hsound
  have hafter := hcommits.keeps k hk hsound.harness
  obtain ⟨_, hstands⟩ := proposed_single hok hvisible hafter
  have htables : (exploreDiscipline ctx).Commits n store { store with harness := harness } := by
    apply commits_tables hcommits
    intro k' hsound' hafter' hsingle
    exact (proposed_single hok (visible_sound (k := k) hsound) hafter).1 hsingle
  refine ⟨htables.trans (commits_turned hasks hstands), harness, hcommits.evolves, rfl⟩

theorem tame_proposeOwned (hfirm : Firm ctx n P) {generation : Nat} {decision : Decision}
    {proposal : Proposal} {draft : ActionDraft} (hasks : decision.Asks ctx generation part) :
    Tame ctx n P (proposeOwned ctx request n generation decision part proposal draft) := by
  refine (tame_showInvestigation hfirm).bind fun inv => tame_query hfirm ?_ ?_
  · intro env s a s' h
    simp only [proposeRequest, bind_ok, modify_ok, pure_ok] at h
    obtain ⟨found, middle, hpropose, _, _, hturned, h⟩ := h
    cases hturned
    cases h
    obtain ⟨harness, _, rfl⟩ := overHarness_ok hpropose
    rfl
  · intro env r s k a s' hp hk hsound h
    obtain ⟨hcommits, harness, hevolves, rfl⟩ := commits_proposeRequest hk hsound hasks h
    exact ⟨hcommits, hfirm.turned r _ _ _ _ _ (hfirm.tables r s harness hevolves hp)⟩

end Operations

end Indago
