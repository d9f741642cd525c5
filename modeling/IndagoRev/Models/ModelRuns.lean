import IndagoRev.Models.ModelGenerations

/-!
# Runs of the controller

A run takes the row over with the record that is stored in it, goes through its
turns, and gives the row up. Whatever the record is, the runner may write it back,
and it sends nothing unless the record was between two requests.

Main results: `ensures_harnessExplore` and `each_harnessExplore`.
-/

namespace Indago

open StdText Tables Transactions Interleaving Program

variable {ctx : ExploreContext} {request : ExploreRequest} {store : ExploreStore}
  {limit n k : Nat}

variable {r : ExploreLocal} {s : ExploreStore}

/-- However a turn ends, what it leaves fits its end. -/
theorem ensures_exploreTurn (h : Landed ctx limit n r s) :
    Ensures (exploreDiscipline ctx) n (exploreTurn ctx request n limit)
      (TurnEnd ctx limit n) r s := by
  apply ensures_bind
  apply (tame_checkRetry.keeps r s h).mono
  intro retry r s h
  cases retry with
  | error e => exact h.turnEnd _
  | ok retry =>
    dsimp only
    split
    · exact h.turnEnd (.ok .stop)
    apply ensures_bind
    apply (tame_bootstrap.keeps r s h).mono
    intro begun r s h
    cases begun with
    | error e => exact h.turnEnd _
    | ok _ =>
      apply ensures_bind
      apply (ensures_generateDecision h).mono
      intro generated r s hend
      cases generated with
      | error e => exact hend
      | ok generated =>
        dsimp only
        split
        · exact hend
        next hgo =>
          have hlanded : Landed ctx limit n r s := by
            refine ⟨hend.1, hend.2 ?_⟩
            intro hstop
            exact hgo (by rw [hstop]; decide)
          exact (tame_performDecision.bind fun _ => tame_ite (tame_pure _)
            (tame_afterDecision.bind fun _ => tame_pure _)).turn hlanded

theorem ensures_showInvestigation {P : ExploreLocal → ExploreStore → Prop} (hfirm : Firm ctx n P)
    (hp : P r s) : Ensures (exploreDiscipline ctx) n (showInvestigation ctx n)
      (fun x r s => P r s ∧ ∀ inv, x = .ok inv → s.ended ctx = inv.status.terminal) r s := by
  refine ensures_exploreQuery ?_ (fun e s' hrelies => ⟨hfirm.stable r s s' hrelies hp,
    fun _ hok => by cases hok⟩)
  intro s' k env inv s'' hrelies _ hsound h
  obtain ⟨harness, hshown, rfl⟩ := overHarness_ok h
  simp only [bind_ok, loadInvestigation_ok, pure_ok] at hshown
  obtain ⟨found, _, ⟨hfound, rfl⟩, hend⟩ := hshown
  cases hend
  have hcommits : (exploreDiscipline ctx).Commits n s' { s' with harness := s'.visible ctx } :=
    commits_rows commits_visible rfl
  have hp' := hfirm.stable r s s' hrelies hp
  refine ⟨hcommits, hfirm.tables r s' (s'.visible ctx) (commits_visible (n := n)).evolves hp', ?_⟩
  intro inv hinv
  cases hinv
  show ((ExploreStore.visible ctx s').investigation ctx.project ctx.id |>.map _).getD false = _
  rw [hfound]
  rfl

variable {rounds : Nat}

/-- The loop leaves a record that may be closed. -/
theorem ensures_exploreLoop (h : Landed ctx limit n r s) :
    Ensures (exploreDiscipline ctx) n (exploreLoop ctx request n limit rounds)
      (fun _ r s => Closable ctx n r s) r s := by
  induction rounds generalizing r s with
  | zero => exact h.toHolding.closable
  | succ more ih =>
    apply ensures_bind
    apply ((tame_showInvestigation firm_landed).keeps r s h).mono
    intro shown r s h
    cases shown with
    | error e => exact h.toHolding.closable
    | ok inv =>
      dsimp only
      split
      · exact h.toHolding.closable
      apply ensures_bind
      apply ((tame_cancelledFlag firm_landed).keeps r s h).mono
      intro cancelled r s h
      cases cancelled with
      | error e => exact h.toHolding.closable
      | ok cancelled =>
        dsimp only
        split
        · exact h.toHolding.closable
        apply ensures_bind
        apply (ensures_exploreTurn h).mono
        intro turn r s hend
        cases turn with
        | error e => exact hend
        | ok turn =>
          dsimp only
          split
          · exact hend.1.closable
          · next hgo => exact ih ⟨hend.1, hend.2 hgo⟩

/-- What a runner knows of the record it has taken over. -/
structure Taken (ctx : ExploreContext) (limit n : Nat) (r : ExploreLocal) (s : ExploreStore) :
    Prop where
  closable : Closable ctx n r s
  landed : ¬ r.state.phase.shut → Landed ctx limit n r s
  closed : r.state.phase = .terminal → s.ended ctx = true

theorem ensures_endedLoop (h : Closable ctx n r s) (hended : s.ended ctx = true) :
    Ensures (exploreDiscipline ctx) n (exploreLoop ctx request n limit rounds)
      (fun _ r s => Closable ctx n r s) r s := by
  cases rounds with
  | zero => exact h
  | succ more =>
    have hfirm : Firm ctx n (fun r s => Closable ctx n r s ∧ s.ended ctx = true) :=
      { stable := fun r s s' hrelies hp =>
          ⟨firm_closable.stable r s s' hrelies hp.1, hrelies.ended hp.2⟩
        tables := fun r s harness hevolves hp =>
          ⟨firm_closable.tables r s harness hevolves hp.1, ended_of_evolves hevolves hp.2⟩
        turned := fun r s g d part a hp => ⟨firm_closable.turned r s g d part a hp.1, hp.2⟩
        account := fun r r' s haccount hp =>
          ⟨firm_closable.account r r' s haccount hp.1, hp.2⟩ }
    apply ensures_bind
    apply (ensures_showInvestigation hfirm ⟨h, hended⟩).mono
    intro shown r s ⟨⟨h, hended⟩, hshown⟩
    cases shown with
    | error e => exact h
    | ok inv =>
      have hterminal : inv.status.terminal = true := (hshown inv rfl).symm.trans hended
      dsimp only
      rw [if_pos hterminal]
      exact h

theorem ensures_exploreBody (h : Taken ctx limit n r s) :
    Ensures (exploreDiscipline ctx) n (exploreBody ctx request n limit rounds)
      (fun _ r s => Closable ctx n r s) r s := by
  apply ensures_bind
  apply ensures_get
  dsimp only
  split
  · exact (tame_finishWith firm_closable).keeps r s h.closable
  next hlanded =>
    by_cases hterminal : r.state.phase = .terminal
    · exact ensures_endedLoop h.closable (h.closed hterminal)
    · exact ensures_exploreLoop (h.landed fun hshut => hshut.elim hlanded hterminal)

theorem tame_cancelOwned : Tame ctx n (Closable ctx n) (cancelOwned ctx request n) := by
  refine (tame_cancelledFlag firm_closable).bind fun cancelled =>
    (tame_showInvestigation firm_closable).bind fun inv => tame_ite ?_ (tame_pure _)
  exact (tame_overHarness firm_closable fun _ =>
    keeps_of_tables commits_cancelInvestigation leaves_cancelInvestigation).bind
    fun _ => tame_pure _

theorem tame_showResult : Tame ctx n (Closable ctx n) (showResult ctx n) := by
  refine tame_get.bind fun l => ?_
  cases l.result with
  | some status => exact tame_pure _
  | none => exact (tame_showInvestigation firm_closable).bind fun inv =>
    tame_setResult firm_closable _

/-- An end of the investigation may be written into the record. -/
theorem Closable.ending (status : Option Text) (terminal : Bool)
    (h : Closable ctx n r store) (hended : terminal = true → store.ended ctx = true) :
    Closable ctx n { r with state := { r.state with
      status := status
      phase := if terminal then .terminal else r.state.phase } } store := by
  refine ⟨fun howns => ?_⟩
  have hwritable := h.writable howns
  refine ⟨hwritable.counted, ⟨hwritable.balanced.within, hwritable.balanced.bounded,
    hwritable.balanced.tokens, hwritable.balanced.duration⟩, ?_, ?_⟩
  · intro hphase
    cases terminal with
    | true => exact hended rfl
    | false => exact hwritable.closed hphase
  intro m hm hlocked
  obtain ⟨hcount, hshut⟩ := hwritable.unlocked m hm hlocked
  refine ⟨hcount, ?_⟩
  cases terminal with
  | true => exact Or.inr rfl
  | false => exact hshut

variable {a : Unit} {state : ModelState}

/-- The last save and the end of the lease are one transaction. -/
theorem released_row {row : ModelRow} {deadline : Nat}
    {s' : ExploreStore} (hrunner : row.runner = some n)
    (h : releaseRow n (store.written n deadline row state) = .ok (a, s')) :
    s' = { store.written n deadline row state with
      row := some ⟨state, none, 0⟩ } := by
  simp only [releaseRow, modify_ok] at h
  cases h
  simp [ExploreStore.written, hrunner]

theorem ensures_closeRun (h : Closable ctx n r s) :
    Ensures (exploreDiscipline ctx) n (closeRun ctx n) (fun _ _ _ => True) r s := by
  apply ensures_bind
  apply (ensures_showInvestigation firm_closable h).mono
  intro shown r s ⟨h, hshown⟩
  cases shown with
  | error e => exact trivial
  | ok inv =>
    apply ensures_bind
    apply ensures_modify
    have hclosable := h.ending (some (r.result.getD "partial")) inv.status.terminal
      fun hterminal => (hshown inv rfl).trans hterminal
    apply ensures_bind
    apply ensures_get
    refine ensures_exploreQuery ?_ (fun _ _ _ => trivial)
    intro s' k env a s'' hrelies _ hsound h
    obtain ⟨_, middle, hpersist, hrelease⟩ := bind_ok.mp h
    obtain ⟨row, hrow, hrunner, rfl⟩ := persist_ok hpersist
    rw [released_row hrunner hrelease]
    have hwritable := (firm_closable.stable _ s s' hrelies hclosable).writable ⟨row, hrow, hrunner⟩
    have hwritten : (exploreDiscipline ctx).Commits n s'
        (s'.written n (env.harness.now + 60000) row _) :=
      commits_written hsound.lawful (hsound.counted row hrow) hrunner hwritable
    exact ⟨hwritten.trans (commits_leased rfl rfl fun m hm => by cases hm), trivial⟩

variable {store' : ExploreStore} {now : Nat}

theorem checkVacant_ok (h : checkVacant now store = .ok (a, store')) :
    store = store' ∧ ∀ row, store.row = some row → row.runner = none ∨ row.deadline ≤ now := by
  simp only [checkVacant, bind_ok, get_ok] at h
  obtain ⟨_, _, hget, h⟩ := h
  cases hget
  cases hrow : store.row with
  | none =>
    rw [hrow] at h
    cases pure_ok.mp h
    exact ⟨rfl, fun _ hnone => by cases hnone⟩
  | some row =>
    rw [hrow] at h
    dsimp only at h
    split at h
    · exact absurd h throw_ok
    next hvacant =>
      cases pure_ok.mp h
      refine ⟨rfl, fun row' hrow' => ?_⟩
      cases hrow'
      cases hrunner : row.runner with
      | none => exact Or.inl rfl
      | some m =>
        right
        rw [hrunner] at hvacant
        exact Nat.le_of_not_lt fun hlt => hvacant ⟨hlt, rfl⟩

theorem checkLease_ok {token : Text}
    (h : checkLease ctx now token store = .ok (a, store')) : store = store' := by
  simp only [checkLease, bind_ok, get_ok] at h
  obtain ⟨_, _, hget, h⟩ := h
  cases hget
  cases hfound : store.harness.investigation ctx.project ctx.id with
  | none =>
    rw [hfound] at h
    exact absurd h throw_ok
  | some found =>
    rw [hfound] at h
    dsimp only at h
    split at h
    · exact absurd h throw_ok
    · cases pure_ok.mp h
      rfl

theorem checkActions_ok (h : checkActions ctx now store = .ok (a, store')) : store = store' := by
  simp only [checkActions, bind_ok, get_ok] at h
  obtain ⟨_, _, hget, h⟩ := h
  cases hget
  split at h
  · exact absurd h throw_ok
  · cases pure_ok.mp h
    rfl

/-- A run that was admitted to a store. -/
structure TakeStep (ctx : ExploreContext) (n now : Nat) (recipe : Recipe) (maxGenerations : Nat)
    (store : ExploreStore) (state : ModelState) (store' : ExploreStore) : Prop where
  vacant : ∀ row, store.row = some row → row.runner = none ∨ row.deadline ≤ now
  record : ∀ row, store.row = some row → row.record = state
  initial : store.row = none → state = .initial ctx.profile recipe maxGenerations
  pinned : state.maxGenerations = maxGenerations
  taken : store' = { store with row := some ⟨state, some n, now + 60000⟩ }

variable {maxGenerations : Nat} {recipe : Recipe}

/-- Who takes a run over has found it vacant. -/
theorem takeRun_ok
    (h : takeRun ctx request n now recipe maxGenerations store = .ok (state, store')) :
    TakeStep ctx n now recipe maxGenerations store state store' := by
  simp only [takeRun, bind_ok, get_ok] at h
  obtain ⟨_, _, hlease, _, _, hvacant, _, _, hactions, _, _, hget, h⟩ := h
  cases hget
  obtain rfl := checkLease_ok hlease
  obtain ⟨rfl, hfree⟩ := checkVacant_ok hvacant
  obtain rfl := checkActions_ok hactions
  -- the record of the row, or the initial one
  obtain ⟨state', hrecord, hinitial, h⟩ : ∃ state',
      (∀ row, store.row = some row → row.record = state') ∧
      (store.row = none → state' = .initial ctx.profile recipe maxGenerations) ∧
      (if state'.profileSha256 ≠ ctx.profile.sha256 ∨ state'.recipe ≠ recipe ∨
          state'.maxGenerations ≠ maxGenerations then
        throw (.other "controller configuration is pinned; create/transfer explicitly")
      else do
        set { store with row := some ⟨state', some n, now + 60000⟩ }
        return state' : ExploreTx ModelState) store = .ok (state, store') := by
    cases hrow : store.row with
    | none =>
      rw [hrow] at h
      exact ⟨_, (fun _ hnone => by cases hnone), fun _ => rfl, h⟩
    | some row =>
      rw [hrow] at h
      exact ⟨_, (fun _ hsome => by cases hsome; rfl), (fun hnone => by cases hnone), h⟩
  split at h
  · exact absurd h throw_ok
  next hpinned =>
    simp only [not_or, not_not] at hpinned
    simp only [bind_ok, set_ok, pure_ok] at h
    obtain ⟨_, _, hset, hend⟩ := h
    cases hset
    cases hend
    exact ⟨hfree, hrecord, hinitial, hpinned.2.2, rfl⟩

theorem ensures_takeRun (hmax : maxGenerations ≤ 128) : Ensures (exploreDiscipline ctx) n
      (exploreQuery n (fun env => takeRun ctx request n env.harness.now recipe maxGenerations))
      (fun x _ s => ∀ state, x = .ok state → Taken ctx maxGenerations n ⟨state, none⟩ s) r s := by
  refine ensures_exploreQuery ?_ (fun _ _ _ _ hok => by cases hok)
  intro s' k env state s'' _ _ hsound h
  have hstep := takeRun_ok h
  have hinitial : s'.row = none → state.generations = 0 ∧ state.Balanced ctx ∧
      state.phase = .ready := by
    intro hrow
    rw [hstep.initial hrow]
    exact ⟨rfl, ⟨Nat.zero_le _, hmax, rfl, rfl⟩, rfl⟩
  obtain ⟨hcount, hbalanced, hclosed⟩ := taken_state hsound hstep.record hinitial
  rw [hstep.taken]
  refine ⟨commits_takeover hstep.record hinitial, ?_⟩
  intro state' hstate
  cases hstate
  -- a locked row is shut
  have hlocked : ∀ m, ExploreStore.Locked m
      { s' with row := some ⟨state, some n, env.harness.now + 60000⟩ } → state.phase.shut := by
    intro m ⟨row, g, hrow, hshut, _⟩
    cases hrow
    exact hshut
  refine ⟨⟨fun _ => ⟨Or.inl hcount, hbalanced, hclosed, fun m _ h => ⟨hcount, hlocked m h⟩⟩⟩,
    fun hopen => ?_, hclosed⟩
  exact ⟨⟨hbalanced, hstep.pinned, fun hphase => hopen (Or.inr hphase),
    fun _ => ⟨hcount, fun m _ h => hopen (hlocked m h)⟩⟩, fun hphase => hopen (Or.inl hphase)⟩

theorem ensures_exploreRun {rounds maxGenerations : Nat} (hmax : maxGenerations ≤ 128) :
    Ensures (exploreDiscipline ctx) n (exploreRun ctx request n maxGenerations rounds)
      (fun _ _ _ => True) r s := by
  apply ensures_bind
  apply (ensures_takeRun hmax).mono
  intro taken r s h
  cases taken with
  | error e => exact trivial
  | ok state =>
    apply ensures_bind
    apply ensures_set
    apply ensures_bind
    have hbody : Ensures (exploreDiscipline ctx) n (tryCatch (do
        exploreBody ctx request n maxGenerations rounds
        cancelOwned ctx request n
        showResult ctx n) (fun _ => setResult "partial"))
        (fun _ r s => Closable ctx n r s) ⟨state, none⟩ s := by
      apply ensures_tryCatch
      apply ensures_bind
      apply (ensures_exploreBody (h state rfl)).mono
      intro done r s h
      have hfailed : Keeps (exploreDiscipline ctx) n (Closable ctx n)
          (setResult "partial") := (tame_setResult firm_closable _).keeps
      cases done with
      | error e => exact hfailed r s h
      | ok _ =>
        apply ((tame_cancelOwned.bind fun _ => tame_showResult).keeps r s h).mono
        intro shown r s h
        cases shown with
        | error e => exact hfailed r s h
        | ok _ => exact h
    apply hbody.mono
    intro x r s h
    cases x with
    | error e => exact trivial
    | ok _ => exact ensures_closeRun h

theorem firm_trivial : Firm ctx n (fun _ _ => True) :=
  ⟨fun _ _ _ _ _ => trivial, fun _ _ _ _ _ => trivial, fun _ _ _ _ _ _ _ => trivial,
    fun _ _ _ _ _ => trivial⟩

theorem tame_checkStart : Tame ctx n (fun _ _ => True) (checkStart ctx request n) :=
  (tame_showInvestigation firm_trivial).bind fun _ => tame_ite (tame_throw _)
    ((tame_surroundings firm_trivial).bind fun _ => tame_ite (tame_throw _) (tame_pure _))

/-- Every run of the controller keeps the discipline. -/
theorem ensures_harnessExplore :
    Ensures (exploreDiscipline ctx) n (harnessExplore ctx request n rounds)
      (fun _ _ _ => True) r s := by
  unfold harnessExplore
  split
  · exact trivial
  split
  · exact trivial
  · exact trivial
  next generations hbound =>
    apply ensures_bind
    apply (tame_checkStart.keeps r s trivial).mono
    intro checked r s _
    cases checked with
    | error e => exact trivial
    | ok _ => exact ensures_exploreRun (bound_le hbound (by decide))

theorem each_modelComplete : (modelComplete ctx n).Each RowRule := by
  have hcancelled : Tame ctx n (fun _ _ => True) (checkCancelled n) :=
    tame_checkCancelled firm_trivial
  have hcontext : Tame ctx n (fun _ _ => True) (checkContext ctx n) :=
    tame_checkContext firm_trivial
  refine hcancelled.each.bind fun _ => hcontext.each.bind fun _ => each_get.bind fun l =>
    Each.bind (each_atomically ?_ ?_) fun answer => ?_
  · exact fun _ _ => Or.inl rfl
  · intro env s a s' h
    simp only [bind_ok, modify_ok, pure_ok] at h
    obtain ⟨_, _, hsent, hend⟩ := h
    cases hsent
    cases hend
    exact Or.inl rfl
  · have hafter : Tame ctx n (Holding ctx 0 n)
        (afterTransport n (l.state.generations = l.state.maxGenerations) answer) :=
      tame_afterTransport answer
    exact hafter.each

theorem each_finishWith {status : InvestigationStatus} {why : String} :
    (finishWith ctx request n status why).Each RowRule := by
  have hfinish : Tame ctx n (fun _ _ => True) (finishWith ctx request n status why) :=
    tame_finishWith firm_trivial
  exact hfinish.each

theorem each_surroundings : (surroundings n).Each RowRule := by
  apply each_atomically
  · exact fun _ _ => Or.inl rfl
  intro env s a s' h
  cases hrefused : env.refused with
  | some e =>
    rw [hrefused] at h
    exact absurd h throw_ok
  | none =>
    rw [hrefused] at h
    cases pure_ok.mp h
    exact Or.inl rfl

theorem each_look {α : Type} {f : ExploreInput → α} :
    (Program.atomically (.runner n) (fun env => pure (f env)) : ExploreProgram α).Each RowRule := by
  apply each_atomically
  · exact fun _ _ => Or.inl rfl
  · intro env s a s' h
    cases pure_ok.mp h
    exact Or.inl rfl

theorem each_requestFailed {compaction : Nat} {e : ModelError} :
    (requestFailed ctx request n compaction e).Each RowRule := by
  have hclosed : ∀ (status : InvestigationStatus) (why : String),
      (do finishWith ctx request n status why
          return .stop : ExploreProgram Turn).Each RowRule :=
    fun _ _ => each_finishWith.bind fun _ => each_pure _
  cases e with
  | context message =>
    refine (each_modify _).bind fun _ => each_saveState.bind fun _ => ?_
    exact each_ite (hclosed _ _) (each_pure _)
  | rateLimit ms =>
    exact (each_modify _).bind fun _ => each_look.bind fun now => (each_modify _).bind fun _ =>
      each_saveState.bind fun _ => (each_modify _).bind fun _ => each_pure _
  | transport message =>
    refine each_look.bind fun cancelled => each_ite (each_pure _) ?_
    exact (each_modify _).bind fun _ => each_saveState.bind fun _ => hclosed _ _
  | other message =>
    refine each_look.bind fun cancelled => each_ite (each_pure _) ?_
    exact (each_modify _).bind fun _ => each_saveState.bind fun _ => each_get.bind fun l =>
      each_ite (hclosed _ _) (each_pure _)

theorem each_generateDecision : (generateDecision ctx request n maxGenerations).Each RowRule := by
  refine each_get.bind fun l => each_ite (each_pure _) (each_ite ?_ ?_)
  · exact each_finishWith.bind fun _ => each_pure _
  refine each_surroundings.bind fun _ => (each_modify _).bind fun _ => each_saveState.bind fun _ =>
    Each.tryCatch (each_modelComplete.bind fun response => ?_) fun _ => each_requestFailed
  exact (each_modify _).bind fun _ => each_surroundings.bind fun _ => (each_modify _).bind fun _ =>
    each_saveState.bind fun _ => each_pure _

theorem each_exploreTurn : (exploreTurn ctx request n maxGenerations).Each RowRule := by
  have hretry : Tame ctx n (Landed ctx 0 n) (checkRetry n) := tame_checkRetry
  have hbootstrap : Tame ctx n (Landed ctx 0 n) (bootstrap n) := tame_bootstrap
  have hperform : Tame ctx n (Landed ctx 0 n) (performDecision ctx request n) :=
    tame_performDecision
  have hafter : Tame ctx n (Landed ctx 0 n) (afterDecision n) := tame_afterDecision
  refine hretry.each.bind fun retry => each_ite (each_pure _) (hbootstrap.each.bind fun _ => ?_)
  refine each_generateDecision.bind fun generated => each_ite (each_pure _) ?_
  exact hperform.each.bind fun performed => each_ite (each_pure _)
    (hafter.each.bind fun _ => each_pure _)

theorem each_showInvestigation : (showInvestigation ctx n).Each RowRule := by
  have hshow : Tame ctx n (fun _ _ => True) (showInvestigation ctx n) :=
    tame_showInvestigation firm_trivial
  exact hshow.each

theorem each_exploreLoop {maxGenerations rounds : Nat} :
    (exploreLoop ctx request n maxGenerations rounds).Each RowRule := by
  induction rounds with
  | zero => exact each_pure _
  | succ more ih =>
    refine each_showInvestigation.bind fun inv => each_ite (each_pure _) ?_
    refine each_look.bind fun cancelled => each_ite (each_pure _) ?_
    exact each_exploreTurn.bind fun turn => each_ite (each_pure _) ih

theorem each_closeRun : (closeRun ctx n).Each RowRule := by
  refine each_showInvestigation.bind fun inv => (each_modify _).bind fun _ =>
    each_get.bind fun l => each_atomically ?_ ?_
  · exact fun _ _ => Or.inl rfl
  intro env s a s' h
  obtain ⟨_, middle, hpersist, hrelease⟩ := bind_ok.mp (exploreQuery_ok h)
  obtain ⟨row, hrow, hrunner, rfl⟩ := persist_ok hpersist
  exact Or.inr ⟨n, rfl, Or.inl ⟨row, hrow, hrunner⟩⟩

theorem each_takeRun :
    (exploreQuery n (fun env => takeRun ctx request n env.harness.now recipe maxGenerations) :
      ExploreProgram ModelState).Each RowRule := by
  apply each_atomically
  · exact fun _ _ => Or.inl rfl
  intro env s state s' h
  have hstep := takeRun_ok (exploreQuery_ok h)
  refine Or.inr ⟨n, rfl, Or.inr ⟨hstep.vacant, ?_⟩⟩
  rw [hstep.taken]
  exact ⟨_, rfl, rfl, fun row hrow => (hstep.record row hrow).symm⟩

/-- A step of a run changes the row as its owner, or takes it over. -/
theorem each_harnessExplore : (harnessExplore ctx request n rounds).Each RowRule := by
  have hstart : Tame ctx n (fun _ _ => True) (checkStart ctx request n) := tame_checkStart
  have hcancel : Tame ctx n (Closable ctx n) (cancelOwned ctx request n) := tame_cancelOwned
  have hresult : Tame ctx n (Closable ctx n) (showResult ctx n) := tame_showResult
  have hbody : ∀ maxGenerations, (exploreBody ctx request n maxGenerations rounds).Each RowRule :=
    fun maxGenerations => each_get.bind fun l => each_ite each_finishWith each_exploreLoop
  unfold harnessExplore
  split
  · exact each_throw _
  split
  · exact each_throw _
  · exact each_throw _
  · refine hstart.each.bind fun _ => each_takeRun.bind fun state => Each.bind (fun _ => trivial)
      fun _ => Each.bind (Each.tryCatch ?_ fun _ => each_modify _) fun _ => each_closeRun
    exact (hbody _).bind fun _ => hcancel.each.bind fun _ => hresult.each

end Indago
