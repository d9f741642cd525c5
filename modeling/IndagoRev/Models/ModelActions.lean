import IndagoRev.Models.ModelConduct

/-!
# Decisions keep the account

Turning a decision into actions, and what follows it, never touches the counters of
a runner, however it ends.
-/

namespace Indago

open StdText Tables Transactions Interleaving Program

variable {ctx : ExploreContext} {request : ExploreRequest} {store store' : ExploreStore}
  {limit n k : Nat}

/-- A run changes the rows of actions that are there. -/
def KeepsActions (_ : Option HarnessLabel) (_ : HarnessInput) (store store' : HarnessStore) : Prop :=
  store'.actions.length = store.actions.length

theorem keepsActions_each {ρ α : Type} {m : HarnessProgram ρ α} (h : m.Each AddsNoRow) :
    m.Each KeepsActions :=
  h.mono (fun _ _ _ _ htables => (Prod.mk.inj htables).2)

/-- The discipline of the runners contains that of the harness. -/
theorem explore_contains (label : ExploreLabel) :
    (exploreDiscipline ctx).Contains (harnessPart label)
      (harnessDiscipline ctx.sha256 ctx.dump ctx.dumpRequest false) KeepsActions n where
  inv := fun _ _ h => h.harness
  rely := fun _ _ h => h.harness
  meets := fun _ _ h => by cases h
  good := fun _ _ => trivial
  commits := fun _ _ _ _ _ _ _ hcommits hcount => commits_rows hcommits hcount

section Runs

variable {P : ExploreLocal → ExploreStore → Prop} {action : Text} {r : ExploreLocal}

variable {s : ExploreStore}

theorem ensures_claim (hfirm : Firm ctx n P) {revision : Nat} (hp : P r s) :
    Ensures (exploreDiscipline ctx) n (exploreQuery n (fun env => do
        let claimed ← overHarness ctx (claimAction ctx.sha256 env.harness (request.caller n)
          ctx.project ctx.id action (some revision) n)
        return (claimed, env)))
      (fun x r s => P r s ∧ ∀ record inv env, x = .ok (.runs record inv, env) →
        Copy ⟨ctx.project, ctx.id, action, n⟩ record s.harness) r s := by
  refine ensures_exploreQuery ?_ (fun e s' hrelies => ⟨hfirm.stable r s s' hrelies hp,
    fun _ _ _ hruns => by cases hruns⟩)
  intro s' k env a s'' hrelies hk hsound h
  have hp' := hfirm.stable r s s' hrelies hp
  obtain ⟨claimed, mid, hclaim, hend⟩ := bind_ok.mp h
  cases pure_ok.mp hend
  obtain ⟨harness, hclaimed, rfl⟩ := overHarness_ok hclaim
  have hstep := claimAction_ok (visible_sound hsound) hclaimed
  have hcommits : (harnessDiscipline ctx.sha256 ctx.dump ctx.dumpRequest false).Commits n
      s'.harness harness := commits_visible.trans (commits_claimAction hstep)
  have htables := leaves_claimAction (s'.visible ctx) claimed harness hclaimed
  refine ⟨commits_rows hcommits (Prod.mk.inj htables).2,
    hfirm.tables r s' harness hcommits.evolves hp', ?_⟩
  intro record inv env' hruns
  cases hruns
  exact claimed_copy (visible_sound hsound) hstep

theorem tame_actionRecord (hfirm : Firm ctx n P) : Tame ctx n P (exploreQuery n (fun env => do
      let row ← overHarness ctx (actionRecord ctx.project ctx.id action)
      return (row.record, env))) := by
  apply tame_query hfirm
  · intro env s a s' h
    obtain ⟨row, mid, h, hend⟩ := bind_ok.mp h
    cases pure_ok.mp hend
    obtain ⟨harness, _, rfl⟩ := overHarness_ok h
    rfl
  · intro env r s k a s' hp _ hsound h
    obtain ⟨row, mid, h, hend⟩ := bind_ok.mp h
    cases pure_ok.mp hend
    have hkeeps : (actionRecord ctx.project ctx.id action).Keeps ctx n :=
      keeps_still (fun s a s' h => (actionRecord_ok.mp h).2.2.symm)
    obtain ⟨hcommits, harness, rfl, hevolves⟩ := commits_overHarness hkeeps hsound h
    exact ⟨hcommits, hfirm.tables r s harness hevolves hp⟩

theorem tame_embedded (hfirm : Firm ctx n P) (data : RunLocal)
    (hcopy : Copy ⟨ctx.project, ctx.id, action, n⟩ data.action s.harness)
    (hp : P r s) : Ensures (exploreDiscipline ctx) n
      (Program.embed (harnessPart (.runner n)) ModelError.other
        (runAction ctx.sha256 ctx.dump ctx.dumpRequest ⟨ctx.project, ctx.id, action, n⟩) data)
      (fun _ r s => P r s) r s :=
  Ensures.embed (explore_contains (.runner n)) (fun r s s' => hfirm.stable r s s')
    (fun r s harness hcommits => hfirm.tables r s harness hcommits.evolves)
    (ensures_runAction hcopy) (keepsActions_each each_runAction) hp

/-- Running an action keeps what is firm. -/
theorem tame_runOwned (hfirm : Firm ctx n P) : Tame ctx n P (runOwned ctx request n action) where
  keeps := by
    intro r s hp
    apply ensures_bind
    apply ((tame_showInvestigation hfirm).keeps r s hp).mono
    intro inv r s hp
    cases inv with
    | error e => exact hp
    | ok inv =>
      apply ensures_bind
      apply (ensures_claim hfirm hp).mono
      intro claimed r s hclaimed
      cases claimed with
      | error e => exact hclaimed.1
      | ok claimed =>
        obtain ⟨claimed, env⟩ := claimed
        cases claimed with
        | answered record => exact hclaimed.1
        | runs record inv =>
          apply ensures_bind
          apply (tame_embedded hfirm ⟨record, inv⟩ (hclaimed.2 record inv env rfl) hclaimed.1).mono
          intro answer r s hp
          cases answer with
          | error e => exact hp
          | ok _ => exact (tame_actionRecord hfirm).keeps r s hp
  each := by
    refine (tame_showInvestigation hfirm).each.bind fun inv => Each.bind (each_atomically ?_ ?_)
      fun claimed => ?_
    · exact fun _ _ => Or.inl rfl
    · intro env s a s' h
      obtain ⟨_, _, h, hend⟩ := bind_ok.mp (exploreQuery_ok h)
      cases pure_ok.mp hend
      obtain ⟨harness, _, rfl⟩ := overHarness_ok h
      exact Or.inl rfl
    · obtain ⟨claimed, env⟩ := claimed
      cases claimed with
      | answered record => exact each_pure _
      | runs record inv =>
        exact (Each.embed (fun _ _ _ _ => Or.inl rfl) _ _ _).bind fun _ =>
          (tame_actionRecord hfirm).each

end Runs

theorem written_holding {row : ModelRow} {r : ExploreLocal} {deadline : Nat}
    (hcounts : store.Counts n (store.written n deadline row r.state) r.state)
    (hbalanced : r.state.Balanced ctx) (hpinned : r.state.maxGenerations = limit)
    (hrunning : r.state.phase ≠ .terminal)
    (halone : r.state.phase ≠ .requestInflight ∨ (n, r.state.generations) ∈
        reservations (store.written n deadline row r.state).effects) :
    Holding ctx limit n r (store.written n deadline row r.state) where
  balanced := hbalanced
  pinned := hpinned
  running := hrunning
  synced := fun _ => by
    refine ⟨hcounts.length.symm, ?_⟩
    intro m hm ⟨row', g, hrow', hshut, hlast⟩
    cases hrow'
    have hphase : r.state.phase = .requestInflight := by
      rcases hshut with hinflight | hterminal
      · exact hinflight
      · exact absurd hterminal hrunning
    rcases halone with hlanded | hmem
    · exact hlanded hphase
    -- the last reservation is the own one
    rw [← hcounts.length] at hmem
    have hown := hcounts.lawful.last hmem
    rw [hlast] at hown
    exact hm (Prod.mk.inj (Option.some.inj hown)).1

theorem each_persist {state : ModelState} :
    (exploreQuery n (fun env => persist n env.harness.now state)).Each RowRule := by
  apply each_atomically
  · exact fun _ _ => Or.inl rfl
  · intro env s a s' h
    obtain ⟨row, hrow, hrunner, _⟩ := persist_ok (exploreQuery_ok h)
    exact Or.inr ⟨n, rfl, Or.inl ⟨row, hrow, hrunner⟩⟩

theorem each_saveState : (saveState n).Each RowRule :=
  each_get.bind fun _ => each_persist

theorem ensures_saveState {r : ExploreLocal} {s : ExploreStore}
    {Q : Except ModelError Unit → ExploreLocal → ExploreStore → Prop}
    (hclosable : Closable ctx n r s)
    (hok : ∀ s' row deadline, s.Relies ctx n s' → Lawful s'.effects → s'.row = some row →
      row.runner = some n → s'.Counts n (s'.written n deadline row r.state) r.state →
      Q (.ok ()) r (s'.written n deadline row r.state))
    (herror : ∀ e s', s.Relies ctx n s' → Q (.error e) r s') :
    Ensures (exploreDiscipline ctx) n (saveState n) Q r s := by
  apply ensures_bind
  apply ensures_get
  refine ensures_exploreQuery ?_ herror
  intro s' k env a s'' hrelies _ hsound h
  obtain ⟨row, hrow, hrunner, rfl⟩ := persist_ok h
  have hwritable := (firm_closable.stable r s s' hrelies hclosable).writable ⟨row, hrow, hrunner⟩
  have hcounted := hsound.counted row hrow
  exact ⟨commits_written hsound.lawful hcounted hrunner hwritable,
    hok s' row _ hrelies hsound.lawful hrow hrunner
      (written_counts _ hsound.lawful hcounted hwritable)⟩

theorem tame_saveState : Tame ctx n (Landed ctx limit n) (saveState n) where
  keeps := by
    intro r s h
    apply ensures_saveState h.toHolding.closable
    · intro s' row deadline _ _ _ _ hcounts
      exact ⟨written_holding hcounts h.balanced h.pinned h.running (Or.inl h.landed), h.landed⟩
    · exact fun _ s' hrelies => firm_landed.stable r s s' hrelies h
  each := each_saveState

variable {f : ExploreLocal → ExploreLocal}

theorem tame_change (h : ∀ r, (f r).state.account = r.state.account) :
    Tame ctx n (Landed ctx limit n) (modify f : ExploreProgram PUnit) :=
  tame_modify firm_landed h

variable {draft : ActionDraft} {proposal : Proposal}

theorem tame_pinRequest : Tame ctx n (Landed ctx limit n) (pinRequest n proposal draft) := by
  refine tame_get.bind fun l => ?_
  split
  · exact (tame_surroundings firm_landed).bind fun env => Tame.bind (tame_change fun _ => rfl)
      fun _ => tame_saveState.bind fun _ => tame_pure _
  · exact tame_pure _

theorem tame_checkRepeated {digest : Text} :
    Tame ctx n (Landed ctx limit n) (checkRepeated digest) := by
  refine tame_get.bind fun l => ?_
  split
  · exact tame_throw _
  · exact tame_pure _

theorem tame_noteFailure {digest : Text} {action : ActionRecord} :
    Tame ctx n (Landed ctx limit n) (noteFailure digest action) := by
  unfold noteFailure
  split
  · exact tame_change fun _ => rfl
  · exact tame_pure _

theorem tame_noteInventory {env : ExploreInput} :
    Tame ctx n (Landed ctx limit n) (noteInventory env) := by
  refine tame_get.bind fun l => ?_
  split
  · split
    · exact tame_change fun _ => rfl
    · exact tame_pure _
  · exact tame_pure _

theorem tame_analyzeDecision :
    Tame ctx n (Landed ctx limit n) (analyzeDecision ctx request n proposal draft) := by
  refine tame_pinRequest.bind fun draft => tame_checkRepeated.bind fun _ =>
    tame_get.bind fun l => Tame.bind (tame_proposeOwned firm_landed rfl) fun action =>
    (tame_runOwned firm_landed).bind fun outcome => (tame_setFeedback firm_landed _).bind fun _ => ?_
  split
  · exact tame_saveState.bind fun _ => (tame_setResult firm_landed _).bind fun _ => tame_pure _
  · exact tame_noteFailure.bind fun _ => tame_noteInventory.bind fun _ => tame_pure _

theorem tame_except {α : Type} (x : Except String α) :
    Tame ctx n (Landed ctx limit n) (except x) := by
  cases x with
  | ok a => exact tame_pure a
  | error e => exact tame_throw _

theorem tame_except_bind {α β : Type} {x : Except String α} {f : α → ExploreProgram β}
    (h : ∀ a, x = .ok a → Tame ctx n (Landed ctx limit n) (f a)) :
    Tame ctx n (Landed ctx limit n) (except x >>= f) := by
  cases x with
  | ok a => exact h a rfl
  | error e => exact tame_throw (.other e)

theorem tame_changeWork {change : FunctionWork → FunctionWork} :
    Tame ctx n (Landed ctx limit n) (changeWork change) := tame_change fun _ => rfl

variable {plan : FunctionPlan} {decision : Decision} {generation step : Nat}

theorem tame_workflowStep (hasks : decision.Asks ctx generation (.workflow plan.location step)) :
    Tame ctx n (Landed ctx limit n)
      (workflowStep ctx request n generation decision plan step draft) := by
  refine Tame.tryCatch (Tame.bind (tame_proposeOwned firm_landed hasks) fun action =>
    (tame_runOwned firm_landed).bind fun outcome => ?_) fun e => ?_
  · split
    · exact (tame_setFeedback firm_landed _).bind fun _ =>
        (tame_setResult firm_landed _).bind fun _ => tame_saveState.bind fun _ => tame_pure _
    · exact tame_changeWork.bind fun _ => tame_pure _
  · exact tame_changeWork.bind fun _ => tame_saveState.bind fun _ => tame_pure _

variable {acceptance : Bool} {source : EvidencePointer}

/-- A plan has one request for each operation of a function workflow. -/
theorem functionPlan_length (h : functionPlan ctx acceptance source = .ok plan) :
    plan.requests.length = (workflowOperations acceptance).length := by
  unfold functionPlan at h
  cases hpage : ctx.page source with
  | error e =>
    rw [hpage] at h
    cases h
  | ok found =>
    rw [hpage] at h
    cases haddress : hexAddress found.2 with
    | error e =>
      simp only [bind, Except.bind, haddress] at h
      cases h
    | ok value =>
      simp only [bind, Except.bind, haddress] at h
      split at h
      · cases h
      · cases h
        exact List.length_map _

variable {payload : FunctionPayload}

/-- Every step of a plan asks for a request of the decision. -/
theorem asks_step (hplan : functionPlan ctx acceptance source = .ok plan)
    (hpayload : ∀ direct, payload = .direct direct → direct = source)
    (hstep : step < plan.requests.length) :
    (Decision.function acceptance payload).Asks ctx generation (.workflow plan.location step) := by
  refine ⟨source, plan, hplan, rfl, ?_, hpayload⟩
  rwa [← functionPlan_length hplan]

/-- The steps of a workflow keep the account, and leave no request on its way. -/
theorem tame_workflowSteps (hplan : functionPlan ctx acceptance source = .ok plan)
    (hpayload : ∀ direct, payload = .direct direct → direct = source) (more : Nat) :
    Tame ctx n (Landed ctx limit n)
      (workflowSteps ctx request n (.function acceptance payload) plan more) := by
  induction more with
  | zero => exact tame_pure _
  | succ more ih =>
    refine tame_get.bind fun l => (tame_cancelledFlag firm_landed).bind fun cancelled => ?_
    dsimp only
    split
    · exact tame_pure _
    next draft hdraft =>
      split
      · exact tame_pure _
      refine Tame.bind (tame_workflowStep (asks_step hplan hpayload
        (List.getElem?_eq_some_iff.mp hdraft).1)) fun outcome => ?_
      cases outcome with
      | waiting => exact tame_pure _
      | failed => exact tame_pure _
      | done => exact tame_changeWork.bind fun _ => tame_saveState.bind fun _ => ih

theorem tame_beginWork : Tame ctx n (Landed ctx limit n) (beginWork ctx n plan) := by
  refine tame_get.bind fun l => ?_
  split
  · exact tame_throw _
  · exact Tame.bind (tame_change fun _ => rfl) fun _ => tame_ite (tame_throw _) tame_saveState

theorem tame_recoverAutomatically :
    Tame ctx n (Landed ctx limit n) (recoverAutomatically ctx request n acceptance) := by
  refine Tame.tryCatch ((tame_surroundings firm_landed).bind fun env => ?_) fun e => tame_pure _
  split
  · exact (tame_owned firm_landed fun _ _ => keeps_note).bind fun _ =>
      (tame_owned firm_landed fun _ _ => keeps_note).bind fun _ => tame_pure _
  · exact tame_pure _

theorem tame_selectNext {acceptance recovered : Bool} :
    Tame ctx n (Landed ctx limit n) (selectNext ctx n acceptance recovered plan) := by
  refine tame_get.bind fun l => ?_
  split
  · refine (tame_showInvestigation firm_landed).bind fun inv => ?_
    split
    · exact tame_pure _
    refine (tame_except _).bind fun current => (tame_except _).bind fun selected => ?_
    cases selected with
    | some item => exact tame_change fun _ => rfl
    | none => exact tame_pure _
  · exact tame_pure _

theorem tame_closeAssisted {recovered : Bool} :
    Tame ctx n (Landed ctx limit n) (closeAssisted ctx request n recovered) := by
  refine tame_get.bind fun l => ?_
  split
  · refine (tame_surroundings firm_landed).bind fun env => Tame.bind (tame_change fun _ => rfl)
      fun _ => (tame_showInvestigation firm_landed).bind fun inv => ?_
    split
    · exact tame_finishWith firm_landed
    · exact tame_pure _
  · exact tame_pure _

theorem tame_closeWork :
    Tame ctx n (Landed ctx limit n) (closeWork ctx request n acceptance plan) := by
  refine tame_get.bind fun l => ?_
  split
  · exact tame_throw _
  exact (tame_surroundings firm_landed).bind fun env => Tame.bind (tame_change fun _ => rfl)
    fun _ => tame_recoverAutomatically.bind fun recovered =>
    (tame_setFeedback firm_landed _).bind fun _ => tame_selectNext.bind fun _ =>
    tame_closeAssisted

theorem tame_checkWorkBudget :
    Tame ctx n (Landed ctx limit n) (checkWorkBudget ctx request n acceptance plan) := by
  refine tame_get.bind fun l => ?_
  split
  · exact tame_pure _
  refine (tame_showInvestigation firm_landed).bind fun inv => ?_
  by_cases hbudget : functionBudget inv (if acceptance then 6 else 4) = 0
  · rw [if_pos hbudget]
    split
    · exact (tame_finishWith firm_landed).bind fun _ => tame_pure _
    · exact tame_throw _
  · rw [if_neg hbudget]
    exact tame_pure _

theorem tame_performWork (hplan : functionPlan ctx acceptance source = .ok plan)
    (hpayload : ∀ direct, payload = .direct direct → direct = source) :
    Tame ctx n (Landed ctx limit n)
      (performWork ctx request n (.function acceptance payload) acceptance plan) := by
  refine tame_checkWorkBudget.bind fun turn => ?_
  split
  · exact tame_pure _
  refine tame_beginWork.bind fun _ => (tame_workflowSteps hplan hpayload _).bind fun waiting => ?_
  split
  · exact tame_pure _
  · exact tame_closeWork.bind fun _ => tame_pure _

/-- The pointer that is looked up is the one that a decision names. -/
theorem resolve_direct {feedback : Feedback}
    {source direct : EvidencePointer} (h : payload.resolve feedback = .ok source)
    (hdirect : payload = .direct direct) : direct = source := by
  subst hdirect
  exact Except.ok.inj h

theorem tame_functionDecision : Tame ctx n (Landed ctx limit n)
      (functionDecision ctx request n (.function acceptance payload) acceptance payload) := by
  refine tame_get.bind fun l => tame_except_bind fun source hsource => ?_
  split
  · exact tame_throw _
  · refine tame_except_bind fun plan hplan => ?_
    exact tame_performWork hplan (fun direct hdirect => resolve_direct hsource hdirect)

theorem tame_finishDecision {payload : FinishPayload} :
    Tame ctx n (Landed ctx limit n) (finishDecision ctx request n payload) := by
  refine tame_get.bind fun l => ?_
  split
  · exact tame_throw _
  refine (tame_showInvestigation firm_landed).bind fun inv => ?_
  split
  · exact tame_throw _
  cases payload with
  | saved => exact tame_finishWith firm_landed
  | solved => exact (tame_owned firm_landed fun _ _ => keeps_finish).bind fun finished =>
    tame_setResult firm_landed _
  | report status answer claims gaps =>
    dsimp only
    split
    · exact tame_throw _
    · exact (tame_owned firm_landed fun _ _ => keeps_finish).bind fun _ =>
        tame_setResult firm_landed _

theorem tame_prepareGeneral : Tame ctx n (Landed ctx limit n) (prepareGeneral n decision) := by
  refine tame_get.bind fun l => ?_
  split
  · exact (tame_surroundings firm_landed).bind fun env => Tame.bind (tame_change fun _ => rfl)
      fun _ => (tame_surroundings firm_landed).bind fun _ => tame_pure _
  · exact tame_pure _

theorem tame_dispatchDecision :
    Tame ctx n (Landed ctx limit n) (dispatchDecision ctx request n decision) := by
  -- how a decision ends that only notes something
  have hnoted : ∀ env : ExploreInput, Tame ctx n (Landed ctx limit n)
      (setFeedback env.feedback >>= fun _ => pure Turn.go) :=
    fun env => (tame_setFeedback firm_landed _).bind fun _ => tame_pure _
  cases decision with
  | analyze proposal draft => exact tame_analyzeDecision
  | function acceptance payload => exact tame_functionDecision
  | reason text =>
    exact (tame_owned firm_landed fun _ _ => keeps_note).bind fun _ =>
      (tame_surroundings firm_landed).bind hnoted
  | checkpoint board =>
    exact (tame_owned firm_landed fun _ _ => keeps_note).bind fun _ =>
      (tame_surroundings firm_landed).bind hnoted
  | note kind payload =>
    exact (tame_surroundings firm_landed).bind fun env =>
      (tame_setFeedback firm_landed _).bind fun _ => Tame.bind (tame_change fun _ => rfl)
        fun _ => tame_pure _
  | finish payload =>
    exact tame_finishDecision.bind fun _ => (tame_setFeedback firm_landed _).bind
      fun _ => tame_pure _

theorem tame_pendingDecision : Tame ctx n (Landed ctx limit n) (pendingDecision ctx request n) := by
  refine tame_get.bind fun l => ?_
  cases l.state.pending with
  | none => exact tame_throw _
  | some decision =>
    refine tame_prepareGeneral.bind fun prepared => tame_dispatchDecision.bind fun turn => ?_
    split
    · exact tame_pure _
    · exact Tame.bind (tame_change fun _ => rfl) fun _ => tame_pure _

theorem tame_decisionFailed {e : ModelError} :
    Tame ctx n (Landed ctx limit n) (decisionFailed ctx request n e) := by
  refine (tame_setFeedback firm_landed _).bind fun _ => (tame_surroundings firm_landed).bind
    fun _ => Tame.bind (tame_change fun _ => rfl) fun _ => tame_get.bind fun l => ?_
  split
  · exact (tame_finishWith firm_landed).bind fun _ => tame_pure _
  · exact tame_pure _

theorem tame_performDecision : Tame ctx n (Landed ctx limit n) (performDecision ctx request n) :=
  tame_pendingDecision.tryCatch fun _ => tame_decisionFailed

theorem Holding.settled {r r' : ExploreLocal} (h : Holding ctx limit n r store)
    (hgenerations : r'.state.generations = r.state.generations)
    (hmax : r'.state.maxGenerations = r.state.maxGenerations)
    (htokens : r'.state.reservedOutputTokens = r.state.reservedOutputTokens)
    (hduration : r'.state.reservedGenerationMs = r.state.reservedGenerationMs)
    (hphase : r'.state.phase = .ready ∨ r'.state.phase = .responseSaved) :
    Landed ctx limit n r' store where
  balanced := ⟨by rw [hgenerations, hmax]; exact h.balanced.within,
    by rw [hmax]; exact h.balanced.bounded,
    by rw [htokens, hgenerations]; exact h.balanced.tokens,
    by rw [hduration, hgenerations]; exact h.balanced.duration⟩
  pinned := hmax.trans h.pinned
  running := by
    rcases hphase with hready | hsaved
    · simp [hready]
    · simp [hsaved]
  synced := by
    rw [hgenerations]
    exact h.synced
  landed := by
    rcases hphase with hready | hsaved
    · simp [hready]
    · simp [hsaved]

theorem tame_move (h : ∀ r, (f r).state.generations = r.state.generations ∧
      (f r).state.maxGenerations = r.state.maxGenerations ∧
      (f r).state.reservedOutputTokens = r.state.reservedOutputTokens ∧
      (f r).state.reservedGenerationMs = r.state.reservedGenerationMs ∧
      ((f r).state.phase = .ready ∨ (f r).state.phase = .responseSaved)) :
    Tame ctx n (Landed ctx limit n) (modify f : ExploreProgram PUnit) := by
  refine ⟨keeps_modify fun r s hlanded => ?_, each_modify f⟩
  obtain ⟨hgenerations, hmax, htokens, hduration, hphase⟩ := h r
  exact hlanded.toHolding.settled hgenerations hmax htokens hduration hphase

theorem tame_afterDecision : Tame ctx n (Landed ctx limit n) (afterDecision n) := by
  refine (tame_surroundings firm_landed).bind fun env => Tame.bind (tame_move fun r => ?_)
    fun _ => tame_saveState
  refine ⟨rfl, rfl, rfl, rfl, ?_⟩
  cases r.state.nextDecision with
  | none => exact Or.inl rfl
  | some decision => exact Or.inr rfl

theorem tame_checkRetry : Tame ctx n (Landed ctx limit n) (checkRetry n) := by
  refine tame_get.bind fun l => ?_
  cases l.state.retryNotBefore with
  | none => exact tame_pure _
  | some due =>
    refine (tame_clock firm_landed).bind fun now => ?_
    split
    · exact (tame_setResult firm_landed _).bind fun _ => tame_pure _
    · exact Tame.bind (tame_change fun _ => rfl) fun _ => tame_pure _

theorem tame_bootstrap : Tame ctx n (Landed ctx limit n) (bootstrap n) := by
  refine tame_get.bind fun l => ?_
  split
  · exact Tame.bind (tame_move fun r => ⟨rfl, rfl, rfl, rfl, Or.inr rfl⟩) fun _ => tame_saveState
  · exact tame_pure _

end Indago
