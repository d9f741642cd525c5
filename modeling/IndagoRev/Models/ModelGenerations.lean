import IndagoRev.Models.ModelActions

/-!
# Generations

A generation is counted and saved before its request goes out. What the request ends
with decides what becomes of it: only a request that was refused before its transport
gives its generation back.
-/

namespace Indago

open StdText Tables Transactions Interleaving Program

variable {ctx : ExploreContext} {request : ExploreRequest} {store : ExploreStore}
  {limit n k : Nat}

theorem Lawful.number_le {log : List ModelEffect} (h : Lawful log) {m g : Nat}
    (hmem : (m, g) ∈ reservations log) : g ≤ (reservations log).length := by
  have hnumber : g ∈ (reservations log).map Prod.snd := List.mem_map.mpr ⟨(m, g), hmem, rfl⟩
  rw [h.numbers, List.mem_range'_1] at hnumber
  omega

variable {state : ModelState}

/-- A reservation below the limit keeps the counters balanced. -/
theorem ModelState.Balanced.reserve (h : state.Balanced ctx)
    (hless : state.generations < state.maxGenerations) :
    (state.reserve ctx.profile).Balanced ctx := by
  have hbounded := h.bounded
  have hcount : state.generations + 1 ≤ 128 := by omega
  have htokens : ctx.profile.outputTokens * (state.generations + 1) ≤ 16384 * 128 :=
    Nat.mul_le_mul ctx.profile.output_le hcount
  have hduration : ctx.profile.generationMs * (state.generations + 1) ≤ 600000 * 128 :=
    Nat.mul_le_mul ctx.profile.generation_le hcount
  have hsum : ∀ c : Nat, c * state.generations + c = c * (state.generations + 1) :=
    fun c => (Nat.mul_succ c state.generations).symm
  refine ⟨hless, hbounded, ?_, ?_⟩
  · show (state.reservedOutputTokens + ctx.profile.outputTokens) % 2 ^ 32 = _
    rw [h.tokens, hsum]
    exact Nat.mod_eq_of_lt (by omega)
  show add64 state.reservedGenerationMs ctx.profile.generationMs = _
  unfold add64
  rw [h.duration, hsum]
  exact Nat.mod_eq_of_lt (by omega)

theorem ModelState.Balanced.giveBack (h : state.Balanced ctx) :
    (state.giveBack ctx.profile).Balanced ctx := by
  have hwithin := h.within
  refine ⟨?_, h.bounded, ?_, ?_⟩
  · show state.generations - 1 ≤ state.maxGenerations
    omega
  · show state.reservedOutputTokens - ctx.profile.outputTokens = _ * (state.generations - 1)
    rw [h.tokens, Nat.mul_sub_one]
  · show state.reservedGenerationMs - ctx.profile.generationMs = _ * (state.generations - 1)
    rw [h.duration, Nat.mul_sub_one]

/-- What a turn leaves, by how it ends. -/
def TurnEnd (ctx : ExploreContext) (limit n : Nat) (x : Except ModelError Turn) (r : ExploreLocal)
    (s : ExploreStore) : Prop :=
  match x with
  | .ok turn => Holding ctx limit n r s ∧ (turn ≠ .stop → r.state.phase ≠ .requestInflight)
  | .error _ => Closable ctx n r s

variable {r : ExploreLocal}

/-- Where no request is on its way, a turn may end in any way. -/
theorem Landed.turnEnd (h : Landed ctx limit n r store)
    (x : Except ModelError Turn) : TurnEnd ctx limit n x r store := by
  cases x with
  | ok turn => exact ⟨h.toHolding, fun _ => h.landed⟩
  | error e => exact h.toHolding.closable

variable {s : ExploreStore}

theorem Tame.turn {m : ExploreProgram Turn} (h : Tame ctx n (Landed ctx limit n) m)
    (hlanded : Landed ctx limit n r s) :
    Ensures (exploreDiscipline ctx) n m (TurnEnd ctx limit n) r s :=
  (h.keeps r s hlanded).mono fun x _ _ hlanded => hlanded.turnEnd x

/-- An error that is not raised before the transport. -/
def ModelError.After : ModelError → Prop
  | .context _ => False
  | _ => True

theorem raises_exploreQuery {α : Type} {t : ExploreInput → ExploreTx α}
    (h : ∀ env s e, t env s = .error e → e.After) : (exploreQuery n t).Raises ModelError.After := by
  apply raises_atomically
  intro env s e he
  split at he
  · cases he
    exact trivial
  · exact h env s e he

theorem raises_surroundings : (surroundings n).Raises ModelError.After := by
  apply raises_atomically
  intro env s e he
  cases hrefused : env.refused with
  | some message =>
    rw [hrefused] at he
    cases he
    exact trivial
  | none =>
    rw [hrefused] at he
    cases he

theorem raises_cancelledFlag : (cancelledFlag n).Raises ModelError.After := by
  apply raises_atomically
  intro env s e he
  cases he

theorem raises_checkCancelled : (checkCancelled n).Raises ModelError.After := by
  exact raises_cancelledFlag.bind fun _ => raises_ite (raises_throw trivial) (raises_pure _)

theorem persist_error {now : Nat} {e : ModelError}
    (h : persist n now state store = .error e) : e.After := by
  simp only [persist, bind, StateT.bind, Except.bind, get, getThe, MonadStateOf.get, StateT.get,
    pure, Except.pure] at h
  cases hrow : store.row with
  | none =>
    rw [hrow] at h
    cases h
    exact trivial
  | some row =>
    rw [hrow] at h
    dsimp only at h
    split at h
    · cases h
    · cases h
      exact trivial

theorem raises_saveState : (saveState n).Raises ModelError.After :=
  raises_get.bind fun _ => raises_exploreQuery fun _ _ _ he => persist_error he

variable (finishOnly : Bool)

theorem raises_receive (answer : TransportAnswer) :
    (receive finishOnly answer).Raises ModelError.After := by
  cases answer with
  | failed e => exact raises_throw trivial
  | rateLimited ms => exact raises_throw trivial
  | malformed e => exact raises_throw trivial
  | decoded decision elapsed =>
    cases decision with
    | finish payload => exact raises_pure _
    | analyze | function | reason | checkpoint | note =>
      exact raises_ite (raises_throw trivial) (raises_pure _)

variable {P : ExploreLocal → ExploreStore → Prop}

theorem tame_checkCancelled (hfirm : Firm ctx n P) : Tame ctx n P (checkCancelled n) :=
  (tame_cancelledFlag hfirm).bind fun _ => tame_ite (tame_throw _) (tame_pure _)

theorem tame_checkContext (hfirm : Firm ctx n P) : Tame ctx n P (checkContext ctx n) :=
  (tame_surroundings hfirm).bind fun _ => tame_ite (tame_throw _) (tame_pure _)

theorem tame_receive (answer : TransportAnswer) : Tame ctx n P (receive finishOnly answer) := by
  cases answer with
  | failed e => exact tame_throw _
  | rateLimited ms => exact tame_throw _
  | malformed e => exact tame_throw _
  | decoded decision elapsed =>
    cases decision with
    | finish payload => exact tame_pure _
    | analyze | function | reason | checkpoint | note =>
      exact tame_ite (tame_throw _) (tame_pure _)

/-- A ticket lets its request be sent, and the account is kept. -/
theorem ensures_sendRequest (h : Ticket ctx limit n r s) :
    Ensures (exploreDiscipline ctx) n (sendRequest n r.state.generations)
      (fun _ r s => Holding ctx limit n r s) r s := by
  apply ensures_atomically
  intro s' hrelies k _ hsound _
  have hticket := firm_ticket.stable r s s' hrelies h
  refine ⟨trivial, fun env => ⟨fun a s'' hok => ?_, fun e he => by cases he⟩⟩
  simp only [bind_ok, modify_ok, pure_ok] at hok
  obtain ⟨_, _, hsent, hend⟩ := hok
  cases hsent
  cases hend
  refine ⟨commits_sent hticket.reserved hticket.unsent, ?_⟩
  exact
    { balanced := hticket.balanced
      pinned := hticket.pinned
      running := hticket.running
      synced := fun howns => by
        obtain ⟨hcount, halone⟩ := hticket.synced howns
        have hlive : reservations (s'.effects ++ [.sent n r.state.generations]) =
            reservations s'.effects := by simp [ModelEffect.settle]
        refine ⟨by rw [hlive]; exact hcount, ?_⟩
        rintro m hm ⟨row, g, hrow, hshut, hlast⟩
        exact halone m hm ⟨row, g, hrow, hshut, by rwa [hlive] at hlast⟩ }

/-- What the runner knows once a request has ended. -/
def RequestEnd (ctx : ExploreContext) (limit n : Nat) {α : Type} (x : Except ModelError α)
    (r : ExploreLocal) (s : ExploreStore) : Prop :=
  Holding ctx limit n r s ∧ ∀ e, x = .error e → ¬ e.After → Ticket ctx limit n r s

/-- What follows the transport. -/
def afterTransport (n : Nat) (finishOnly : Bool) (answer : TransportAnswer) :
    ExploreProgram (Decision × Nat) :=
  match answer with
  | .failed _ | .rateLimited _ => receive false answer
  | _ => do
    checkCancelled n
    receive finishOnly answer

variable {finishOnly : Bool} (answer : TransportAnswer)

theorem tame_afterTransport :
    Tame ctx n (Holding ctx limit n) (afterTransport n finishOnly answer) := by
  cases answer with
  | failed e => exact tame_receive false (.failed e)
  | rateLimited ms => exact tame_receive false (.rateLimited ms)
  | malformed e =>
    exact (tame_checkCancelled firm_holding).bind fun _ => tame_receive finishOnly (.malformed e)
  | decoded decision elapsed =>
    exact (tame_checkCancelled firm_holding).bind fun _ => tame_receive finishOnly (.decoded decision elapsed)

theorem raises_afterTransport : (afterTransport n finishOnly answer).Raises ModelError.After := by
  cases answer with
  | failed e => exact raises_receive false (.failed e)
  | rateLimited ms => exact raises_receive false (.rateLimited ms)
  | malformed e =>
    exact raises_checkCancelled.bind fun _ => raises_receive finishOnly (.malformed e)
  | decoded decision elapsed =>
    exact raises_checkCancelled.bind fun _ => raises_receive finishOnly (.decoded decision elapsed)

theorem ensures_transport (h : Ticket ctx limit n r s) : Ensures (exploreDiscipline ctx) n
      (sendRequest n r.state.generations >>= afterTransport n finishOnly)
      (RequestEnd ctx limit n) r s := by
  have hraises : (sendRequest n r.state.generations >>= afterTransport n finishOnly).Raises
      ModelError.After := by
    refine Raises.bind (raises_atomically ?_) raises_afterTransport
    intro env s e he
    cases he
  have hholds : Ensures (exploreDiscipline ctx) n
      (sendRequest n r.state.generations >>= afterTransport n finishOnly)
      (fun _ r s => Holding ctx limit n r s) r s := by
    apply ensures_bind
    apply (ensures_sendRequest h).mono
    intro answer r s hholding
    cases answer with
    | error e => exact hholding
    | ok answer => exact (tame_afterTransport answer).keeps r s hholding
  exact (hholds.raises hraises).mono fun _ _ _ hend =>
    ⟨hend.1, fun e he hafter => absurd (hend.2 e he) hafter⟩

theorem ensures_modelComplete (h : Ticket ctx limit n r s) :
    Ensures (exploreDiscipline ctx) n (modelComplete ctx n) (RequestEnd ctx limit n) r s := by
  apply ensures_bind
  apply ((tame_checkCancelled firm_ticket).keeps r s h).mono
  intro cancelled r s h
  cases cancelled with
  | error e => exact ⟨h.toHolding, fun _ _ _ => h⟩
  | ok _ =>
    apply ensures_bind
    apply ((tame_checkContext firm_ticket).keeps r s h).mono
    intro checked r s h
    cases checked with
    | error e => exact ⟨h.toHolding, fun _ _ _ => h⟩
    | ok _ =>
      apply ensures_bind
      apply ensures_get
      exact ensures_transport h

/-- What follows the answer: the decision is saved. -/
def saveDecision (n : Nat) (response : Decision × Nat) : ExploreProgram Turn := do
  modify (fun l => { l with state := { l.state with
    pending := some response.1, elapsedMs := add64 l.state.elapsedMs response.2 } })
  let _ ← surroundings n
  setPhase .responseSaved
  saveState n
  return .go

theorem raises_saveDecision (response : Decision × Nat) :
    (saveDecision n response).Raises ModelError.After :=
  (raises_modify _).bind fun _ => raises_surroundings.bind fun _ =>
    (raises_modify _).bind fun _ => raises_saveState.bind fun _ => raises_pure _

/-- A generation whose decision is saved has landed. -/
theorem ensures_saveDecision {response : Decision × Nat} (h : Holding ctx limit n r s) :
    Ensures (exploreDiscipline ctx) n (saveDecision n response) (fun x r s =>
      Holding ctx limit n r s ∧ ∀ turn, x = .ok turn → turn = .go ∧ Landed ctx limit n r s) r s := by
  apply ensures_bind
  apply ensures_modify
  have hpending : Holding ctx limit n { r with state := { r.state with
      pending := some response.1, elapsedMs := add64 r.state.elapsedMs response.2 } } s :=
    h.account rfl
  apply ensures_bind
  apply ((tame_surroundings firm_holding).keeps _ s hpending).mono
  intro looked r s hholding
  cases looked with
  | error e => exact ⟨hholding, fun _ hok => by cases hok⟩
  | ok _ =>
    apply ensures_bind
    apply ensures_modify
    have hlanded : Landed ctx limit n { r with state := { r.state with
        phase := .responseSaved } } s := hholding.settled rfl rfl rfl rfl (Or.inr rfl)
    apply ensures_bind
    apply (tame_saveState.keeps _ s hlanded).mono
    intro saved r s hlanded
    cases saved with
    | error e => exact ⟨hlanded.toHolding, fun _ hok => by cases hok⟩
    | ok _ =>
      refine ⟨hlanded.toHolding, fun turn hok => ?_⟩
      cases hok
      exact ⟨rfl, hlanded⟩

/-- A request that ends with a decision leaves it saved, and one that was refused
before its transport leaves its ticket. -/
theorem ensures_requestDecision (h : Ticket ctx limit n r s) :
    Ensures (exploreDiscipline ctx) n (requestDecision ctx n) (fun x r s =>
      RequestEnd ctx limit n x r s ∧ ∀ turn, x = .ok turn → turn = .go ∧ Landed ctx limit n r s)
      r s := by
  apply ensures_bind
  apply (ensures_modelComplete h).mono
  intro response r s hend
  cases response with
  | error e =>
    refine ⟨⟨hend.1, fun e' he' => hend.2 e' ?_⟩, fun _ hok => by cases hok⟩
    cases he'
    rfl
  | ok response =>
    apply ((ensures_saveDecision hend.1).raises (raises_saveDecision response)).mono
    intro x r s ⟨⟨hholding, hok⟩, hafter⟩
    exact ⟨⟨hholding, fun e he hbefore => absurd (hafter e he) hbefore⟩, hok⟩

variable {compaction : Nat}

/-- A request that was not sent can be given back. -/
theorem Ticket.refund (h : Ticket ctx limit n r store) : Closable ctx n { r with state :=
      { r.state.giveBack ctx.profile with compaction := compaction } } store := by
  refine ⟨fun howns => ?_⟩
  obtain ⟨hcount, halone⟩ := h.synced howns
  have hpos : 0 < (reservations store.effects).length := List.length_pos_of_mem h.reserved
  refine ⟨Or.inr (Or.inr ⟨?_, ?_, ?_⟩), ?_, fun hphase => (by cases hphase),
    fun m hm hlocked => absurd hlocked (halone m hm)⟩
  · show r.state.generations - 1 + 1 = _
    omega
  · rw [← hcount]
    exact h.reserved
  · rw [← hcount]
    exact h.unsent
  · exact ⟨h.balanced.giveBack.within, h.balanced.giveBack.bounded, h.balanced.giveBack.tokens,
      h.balanced.giveBack.duration⟩

theorem ensures_contextFailed (h : Ticket ctx limit n r s) :
    Ensures (exploreDiscipline ctx) n (contextFailed ctx request n compaction)
      (TurnEnd ctx limit n) r s := by
  apply ensures_bind
  apply ensures_modify
  apply ensures_bind
  apply ensures_saveState h.refund
  · intro s' row deadline _ _ _ _ hcounts
    have hlanded : Landed ctx limit n _ (s'.written n deadline row
        { r.state.giveBack ctx.profile with compaction := compaction + 1 }) :=
      ⟨written_holding (r := { r with state :=
        { r.state.giveBack ctx.profile with compaction := compaction + 1 } }) hcounts
        ⟨h.balanced.giveBack.within, h.balanced.giveBack.bounded, h.balanced.giveBack.tokens,
          h.balanced.giveBack.duration⟩ h.pinned nofun (Or.inl nofun), nofun⟩
    exact (tame_ite ((tame_finishWith firm_landed).bind fun _ => tame_pure _) (tame_pure _)).turn
      hlanded
  · intro e s' hrelies
    exact firm_closable.stable _ s s' hrelies h.refund

theorem ensures_rateLimited {retryAfterMs : Nat} (h : Holding ctx limit n r s) :
    Ensures (exploreDiscipline ctx) n (rateLimited n retryAfterMs) (TurnEnd ctx limit n) r s := by
  apply ensures_bind
  apply ensures_modify
  have hlanded : Landed ctx limit n { r with state := { r.state with phase := .ready } } s :=
    h.settled rfl rfl rfl rfl (Or.inl rfl)
  refine Tame.turn ((tame_clock firm_landed).bind fun now => ?_) hlanded
  exact Tame.bind (tame_change fun _ => rfl) fun _ => tame_saveState.bind fun _ =>
    (tame_setResult firm_landed _).bind fun _ => tame_pure _

variable {message : String}

theorem ensures_transportFailed (h : Holding ctx limit n r s) :
    Ensures (exploreDiscipline ctx) n (transportFailed ctx request n message)
      (TurnEnd ctx limit n) r s := by
  apply ensures_bind
  apply ((tame_cancelledFlag firm_holding).keeps r s h).mono
  intro cancelled r s h
  cases cancelled with
  | error e => exact h.closable
  | ok cancelled =>
    dsimp only
    split
    · exact ⟨h, fun hstop => absurd rfl hstop⟩
    apply ensures_bind
    apply ensures_modify
    have hlanded : Landed ctx limit n { r with state := { r.state with phase := .ready } } s :=
      h.settled rfl rfl rfl rfl (Or.inl rfl)
    exact (tame_saveState.bind fun _ => (tame_finishWith firm_landed).bind fun _ =>
      tame_pure _).turn hlanded

theorem ensures_responseFailed (h : Holding ctx limit n r s) :
    Ensures (exploreDiscipline ctx) n (responseFailed ctx request n message)
      (TurnEnd ctx limit n) r s := by
  apply ensures_bind
  apply ((tame_cancelledFlag firm_holding).keeps r s h).mono
  intro cancelled r s h
  cases cancelled with
  | error e => exact h.closable
  | ok cancelled =>
    dsimp only
    split
    · exact ⟨h, fun hstop => absurd rfl hstop⟩
    apply ensures_bind
    apply ensures_modify
    have hlanded : Landed ctx limit n { r with state := { r.state with
        phase := .ready, repairs := r.state.repairs + 1,
        feedback := ⟨[], some (clip 1024 message), none⟩ } } s :=
      h.settled rfl rfl rfl rfl (Or.inl rfl)
    exact (tame_saveState.bind fun _ => tame_get.bind fun l => tame_ite
      ((tame_finishWith firm_landed).bind fun _ => tame_pure _) (tame_pure _)).turn hlanded

theorem ensures_requestFailed {e : ModelError} (h : Holding ctx limit n r s)
    (hticket : ¬ e.After → Ticket ctx limit n r s) :
    Ensures (exploreDiscipline ctx) n (requestFailed ctx request n compaction e)
      (TurnEnd ctx limit n) r s := by
  cases e with
  | context message => exact ensures_contextFailed (hticket id)
  | rateLimit ms => exact ensures_rateLimited h
  | transport message => exact ensures_transportFailed h
  | other message => exact ensures_responseFailed h

theorem Landed.reserving (h : Landed ctx limit n r store) (hless : r.state.generations < limit) :
    Closable ctx n { r with state := r.state.reserve ctx.profile } store := by
  refine ⟨fun howns => ?_⟩
  obtain ⟨hcount, halone⟩ := h.synced howns
  refine ⟨Or.inr (Or.inl (congrArg (· + 1) hcount)), ?_, fun hphase => (by cases hphase),
    fun m hm hlocked => absurd hlocked (halone m hm)⟩
  exact h.balanced.reserve (by rw [h.pinned]; exact hless)

theorem ensures_reserved (h : Landed ctx limit n r s) (hless : r.state.generations < limit) :
    Ensures (exploreDiscipline ctx) n (saveState n) (fun x r s => match x with
      | .ok _ => Ticket ctx limit n r s
      | .error _ => Closable ctx n r s) { r with state := r.state.reserve ctx.profile } s := by
  apply ensures_saveState (h.reserving hless)
  · intro s' row deadline hrelies hlawful hrow hrunner hcounts
    have howns : s'.Owns n := ⟨row, hrow, hrunner⟩
    have hcount := ((h.toHolding.stable hrelies).synced howns).1
    have hnumber : (r.state.reserve ctx.profile).generations =
        (reservations s'.effects).length + 1 := congrArg (· + 1) hcount
    have hmem := hcounts.reserved hnumber
    have hholding : Holding ctx limit n { r with state := r.state.reserve ctx.profile }
        (s'.written n deadline row (r.state.reserve ctx.profile)) :=
      written_holding hcounts (h.balanced.reserve (by rw [h.pinned]; exact hless)) h.pinned
        nofun (Or.inr hmem)
    refine ⟨hholding, hmem, ?_⟩
    rw [hcounts.sent]
    intro hsent
    have hold := hlawful.number_le (hlawful.transports.1 _ hsent)
    simp only at hold
    omega
  · exact fun e s' hrelies => firm_closable.stable _ s s' hrelies (h.reserving hless)

/-- Whatever the provider answers, what a generation leaves fits its end. -/
theorem ensures_generateDecision (h : Landed ctx limit n r s) :
    Ensures (exploreDiscipline ctx) n (generateDecision ctx request n limit)
      (TurnEnd ctx limit n) r s := by
  apply ensures_bind
  apply ensures_get
  dsimp only
  by_cases hsaved : r.state.phase = .responseSaved
  · rw [if_pos hsaved]
    exact ⟨h.toHolding, fun _ => h.landed⟩
  rw [if_neg hsaved]
  by_cases hspent : limit ≤ r.state.generations
  · rw [if_pos hspent]
    exact ((tame_finishWith firm_landed).bind fun _ => tame_pure _).turn h
  rw [if_neg hspent]
  apply ensures_bind
  apply ((tame_surroundings (firm_landed.fixed r.state.account)).keeps r s ⟨h, rfl⟩).mono
  rintro looked r' s ⟨h, haccount⟩
  have hless : r'.state.generations < limit := by
    simp only [ModelState.account, Prod.mk.injEq] at haccount
    omega
  cases looked with
  | error e => exact h.toHolding.closable
  | ok _ =>
    apply ensures_bind
    apply ensures_modify
    apply ensures_bind
    apply (ensures_reserved h hless).mono
    intro saved r s hsaved
    cases saved with
    | error e => exact hsaved
    | ok _ =>
      apply ensures_tryCatch
      apply (ensures_requestDecision hsaved).mono
      rintro x r s ⟨hend, hok⟩
      cases x with
      | ok turn =>
        obtain ⟨rfl, hlanded⟩ := hok turn rfl
        exact hlanded.turnEnd _
      | error e => exact ensures_requestFailed hend.1 (hend.2 e rfl)

end Indago
