import IndagoRev.Runtime.RuntimeRequests

/-!
# Every run of the runtime

Workers and clients are safe under the discipline, whatever the clock, the
debugger and the other processes do.
-/

namespace Indago

open StdText Tables Transactions Interleaving Program List

variable {n k : Nat} {id q : Text} {guarded : Bool}

section Rules

variable {ρ α : Type}

/-- A statement is committed, or refused and leaves the tables. -/
theorem ensures_statement {label : RuntimeLabel} {t : RuntimeInput → RuntimeTx α}
    {post : Except String α → ρ → RuntimeStore → Prop} {l : ρ} {store : RuntimeStore}
    (h : ∀ store', RuntimeStore.Relies n store store' → ∀ k, n < k → store'.Sound k →
      (runtimeDiscipline guarded).meets n label store' →
        (∀ e, post (.error e) l store') ∧ ∀ env a store'', t env store' = .ok (a, store'') →
          (runtimeDiscipline guarded).Commits n store' store'' ∧ post (.ok a) l store'') :
    Ensures (runtimeDiscipline guarded) n (statement label t) post l store := by
  apply ensures_atomically
  intro store' hrely k hk hinv hmeets
  obtain ⟨herror, hok⟩ := h store' hrely k hk hinv hmeets
  refine ⟨trivial, fun env => ⟨?_, fun e _ => herror e⟩⟩
  intro a store'' ht
  split at ht
  · exact absurd ht throw_ok
  · exact hok env a store'' ht

/-- A condition that others keep, on a program that still owns its record. -/
def Held (Q : RuntimeStore → Prop) (l : WorkerLocal) (store : RuntimeStore) : Prop :=
  l.session.workerPid.isSome = true ∧ Q store

theorem Held.mono {Q Q' : RuntimeStore → Prop} {l l' : WorkerLocal}
    {store store' : RuntimeStore} (h : Held Q l store)
    (hpid : l'.session.workerPid = l.session.workerPid) (himp : Q store → Q' store') :
    Held Q' l' store' :=
  ⟨by rw [hpid]; exact h.1, himp h.2⟩

/-- What others keep for process `n`. -/
def Stable (n : Nat) (Q : RuntimeStore → Prop) : Prop :=
  ∀ store store', RuntimeStore.Relies n store store' → Q store → Q store'

theorem Stable.held {Q : RuntimeStore → Prop} (hQ : Stable n Q) (l : WorkerLocal)
    (store store' : RuntimeStore) (hrely : RuntimeStore.Relies n store store')
    (h : Held Q l store) : Held Q l store' :=
  h.mono rfl (hQ store store' hrely)

theorem relies_sessions (store : RuntimeStore) (sessions : List SessionRow) :
    RuntimeStore.Relies n store { store with sessions := sessions } :=
  fun _ hid => ⟨hid, ⟨[], (append_nil _).symm, nofun⟩, rfl, rfl⟩

end Rules

section Worker

variable {Q : RuntimeStore → Prop}

theorem keeps_backend (hQ : Stable n Q) : Keeps (runtimeDiscipline guarded) n (Held Q) backend := by
  apply keeps_atomically hQ.held (fun _ => trivial)
  intro l store k env a store' hheld _ _ h
  cases henv : env.error with
  | some e =>
    simp only [henv] at h
    exact absurd h throw_ok
  | none =>
    simp only [henv, pure_ok] at h
    cases h
    exact ⟨.refl _ n store, hheld⟩

theorem keeps_setState (state : SessionState) :
    Keeps (runtimeDiscipline guarded) n (Held Q) (setState state) :=
  keeps_modify (fun _ _ h => h)

theorem keeps_setFields (fields : Text) :
    Keeps (runtimeDiscipline guarded) n (Held Q) (setFields fields) :=
  keeps_modify (fun _ _ h => h)

/-- A worker that saves its session never makes it look unclaimed. -/
theorem keeps_saveWorker (hQ : Stable n Q) :
    Keeps (runtimeDiscipline guarded) n (Held Q) saveWorker := by
  intro l store hheld
  unfold saveWorker
  apply ensures_bind
  apply ensures_get
  apply ensures_bind
  apply ensures_statement
  intro store' hrely k _ _ _
  have hheld' : Held Q l store' := hQ.held l store store' hrely hheld
  refine ⟨fun _ => hheld', ?_⟩
  intro env now store'' h
  obtain ⟨_, middle, hsave, h⟩ := bind_ok.mp h
  cases pure_ok.mp h
  refine ⟨commits_saveSession ?_ hsave, ?_⟩
  · have hpid : l.session.workerPid.isNone = false := by
      rw [Option.isNone_eq_false_iff]
      exact hheld.1
    simp [SessionRecord.unclaimed, hpid]
  apply ensures_modify
  simp only [saveSession, modify_ok] at hsave
  cases hsave
  exact hheld'.mono rfl (hQ _ _ (relies_sessions store' _))

theorem keeps_noteEvent (hQ : Stable n Q) (env : RuntimeInput) :
    Keeps (runtimeDiscipline guarded) n (Held Q) (noteEvent env) := by
  unfold noteEvent
  split
  · apply keeps_get.bind
    intro l
    apply (keeps_setFields env.fields).bind
    intro _
    exact (keeps_setState _).bind (fun _ => keeps_saveWorker hQ)
  · exact keeps_pure _

theorem keeps_poll (hQ : Stable n Q) : Keeps (runtimeDiscipline guarded) n (Held Q) poll := by
  unfold poll
  apply (keeps_backend hQ).bind
  intro env
  exact (keeps_noteEvent hQ env).bind (fun _ => keeps_pure env)

theorem keeps_pollUntilStopped (hQ : Stable n Q) (rounds : Nat) :
    Keeps (runtimeDiscipline guarded) n (Held Q) (pollUntilStopped rounds) := by
  induction rounds with
  | zero => exact keeps_poll hQ
  | succ rounds ih =>
    rw [pollUntilStopped]
    apply (keeps_poll hQ).bind
    intro env
    split
    · exact ih
    · exact keeps_pure env

theorem keeps_pauseTarget (hQ : Stable n Q) (rounds : Nat) :
    Keeps (runtimeDiscipline guarded) n (Held Q) (pauseTarget rounds) := by
  unfold pauseTarget
  apply (keeps_backend hQ).bind
  intro env
  split
  · apply (keeps_pollUntilStopped hQ rounds).bind
    intro env
    split
    · exact keeps_throw _
    · exact keeps_pure _
  · exact keeps_pure _

theorem keeps_applyOperation (hQ : Stable n Q) (rounds : Nat) (operation : RequestOperation) :
    Keeps (runtimeDiscipline guarded) n (Held Q) (applyOperation rounds operation) := by
  have hresumed : Keeps (runtimeDiscipline guarded) n (Held Q) (do
      setState .running
      let _ ← pollUntilStopped rounds
      pauseTarget rounds) := by
    apply (keeps_setState .running).bind
    intro _
    exact (keeps_pollUntilStopped hQ rounds).bind (fun _ => keeps_pauseTarget hQ rounds)
  cases operation with
  | inspect => exact keeps_pure _
  | pause => exact keeps_pauseTarget hQ rounds
  | resume wait =>
    cases wait with
    | false => exact keeps_setState .running
    | true => exact hresumed
  | trace => exact hresumed
  | finish terminate =>
    apply (keeps_pauseTarget hQ rounds).bind
    intro _
    refine Keeps.bind (keeps_modify ?_) (fun _ => keeps_setState _)
    exact fun _ _ h => h

theorem keeps_performOperation (hQ : Stable n Q) (rounds : Nat) (operation : RequestOperation) :
    Keeps (runtimeDiscipline guarded) n (Held Q) (performOperation rounds operation) := by
  unfold performOperation
  apply (keeps_applyOperation hQ rounds operation).bind
  intro _
  apply (keeps_backend hQ).bind
  intro env
  exact (keeps_setFields env.fields).bind (fun _ => keeps_pure _)

theorem keeps_beat (hQ : Stable n Q) (now : Nat) :
    Keeps (runtimeDiscipline guarded) n (Held Q) (beat now) := by
  unfold beat
  apply keeps_get.bind
  intro l
  split
  · exact keeps_saveWorker hQ
  · exact keeps_pure _

theorem keeps_expire (hQ : Stable n Q) (rounds : Nat) :
    Keeps (runtimeDiscipline guarded) n (Held Q) (expire rounds) := by
  unfold expire
  apply (keeps_pauseTarget hQ rounds).bind
  intro _
  apply keeps_get.bind
  intro l
  exact (keeps_setState _).bind (fun _ => keeps_saveWorker hQ)

theorem keeps_firstStop (hQ : Stable n Q) (rounds : Nat) :
    Keeps (runtimeDiscipline guarded) n (Held Q) (firstStop rounds) := by
  unfold firstStop
  apply (keeps_backend hQ).bind
  intro env
  apply (keeps_setFields env.fields).bind
  intro _
  apply (keeps_pollUntilStopped hQ rounds).bind
  intro env
  split
  · exact keeps_throw _
  · refine Keeps.bind (keeps_modify ?_) ?_
    · exact fun _ _ h => h
    · exact fun _ => (keeps_setState _).bind (fun _ => keeps_saveWorker hQ)

theorem keeps_closeSession (hQ : Stable n Q) :
    Keeps (runtimeDiscipline guarded) n (Held Q) closeSession := by
  unfold closeSession
  apply keeps_get.bind
  intro l
  exact (keeps_setState _).bind (fun _ => keeps_saveWorker hQ)

theorem keeps_collect (hQ : Stable n Q) (rounds : Nat) :
    Keeps (runtimeDiscipline guarded) n (Held Q) (collect rounds) := by
  induction rounds with
  | zero => exact keeps_pure _
  | succ rounds ih =>
    rw [collect]
    apply (keeps_backend hQ).bind
    intro env
    apply (keeps_setFields env.fields).bind
    intro _
    apply (keeps_noteEvent hQ env).bind
    intro _
    split
    · exact ih
    · exact keeps_pure _

theorem keeps_collectWorker (hQ : Stable n Q) (rounds : Nat) :
    Keeps (runtimeDiscipline guarded) n (Held Q) (collectWorker rounds) := by
  unfold collectWorker
  apply Keeps.tryCatch
  · apply (keeps_setState _).bind
    intro _
    apply (keeps_saveWorker hQ).bind
    intro _
    apply (keeps_collect hQ rounds).bind
    intro _
    apply (keeps_backend hQ).bind
    intro env
    exact (keeps_setState _).bind (fun _ => keeps_saveWorker hQ)
  · intro _
    exact (keeps_setState _).bind (fun _ => keeps_saveWorker hQ)

end Worker

section Queue

variable {l : WorkerLocal} {store : RuntimeStore} {rounds : Nat}

/-- The worker claimed the session. -/
def Drives (n : Nat) (id : Text) (store : RuntimeStore) : Prop := n ∈ store.claims id

theorem drives_stable : Stable n (Drives n id) := fun _ _ hrely h => (hrely id h).claims

theorem ready_stable : Stable n (Ready n id) := fun _ _ hrely h => h.stable hrely

theorem ran_stable : Stable n (Ran n id q) := fun _ _ hrely h => h.stable hrely

theorem selected_stable {r : RequestRow} : Stable n (Selected n id r) :=
  fun _ _ hrely h => h.stable hrely

theorem marked_stable : Stable n (Marked n id q) := fun _ _ hrely h => h.stable hrely

/-- The worker still owns the session, and answered all it took where it did not
throw. -/
def Served {α : Type} (n : Nat) (id : Text) (x : Except String α) (l : WorkerLocal)
    (store : RuntimeStore) : Prop :=
  match x with
  | .ok _ => Held (Ready n id) l store
  | .error _ => Held (Drives n id) l store

theorem ensures_handleRequest {request : RequestRow} (h : Held (Selected n id request) l store) :
    Ensures (runtimeDiscipline guarded) n (handleRequest n rounds request) (Served n id) l store := by
  unfold handleRequest
  have hsession : request.session = id := h.2.mem.2
  rw [hsession]
  apply ensures_bind
  apply ensures_statement
  intro store' hrely k _ hsound _
  have hselected := selected_stable.held l store store' hrely h
  refine ⟨fun _ => hselected.mono rfl (fun h => h.owner), ?_⟩
  intro env a marked hmark
  obtain ⟨hcommits, hmarked⟩ := commits_markRunning guarded hselected.2 hmark hsound
  have hheld : Held (Marked n id request.id) l marked := hselected.mono rfl (fun _ => hmarked)
  refine ⟨hcommits, ?_⟩
  apply ensures_bind
  have hrun : Ensures (runtimeDiscipline guarded) n (tryCatch (do
        Program.atomically .access (fun _ => executeRequest n id request.id)
        performOperation rounds request.request)
      (fun e => return e.toList))
      (fun x l store => ∃ response, x = .ok response ∧ Held (Ran n id request.id) l store)
      l marked := by
    apply ensures_tryCatch
    apply ensures_bind
    apply ensures_atomically
    intro store' hrely k _ hsound _
    have hmarked := marked_stable.held l marked store' hrely hheld
    refine ⟨trivial, fun env => ⟨?_, fun e he => by cases he⟩⟩
    intro a ran hexecute
    obtain ⟨hcommits, hran⟩ := commits_executeRequest guarded hmarked.2 hexecute hsound
    refine ⟨hcommits, ?_⟩
    apply (keeps_performOperation ran_stable rounds request.request l ran
      (hmarked.mono rfl (fun _ => hran))).mono
    intro x l store hheld
    cases x with
    | ok response => exact ⟨response, rfl, hheld⟩
    | error e => exact ⟨e.toList, rfl, hheld⟩
  apply hrun.mono
  rintro x l store ⟨response, rfl, hran⟩
  apply ensures_bind
  apply (keeps_saveWorker ran_stable l store hran).mono
  intro x l store hran
  cases x with
  | error e => exact hran.mono rfl (fun h => h.owner)
  | ok _ =>
    apply ensures_statement
    intro store' hrely k _ hsound _
    have hran := ran_stable.held l store store' hrely hran
    refine ⟨fun _ => hran.mono rfl (fun h => h.owner), ?_⟩
    intro env a store'' hfinish
    obtain ⟨hcommits, hready⟩ := commits_finishRequest guarded hran.2 hfinish hsound
    exact ⟨hcommits, hran.mono rfl (fun _ => hready)⟩

theorem ensures_keeping {α β : Type} {m : WorkerProgram α} {f : α → WorkerProgram β}
    (hm : Keeps (runtimeDiscipline guarded) n (Held (Ready n id)) m)
    (hf : ∀ a l store, Held (Ready n id) l store →
      Ensures (runtimeDiscipline guarded) n (f a) (Served n id) l store)
    (h : Held (Ready n id) l store) :
    Ensures (runtimeDiscipline guarded) n (m >>= f) (Served n id) l store := by
  apply ensures_bind
  apply (hm l store h).mono
  intro x l store h
  cases x with
  | ok a => exact hf a l store h
  | error e => exact h.mono rfl (fun h => h.owner)

theorem Keeps.served {α : Type} {m : WorkerProgram α}
    (hm : Keeps (runtimeDiscipline guarded) n (Held (Ready n id)) m)
    (h : Held (Ready n id) l store) :
    Ensures (runtimeDiscipline guarded) n m (Served n id) l store := by
  apply (hm l store h).mono
  intro x l store h
  cases x with
  | ok a => exact h
  | error e => exact h.mono rfl (fun h => h.owner)

/-- The loop over the queue, by induction on the rounds that are left. -/
theorem ensures_serveRequests (more : Nat) (h : Held (Ready n id) l store) :
    Ensures (runtimeDiscipline guarded) n (serveRequests n rounds id more) (Served n id) l
      store := by
  induction more generalizing l store with
  | zero => exact h
  | succ more ih =>
    rw [serveRequests]
    apply ensures_keeping (keeps_backend ready_stable) _ h
    intro env l store h
    apply ensures_keeping keeps_get _ h
    intro current l store h
    split
    · apply ensures_keeping (keeps_poll ready_stable) _ h
      intro env l store h
      apply ensures_keeping (keeps_beat ready_stable env.now) _ h
      intro _ l store h
      split
      · exact Keeps.served (keeps_expire ready_stable rounds) h
      apply ensures_bind
      apply ensures_statement
      intro store' hrely k _ _ _
      have hready := ready_stable.held l store store' hrely h
      refine ⟨fun _ => hready.mono rfl (fun h => h.owner), ?_⟩
      intro env queue store'' hnext
      obtain ⟨rfl, hfirst⟩ := nextRequest_ok hnext
      refine ⟨.refl _ n store'', ?_⟩
      cases queue with
      | none => exact ih hready
      | some request =>
        obtain ⟨_, hqueued, _, hsplit⟩ := hfirst request rfl
        have hselected : Held (Selected n id request) l store'' :=
          hready.mono rfl (fun h => ⟨h, hqueued, hsplit⟩)
        apply ensures_bind
        apply (ensures_handleRequest hselected).mono
        intro x l store hserved
        cases x with
        | ok _ => exact ih hserved
        | error e => exact hserved
    · exact h

theorem ensures_debugWorker (h : Held (Ready n id) l store) :
    Ensures (runtimeDiscipline guarded) n (debugWorker n rounds id)
      (fun _ l store => Held (Drives n id) l store) l store := by
  unfold debugWorker
  apply ensures_tryCatch
  have hbody : Ensures (runtimeDiscipline guarded) n (do
        firstStop rounds
        serveRequests n rounds id rounds
        closeSession) (Served n id) l store := by
    apply ensures_keeping (keeps_firstStop ready_stable rounds) _ h
    intro _ l store h
    apply ensures_bind
    apply (ensures_serveRequests rounds h).mono
    intro x l store hserved
    cases x with
    | ok _ => exact Keeps.served (keeps_closeSession ready_stable) hserved
    | error e => exact hserved
  apply hbody.mono
  intro x l store hserved
  cases x with
  | ok _ => exact Held.mono hserved rfl (fun h => h.owner)
  | error e =>
    have hhandle : Keeps (runtimeDiscipline guarded) n (Held (Drives n id)) (do
        setState .failed
        tryCatch (pauseTarget rounds) (fun _ => return ())
        saveWorker) := by
      apply (keeps_setState _).bind
      intro _
      apply Keeps.bind
      · exact (keeps_pauseTarget drives_stable rounds).tryCatch (fun _ => keeps_pure _)
      · exact fun _ => keeps_saveWorker drives_stable
    exact hhandle l store hserved

end Queue

section Start

variable {l : WorkerLocal} {store : RuntimeStore} {rounds pid : Nat}

/-- A worker that won the claim starts with an empty record of requests. -/
theorem withClaim_ready (claimed : SessionRecord) {r : SessionRow} (hsound : store.Sound k)
    (hrow : row SessionRow.id id store.sessions = some r) (hunclaimed : r.record.unclaimed = true) :
    Ready n id (store.withClaim n id claimed) := by
  have hclaims : store.claims id = [] := by
    have hnone := hsound.claimed r (row_some_mem hrow) hunclaimed
    rwa [row_some_key hrow] at hnone
  have htaken : store.taken id = [] := hsound.idle id hclaims
  have hexecuted : store.executed id = [] := by
    have hbefore := hsound.executed id
    rwa [htaken, prefix_nil] at hbefore
  have hresponded : store.responded id = [] := by
    have hbefore := hsound.responded id
    rwa [hexecuted, prefix_nil] at hbefore
  refine ⟨?_, ?_, ?_⟩
  · rw [withClaim_claims, hclaims, if_pos rfl]
    exact mem_singleton.mpr rfl
  · exact (withClaim_executed id).trans (hexecuted.trans htaken.symm)
  · exact (withClaim_responded id).trans (hresponded.trans htaken.symm)

variable {store' : RuntimeStore}

theorem readSession_ok {found : Option SessionRecord}
    (h : readSession id store = .ok (found, store')) :
    store' = store ∧ found = (row SessionRow.id id store.sessions).map SessionRow.record := by
  simp only [readSession, bind_ok, get_ok, pure_ok] at h
  obtain ⟨_, _, hget, h⟩ := h
  cases hget
  cases h
  exact ⟨rfl, rfl⟩

/-- A worker that finds the session without a worker drives it alone. -/
theorem ensures_runtimeWorker :
    Ensures (runtimeDiscipline true) n (runtimeWorker n pid rounds id) (fun _ _ _ => True) l
      store := by
  unfold runtimeWorker
  apply ensures_bind
  apply ensures_statement
  intro store' _ k _ _ hmeets
  refine ⟨fun _ => trivial, ?_⟩
  intro env answer store'' hread
  obtain ⟨found, middle, hfound, hanswer⟩ := bind_ok.mp hread
  obtain ⟨rfl, hrow⟩ := readSession_ok hfound
  cases pure_ok.mp hanswer
  refine ⟨.refl _ n _, ?_⟩
  cases found with
  | none => exact trivial
  | some original =>
    by_cases hstarting : original.state = .starting
    · simp only [if_pos hstarting]
      have hunclaimed : original.unclaimed = true := by
        obtain ⟨r, hr, rfl⟩ := Option.map_eq_some_iff.mp hrow.symm
        simp [SessionRecord.unclaimed, hstarting, hmeets rfl r hr hstarting]
      apply ensures_bind
      apply ensures_statement
      intro store' _ k _ hsound _
      refine ⟨fun _ => trivial, ?_⟩
      intro _ won store'' hclaim
      rcases claimSession_ok hclaim with ⟨rfl, rfl⟩ | ⟨rfl, rfl, r, hr, hrecord⟩
      · exact ⟨.refl _ n store'', trivial⟩
      have hopen : r.record.unclaimed = true := by
        rw [hrecord]
        exact hunclaimed
      refine ⟨commits_withClaim hr hopen (by
        simp [SessionRecord.unclaimed, SessionRecord.claimedBy]), ?_⟩
      have hready := withClaim_ready (n := n) (original.claimedBy pid) hsound hr hopen
      apply ensures_bind
      apply ensures_set
      have hheld : Held (Ready n id)
          (WorkerLocal.mk (original.claimedBy pid) env.now env.now true false)
          (store'.withClaim n id (original.claimedBy pid)) := ⟨rfl, hready⟩
      cases original.operation with
      | launch | attach => exact (ensures_debugWorker hheld).mono (fun _ _ _ _ => trivial)
      | instrument | record | replay =>
        exact (keeps_collectWorker ready_stable rounds _ _ hheld).mono
          (fun _ _ _ _ => trivial)
    · simp only [if_neg hstarting]
      exact trivial

variable {u : Unit}

theorem ensures_client {α β : Type} {t : RuntimeInput → RuntimeTx α} {f : α → RuntimeProgram Unit β}
    (ht : ∀ env store a store', t env store = .ok (a, store') →
      (runtimeDiscipline guarded).Commits n store store')
    (hf : ∀ a store, Ensures (runtimeDiscipline guarded) n (f a) (fun _ _ _ => True) u store) :
    Ensures (runtimeDiscipline guarded) n (statement .access t >>= f) (fun _ _ _ => True) u
      store := by
  apply ensures_bind
  apply ensures_statement
  intro store' _ k _ _ _
  exact ⟨fun _ => trivial, fun env a store'' h => ⟨ht env store' a store'' h, hf a store''⟩⟩

theorem ensures_write {t : RuntimeInput → RuntimeTx Unit}
    (ht : ∀ env store a store', t env store = .ok (a, store') →
      (runtimeDiscipline guarded).Commits n store store') :
    Ensures (runtimeDiscipline guarded) n (statement .access t) (fun _ _ _ => True) u store := by
  apply ensures_statement
  intro store' _ k _ _ _
  exact ⟨fun _ => trivial, fun env a store'' h => ⟨ht env store' a store'' h, trivial⟩⟩

theorem ensures_look {post : Except String RuntimeInput → Unit → RuntimeStore → Prop}
    (h : ∀ x store, post x u store) :
    Ensures (runtimeDiscipline guarded) n backend post u store := by
  apply ensures_atomically
  intro store' _ k _ _ _
  refine ⟨trivial, fun env => ⟨?_, fun e _ => h _ store'⟩⟩
  intro a store'' ht
  cases henv : env.error with
  | some e =>
    simp only [henv] at ht
    exact absurd ht throw_ok
  | none =>
    simp only [henv, pure_ok] at ht
    cases ht
    exact ⟨.refl _ n store', h _ store'⟩

variable {request : OpenRequest}

theorem commits_opening {state : SessionState} {env : RuntimeInput} {record : SessionRecord}
    (h : (do
      let record := request.record env.freshId env.now state
      insertSession record
      return record : RuntimeTx SessionRecord) store = .ok (record, store')) :
    (runtimeDiscipline guarded).Commits n store store' := by
  obtain ⟨_, middle, hinsert, h⟩ := bind_ok.mp h
  cases pure_ok.mp h
  exact commits_insertSession hinsert

theorem ensures_openSession :
    Ensures (runtimeDiscipline guarded) n (openSession request) (fun _ _ _ => True) u store := by
  unfold openSession
  apply ensures_client (fun _ _ _ _ h => commits_opening h)
  intro record store
  apply ensures_tryCatch
  apply ensures_bind
  apply ensures_look
  intro x store
  cases x with
  | ok _ => exact trivial
  | error e =>
    apply ensures_write
    intro env store a store' h
    exact commits_saveSession (by simp [SessionRecord.unclaimed]) h

theorem ensures_runStdio :
    Ensures (runtimeDiscipline guarded) n (runStdio request) (fun _ _ _ => True) u store := by
  unfold runStdio
  apply ensures_client (fun _ _ _ _ h => commits_opening h)
  intro record store
  apply ensures_tryCatch
  have hfailed : ∀ (e : String) store, Ensures (runtimeDiscipline guarded) n
      ((fun _ => statement .access (fun _ => saveSession { record with state := .failed })) e)
      (fun _ _ _ => True) u store := by
    intro e store
    apply ensures_write
    intro env store a store' h
    exact commits_saveSession (by simp [SessionRecord.unclaimed]) h
  apply ensures_bind
  apply ensures_look
  intro x store
  cases x with
  | error e => exact hfailed e store
  | ok env =>
    apply ensures_statement
    intro store' _ k _ _ _
    refine ⟨fun e => hfailed e store', ?_⟩
    intro env a store'' h
    exact ⟨commits_saveSession (by simp [SessionRecord.unclaimed]) h, trivial⟩

theorem ensures_queueRequest {operation : RequestOperation} :
    Ensures (runtimeDiscipline guarded) n (queueRequest id operation) (fun _ _ _ => True) u
      store := by
  unfold queueRequest
  apply ensures_client
  · intro env store a store' h
    obtain ⟨found, middle, hfound, h⟩ := bind_ok.mp h
    obtain ⟨rfl, _⟩ := readSession_ok hfound
    cases pure_ok.mp h
    exact .refl _ n _
  rintro ⟨found, live⟩ store
  cases found with
  | none => exact ensures_throw trivial
  | some record =>
    simp only
    split
    · exact ensures_throw trivial
    split
    · exact ensures_throw trivial
    · apply ensures_write
      intro env store a store' h
      exact commits_insertRequest rfl rfl h

theorem Sound.mono (h : store.Sound k) : store.Sound (k + 1) :=
  { h with started := fun id n hn => Nat.lt_succ_of_lt (h.started id n hn) }

theorem runtime_starts : (runtimeDiscipline true).Starts runtimeMachine := by
  intro call k env store hinv
  have hproc : (runtimeMachine.start call k env store).1 = store ∧
      (runtimeDiscipline true).Safe k (runtimeMachine.start call k env store).2
        (fun _ _ => True) store := by
    cases call with
    | openSession request => exact ⟨rfl, ensures_openSession.process⟩
    | runStdio request => exact ⟨rfl, ensures_runStdio.process⟩
    | queueRequest session operation => exact ⟨rfl, ensures_queueRequest.process⟩
    | cancel session =>
      have hcancel : Ensures (runtimeDiscipline true) k
          (statement .access (fun _ => cancelSession session)) (fun _ _ _ => True) () store :=
        ensures_write (fun _ _ _ _ h => commits_cancelSession h)
      exact ⟨rfl, hcancel.process⟩
    | worker session pid rounds => exact ⟨rfl, ensures_runtimeWorker.process⟩
  obtain ⟨hstore, hsafe⟩ := hproc
  rw [hstore]
  exact ⟨Sound.mono hinv, fun m _ => RuntimeStore.relies_refl m store, .refl store, hsafe⟩

theorem idleRuntime_holds : (runtimeDiscipline true).Holds idleRuntime where
  inv :=
    { sessions := nodup_nil
      requests := nodup_nil
      single := fun _ => Nat.zero_le 1
      started := fun _ _ hn => by cases hn
      known := fun _ hnone => absurd rfl hnone
      claimed := fun _ hr => by cases hr
      idle := fun _ _ => rfl
      order := fun _ => List.Pairwise.nil
      executed := fun _ => prefix_refl _
      responded := fun _ => prefix_refl _
      drives := fun _ _ _ hmem => by cases hmem
      answered := fun _ hr => by cases hr }
  safe := fun n p hp => by simp [idleRuntime] at hp

end Start

/-- What the tables say of workers and requests. -/
structure RuntimeStore.RequestsOnce (store : RuntimeStore) : Prop where
  claimed : ∀ id, (store.claims id).length ≤ 1
  driven : ∀ n id q, .executed n id q ∈ store.effects → store.claims id = [n]
  executed : ∀ id, (store.executed id).Nodup
  order : ∀ id, store.executed id <+: (store.requestsOf id).map RequestRow.id
  responded : ∀ id, (store.responded id).Nodup

theorem taken_order {rows : List RequestRow}
    (h : rows.Pairwise (fun a b => a.state = .queued → b.state = .queued)) :
    rows.filter (fun r => r.state ≠ .queued) <+: rows := by
  induction rows with
  | nil => exact prefix_refl _
  | cons r rows ih =>
    obtain ⟨hfirst, hrest⟩ := pairwise_cons.mp h
    by_cases hqueued : r.state = .queued
    · have hnone : (r :: rows).filter (fun r => r.state ≠ .queued) = [] := by
        rw [filter_eq_nil_iff]
        intro a ha
        rcases mem_cons.mp ha with rfl | ha
        · simp [hqueued]
        · simp [hfirst a ha hqueued]
      rw [hnone]
      exact nil_prefix
    · rw [filter_cons_of_pos (by simpa using hqueued)]
      exact prefix_cons_inj r |>.mpr (ih hrest)

theorem requestsOnce_of_sound {store : RuntimeStore} (h : store.Sound k) : store.RequestsOnce where
  claimed := h.single
  driven := by
    intro n id q hmem
    have hn := h.drives n id q hmem
    have hsingle := h.single id
    cases hclaims : store.claims id with
    | nil =>
      rw [hclaims] at hn
      cases hn
    | cons m rest =>
      rw [hclaims, length_cons] at hsingle
      have hnil : rest = [] := eq_nil_of_length_eq_zero (by omega)
      rw [hclaims, hnil] at hn
      rw [hnil, mem_singleton.mp hn]
  executed := fun id => (h.executed id).sublist.nodup (taken_nodup h id)
  order := fun id => (h.executed id).trans ((taken_order (h.order id)).map RequestRow.id)
  responded := fun id =>
    ((h.responded id).trans (h.executed id)).sublist.nodup (taken_nodup h id)

/-- While no worker reads a session that is starting under another one, a session
has one worker, which executes its requests once and in row order and answers them
once; an answer stays, and nothing is executed for a worker that has crashed. -/
theorem requests_run_once (events more : List (Event RuntimeInput RuntimeCall))
    (hmeets : (runtimeDiscipline true).Meets runtimeMachine idleRuntime (events ++ more)) :
    (runtimeMachine.run idleRuntime events).store.RequestsOnce ∧
      (runtimeMachine.run idleRuntime events).store.Evolves
        (runtimeMachine.run idleRuntime (events ++ more)).store ∧
      ∀ n id, n ∈ (runtimeMachine.run idleRuntime events).store.claims id →
        (runtimeMachine.run idleRuntime events).procs[n]? = some (.done ()) →
        (runtimeMachine.run idleRuntime (events ++ more)).store.executed id =
          (runtimeMachine.run idleRuntime events).store.executed id := by
  obtain ⟨hfirst, hrest⟩ := (Discipline.meets_append _).mp hmeets
  obtain ⟨hholds, _⟩ := idleRuntime_holds.run runtime_starts events hfirst
  rw [Machine.run_append]
  refine ⟨requestsOnce_of_sound hholds.inv, (hholds.run runtime_starts more hrest).2, ?_⟩
  intro n id hclaimed hdone
  exact ((hholds.run_rely runtime_starts hdone more hrest) id hclaimed).executed

/-- What the condition asks of one action can be looked up. -/
instance meetsDecidable (guarded : Bool) (n : Nat) (label : RuntimeLabel) (store : RuntimeStore) :
    Decidable ((runtimeDiscipline guarded).meets n label store) :=
  match guarded, label with
  | false, _ => isTrue (fun h => absurd h Bool.false_ne_true)
  | true, .access => isTrue (fun _ => trivial)
  | true, .read id => decidable_of_iff
      (∀ r ∈ row SessionRow.id id store.sessions, r.record.state = .starting →
        r.record.workerPid = none) ⟨fun h _ r hr => h r hr, fun h r hr => h rfl r hr⟩

/-- A quiet choice of the surroundings: nothing fails, the target has stopped. -/
def quietInput (freshId : Text) : RuntimeInput :=
  ⟨0, false, freshId, true, false, true, true, [], none, "ok"⟩

/-- A client opens the session `s`, and worker 1 claims it. -/
def openedAndClaimed : List (Event RuntimeInput RuntimeCall) :=
  [.start (.openSession ⟨.launch, 100000, false, []⟩) (quietInput "s"),
    .step 0 (quietInput "s"),
    .start (.worker "s" 11 5) (quietInput []), .step 1 (quietInput []),
    .step 1 (quietInput [])]

/-- Three steps of a worker. -/
def threeSteps (n : Nat) : List (Event RuntimeInput RuntimeCall) :=
  List.replicate 3 (.step n (quietInput []))

/-- A client queues the request `q` for `s`, as process `n`. -/
def queuedRequest (n : Nat) : List (Event RuntimeInput RuntimeCall) :=
  [.start (.queueRequest "s" .inspect) (quietInput "q"),
    .step n (quietInput "q"), .step n (quietInput "q")]

/-- Worker 1 takes the request. -/
def takenRequest : List (Event RuntimeInput RuntimeCall) :=
  openedAndClaimed ++ threeSteps 1 ++ queuedRequest 2 ++ threeSteps 1 ++ [.step 1 (quietInput [])]

/-- Worker 1 crashes before it executes the request that it took. -/
theorem requests_run_once_crashed : (runtimeMachine.run idleRuntime
      (takenRequest ++ [.crash 1] ++ threeSteps 2)).store.executed "s" = [] := by
  have hmeets : (runtimeDiscipline true).Meets runtimeMachine idleRuntime
      (takenRequest ++ [.crash 1] ++ threeSteps 2) := by
    decide
  have hdone : (runtimeMachine.run idleRuntime (takenRequest ++ [.crash 1])).procs[1]? =
      some (.done ()) := by
    rw [Machine.run_append, Machine.run_cons, Machine.run_nil]
    exact Machine.crash_done (by decide)
  have hclaimed : 1 ∈ (runtimeMachine.run idleRuntime
      (takenRequest ++ [.crash 1])).store.claims "s" := by
    decide
  rw [(requests_run_once _ _ hmeets).2.2 1 "s" hclaimed hdone]
  decide

/-- A second worker that reads the session while the first one starts claims it as
well, and both execute the request. -/
theorem request_runs_twice :
    ¬ ∀ events, (runtimeMachine.run idleRuntime events).store.RequestsOnce := by
  intro h
  have honce := (h (openedAndClaimed ++
    [.start (.worker "s" 22 5) (quietInput []), .step 2 (quietInput []),
      .step 2 (quietInput [])] ++ threeSteps 1 ++ threeSteps 2 ++ queuedRequest 3 ++ threeSteps 1 ++
    threeSteps 2 ++ threeSteps 1 ++ threeSteps 2)).executed "s"
  revert honce
  decide

end Indago
