import IndagoRev.Runtime.RuntimeWorker

/-!
# Claims of sessions

While no worker reads a session that is still starting under another worker, at
most one worker claims it. The one that did owns the requests of the session: the
others only append to them.
-/

namespace Indago

open StdText Tables Transactions Interleaving List

namespace RuntimeStore

variable (store : RuntimeStore) (id : Text)

/-- The workers that claimed a session. -/
def claims : List Nat :=
  store.effects.filterMap fun
    | .claimed worker session => if session = id then some worker else none
    | _ => none

/-- The requests of a session that were executed, in this order. -/
def executed (id : Text) : List Text :=
  store.effects.filterMap fun
    | .executed _ session request => if session = id then some request else none
    | _ => none

/-- The requests of a session whose answer was stored, in this order. -/
def responded (id : Text) : List Text :=
  store.effects.filterMap fun
    | .responded _ session request => if session = id then some request else none
    | _ => none

def requestsOf : List RequestRow := store.requests.filter (fun r => r.session = id)

/-- The requests of a session that left the queue, in row order. -/
def taken : List Text :=
  ((store.requestsOf id).filter (fun r => r.state ≠ .queued)).map RequestRow.id

end RuntimeStore

/-- No worker has claimed the session, and one may. -/
def SessionRecord.unclaimed (record : SessionRecord) : Bool :=
  record.state = .starting && record.workerPid.isNone

/-- What the tables and the effects say of each other when `k` processes were
started. -/
structure RuntimeStore.Sound (k : Nat) (store : RuntimeStore) : Prop where
  sessions : (store.sessions.map SessionRow.id).Nodup
  requests : (store.requests.map RequestRow.id).Nodup
  single : ∀ id, (store.claims id).length ≤ 1
  started : ∀ id, ∀ n ∈ store.claims id, n < k
  known : ∀ id, store.claims id ≠ [] → (row SessionRow.id id store.sessions).isSome = true
  claimed : ∀ r ∈ store.sessions, r.record.unclaimed = true → store.claims r.id = []
  idle : ∀ id, store.claims id = [] → store.taken id = []
  order : ∀ id, (store.requestsOf id).Pairwise (fun a b => a.state = .queued → b.state = .queued)
  executed : ∀ id, store.executed id <+: store.taken id
  responded : ∀ id, store.responded id <+: store.executed id
  drives : ∀ n id request, .executed n id request ∈ store.effects → n ∈ store.claims id
  answered : ∀ r ∈ store.requests,
    (r.response.isSome = true ↔ r.id ∈ store.responded r.session) ∧
      (r.state = .finished ↔ r.response.isSome = true)

/-- What a worker may rely on for the session that it claimed. -/
structure RuntimeStore.Owned (n : Nat) (id : Text) (store store' : RuntimeStore) : Prop where
  claims : n ∈ store'.claims id
  requests : ∃ more, store'.requestsOf id = store.requestsOf id ++ more ∧
    ∀ r ∈ more, r.state = .queued
  executed : store'.executed id = store.executed id
  responded : store'.responded id = store.responded id

/-- What process `n` may rely on. -/
def RuntimeStore.Relies (n : Nat) (store store' : RuntimeStore) : Prop :=
  ∀ id, n ∈ store.claims id → store.Owned n id store'

/-- What becomes of a request: an answer stays. -/
structure RequestRow.Evolves (r r' : RequestRow) : Prop where
  id : r'.id = r.id
  session : r'.session = r.session
  request : r'.request = r.request
  response : ∀ answer, r.response = some answer → r'.response = some answer
  state : r.state ≠ .queued → r'.state ≠ .queued

theorem RequestRow.Evolves.refl (r : RequestRow) : r.Evolves r :=
  ⟨rfl, rfl, rfl, fun _ h => h, fun h => h⟩

theorem RequestRow.Evolves.trans {a b c : RequestRow} (h : a.Evolves b) (h' : b.Evolves c) :
    a.Evolves c :=
  ⟨h'.id.trans h.id, h'.session.trans h.session, h'.request.trans h.request,
    fun answer hanswer => h'.response answer (h.response answer hanswer),
    fun hstate => h'.state (h.state hstate)⟩

/-- What any step does to the tables. -/
structure RuntimeStore.Evolves (store store' : RuntimeStore) : Prop where
  requests : ∀ r ∈ store.requests, ∃ r' ∈ store'.requests, r.Evolves r'
  effects : store.effects <+: store'.effects

namespace RuntimeStore

variable {n k : Nat} {id : Text} {store store' : RuntimeStore}

theorem Evolves.refl (store : RuntimeStore) : store.Evolves store :=
  ⟨fun r hr => ⟨r, hr, .refl r⟩, prefix_refl _⟩

variable {a b c : RuntimeStore}

theorem Evolves.trans (h : a.Evolves b) (h' : b.Evolves c) : a.Evolves c := by
  refine ⟨?_, h.effects.trans h'.effects⟩
  intro r hr
  obtain ⟨mid, hmid, hfirst⟩ := h.requests r hr
  obtain ⟨r', hr', hsecond⟩ := h'.requests mid hmid
  exact ⟨r', hr', hfirst.trans hsecond⟩

theorem Owned.refl (h : n ∈ store.claims id) : store.Owned n id store :=
  ⟨h, ⟨[], (append_nil _).symm, nofun⟩, rfl, rfl⟩

theorem Owned.trans (h : a.Owned n id b) (h' : b.Owned n id c) : a.Owned n id c := by
  obtain ⟨more, hmore, hqueued⟩ := h.requests
  obtain ⟨more', hmore', hqueued'⟩ := h'.requests
  refine ⟨h'.claims, ⟨more ++ more', by rw [hmore', hmore, append_assoc], ?_⟩,
    h'.executed.trans h.executed, h'.responded.trans h.responded⟩
  intro r hr
  rcases mem_append.mp hr with hr | hr
  · exact hqueued r hr
  · exact hqueued' r hr

theorem relies_refl (n : Nat) (store : RuntimeStore) : Relies n store store :=
  fun _ h => .refl h

theorem Relies.trans (h : Relies n a b) (h' : Relies n b c) : Relies n a c :=
  fun id hid => (h id hid).trans (h' id (h id hid).claims)

theorem Owned.taken (h : store.Owned n id store') : store'.taken id = store.taken id := by
  obtain ⟨more, hmore, hqueued⟩ := h.requests
  have hnone : more.filter (fun r => r.state ≠ .queued) = [] := by
    rw [filter_eq_nil_iff]
    intro r hr
    simp [hqueued r hr]
  rw [RuntimeStore.taken, hmore, filter_append, hnone, append_nil]
  rfl

end RuntimeStore

/-- The workers and clients of a workspace. The guard asks that a worker that reads a
session finds it ended its start, or without a worker. -/
def runtimeDiscipline (guarded : Bool) : Discipline RuntimeLabel RuntimeStore where
  inv := RuntimeStore.Sound
  rely := RuntimeStore.Relies
  evolves := RuntimeStore.Evolves
  meets _ label store := guarded = true → match label with
    | .read id => ∀ r, row SessionRow.id id store.sessions = some r →
        r.record.state = .starting → r.record.workerPid = none
    | .access => True
  good _ _ _ := True
  rely_refl := RuntimeStore.relies_refl
  rely_trans _ _ _ _ := RuntimeStore.Relies.trans
  evolves_refl := .refl
  evolves_trans _ _ _ := .trans

section Sessions

variable {n k : Nat} {store : RuntimeStore} {guarded : Bool}

/-- A statement that leaves requests and effects, and makes no claimed session
look unclaimed. -/
theorem commits_sessions {sessions : List SessionRow}
    (hnames : ∀ k, store.Sound k → (sessions.map SessionRow.id).Nodup)
    (hkept : ∀ id, (row SessionRow.id id store.sessions).isSome = true →
      (row SessionRow.id id sessions).isSome = true) (hclaimed : ∀ k, store.Sound k →
      ∀ r ∈ sessions, r.record.unclaimed = true → store.claims r.id = []) :
    (runtimeDiscipline guarded).Commits n store { store with sessions := sessions } where
  keeps := fun k _ h =>
    { sessions := hnames k h
      requests := h.requests
      single := h.single
      started := h.started
      known := fun id hid => hkept id (h.known id hid)
      claimed := hclaimed k h
      idle := h.idle
      order := h.order
      executed := h.executed
      responded := h.responded
      drives := h.drives
      answered := h.answered }
  others := fun _ _ _ hid => ⟨hid, ⟨[], (append_nil _).symm, nofun⟩, rfl, rfl⟩
  evolves := ⟨fun r hr => ⟨r, hr, .refl r⟩, prefix_refl _⟩

variable {store' : RuntimeStore} {record : SessionRecord} {a : Unit}

theorem commits_saveSession (hrecord : record.unclaimed = false)
    (h : saveSession record store = .ok (a, store')) :
    (runtimeDiscipline guarded).Commits n store store' := by
  simp only [saveSession, modify_ok] at h
  cases h
  have hkey : ∀ r : SessionRow, SessionRow.id { r with record := record } = r.id := fun _ => rfl
  apply commits_sessions
  · intro k hsound
    rw [keys_rewrite hkey]
    exact hsound.sessions
  · intro id hid
    by_cases hsame : id = record.id
    · rw [hsame] at hid ⊢
      rw [row_rewrite_self hkey, Option.isSome_map]
      exact hid
    · rw [row_rewrite_other hkey hsame]
      exact hid
  · intro k hsound r hr hunclaimed
    rcases mem_rewrite hr with ⟨old, _, _, rfl⟩ | ⟨hold, _⟩
    · rw [hrecord] at hunclaimed
      cases hunclaimed
    · exact hsound.claimed r hold hunclaimed

theorem commits_cancelSession {id : Text} (h : cancelSession id store = .ok (a, store')) :
    (runtimeDiscipline guarded).Commits n store store' := by
  simp only [cancelSession, modify_ok] at h
  cases h
  have hkey : ∀ r : SessionRow, SessionRow.id { r with cancel := r.cancel + 1 } = r.id :=
    fun _ => rfl
  apply commits_sessions
  · intro k hsound
    rw [keys_rewrite hkey]
    exact hsound.sessions
  · intro other hother
    by_cases hsame : other = id
    · rw [hsame] at hother ⊢
      rw [row_rewrite_self hkey, Option.isSome_map]
      exact hother
    · rw [row_rewrite_other hkey hsame]
      exact hother
  · intro k hsound r hr hunclaimed
    rcases mem_rewrite hr with ⟨old, hold, _, rfl⟩ | ⟨hold, _⟩
    · exact hsound.claimed old hold hunclaimed
    · exact hsound.claimed r hold hunclaimed

theorem commits_insertSession (h : insertSession record store = .ok (a, store')) :
    (runtimeDiscipline guarded).Commits n store store' := by
  simp only [insertSession, bind_ok, get_ok] at h
  obtain ⟨_, _, hget, h⟩ := h
  cases hget
  cases hrow : row SessionRow.id record.id store.sessions with
  | some found =>
    rw [hrow] at h
    exact absurd h throw_ok
  | none =>
    rw [hrow] at h
    simp only [set_ok] at h
    cases h
    have hfresh := row_none_iff.mp hrow
    apply commits_sessions
    · intro k hsound
      rw [map_append, nodup_append]
      refine ⟨hsound.sessions, nodup_singleton _, ?_⟩
      intro a ha b hb hab
      obtain ⟨r, hr, rfl⟩ := mem_map.mp ha
      rw [mem_singleton.mp hb] at hab
      exact hfresh r hr hab
    · intro id hid
      rw [row_append]
      obtain ⟨r, hr⟩ := Option.isSome_iff_exists.mp hid
      simp [hr]
    · intro k hsound r hr hunclaimed
      rcases mem_append.mp hr with hr | hr
      · exact hsound.claimed r hr hunclaimed
      rw [mem_singleton.mp hr]
      by_contra hclaims
      have hknown := hsound.known record.id hclaims
      rw [hrow] at hknown
      cases hknown

end Sessions

section Claim

variable {n k : Nat} {id : Text} {store : RuntimeStore} {claimed : SessionRecord}

/-- What a claim leaves in the tables. -/
def RuntimeStore.withClaim (store : RuntimeStore) (n : Nat) (id : Text) (claimed : SessionRecord) :
    RuntimeStore :=
  { store with
    sessions := rewrite SessionRow.id id (fun r => { r with record := claimed }) store.sessions
    effects := store.effects ++ [.claimed n id] }

variable (other : Text)

theorem withClaim_claims : (store.withClaim n id claimed).claims other =
      store.claims other ++ if id = other then [n] else [] := by
  by_cases h : id = other <;>
    simp [RuntimeStore.claims, RuntimeStore.withClaim, filterMap_append, h]

theorem withClaim_executed :
    (store.withClaim n id claimed).executed other = store.executed other := by
  simp [RuntimeStore.executed, RuntimeStore.withClaim, filterMap_append]

theorem withClaim_responded :
    (store.withClaim n id claimed).responded other = store.responded other := by
  simp [RuntimeStore.responded, RuntimeStore.withClaim, filterMap_append]

theorem claimSession_ok {original : SessionRecord} {store' : RuntimeStore} {won : Bool}
    (h : claimSession n id original claimed store = .ok (won, store')) :
    (won = false ∧ store' = store) ∨ (won = true ∧ store' = store.withClaim n id claimed ∧
        ∃ r, row SessionRow.id id store.sessions = some r ∧ r.record = original) := by
  simp only [claimSession, bind_ok, get_ok] at h
  obtain ⟨_, _, hget, h⟩ := h
  cases hget
  cases hrow : row SessionRow.id id store.sessions with
  | none =>
    rw [hrow] at h
    simp only [pure_ok] at h
    cases h
    exact Or.inl ⟨rfl, rfl⟩
  | some found =>
    rw [hrow] at h
    by_cases hsame : found.record = original
    · simp only [if_pos hsame, bind_ok, set_ok, pure_ok] at h
      obtain ⟨_, _, hset, h⟩ := h
      cases hset
      cases h
      exact Or.inr ⟨rfl, rfl, found, rfl, hsame⟩
    · simp only [if_neg hsame, pure_ok] at h
      cases h
      exact Or.inl ⟨rfl, rfl⟩

/-- Whoever claims an unclaimed session is the only one that did. -/
theorem commits_withClaim {guarded : Bool} {r : SessionRow}
    (hrow : row SessionRow.id id store.sessions = some r) (hunclaimed : r.record.unclaimed = true)
    (hclaimed : claimed.unclaimed = false) :
    (runtimeDiscipline guarded).Commits n store (store.withClaim n id claimed) where
  keeps := by
    intro k hk h
    have hkey : ∀ r : SessionRow,
        SessionRow.id { r with record := claimed } = r.id := fun _ => rfl
    have hnone : store.claims id = [] := by
      have hclaims := h.claimed r (row_some_mem hrow) hunclaimed
      rwa [row_some_key hrow] at hclaims
    exact
      { sessions := by
          simp only [RuntimeStore.withClaim]
          rw [keys_rewrite hkey]
          exact h.sessions
        requests := h.requests
        single := by
          intro other
          rw [withClaim_claims]
          by_cases hid : id = other
          · rw [← hid, hnone, if_pos rfl]
            exact Nat.le_refl 1
          · rw [if_neg hid, append_nil]
            exact h.single other
        started := by
          intro other m hm
          rw [withClaim_claims] at hm
          rcases mem_append.mp hm with hm | hm
          · exact h.started other m hm
          split at hm
          · rw [mem_singleton.mp hm]
            exact hk
          · cases hm
        known := by
          intro other hother
          rw [withClaim_claims] at hother
          simp only [RuntimeStore.withClaim]
          by_cases hsame : other = id
          · rw [hsame, row_rewrite_self hkey, hrow]
            rfl
          · rw [row_rewrite_other hkey hsame]
            rw [if_neg (Ne.symm hsame), append_nil] at hother
            exact h.known other hother
        claimed := by
          intro found hfound hopen
          rcases mem_rewrite hfound with ⟨old, _, _, rfl⟩ | ⟨hold, hne⟩
          · rw [hclaimed] at hopen
            cases hopen
          · rw [withClaim_claims, if_neg (Ne.symm hne), append_nil]
            exact h.claimed found hold hopen
        idle := by
          intro other hother
          rw [withClaim_claims] at hother
          exact h.idle other (append_eq_nil_iff.mp hother).1
        order := h.order
        executed := by
          intro other
          rw [withClaim_executed]
          exact h.executed other
        responded := by
          intro other
          rw [withClaim_executed, withClaim_responded]
          exact h.responded other
        drives := by
          intro m id request hmem
          rw [withClaim_claims]
          rcases mem_append.mp hmem with hmem | hmem
          · exact mem_append_left _ (h.drives m id request hmem)
          · cases mem_singleton.mp hmem
        answered := by
          intro request hrequest
          rw [withClaim_responded]
          exact h.answered request hrequest }
  others := by
    intro m _ other hother
    refine ⟨?_, ⟨[], (append_nil _).symm, nofun⟩, withClaim_executed other,
      withClaim_responded other⟩
    rw [withClaim_claims]
    exact mem_append_left _ hother
  evolves := ⟨fun r hr => ⟨r, hr, .refl r⟩, prefix_append _ _⟩

end Claim

end Indago
