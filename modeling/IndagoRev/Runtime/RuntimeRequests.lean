import IndagoRev.Runtime.RuntimeClaims

/-!
# Requests of a session

The worker that claimed a session takes its requests in row order, executes each
one once and stores one answer for it.
-/

namespace Indago

open StdText Tables Transactions Interleaving List

variable {n k : Nat} {id q : Text} {store store' : RuntimeStore} {guarded : Bool}

/-- A statement that changes a request keeps what names it. -/
structure KeepsName (f : RequestRow → RequestRow) : Prop where
  id : ∀ r, (f r).id = r.id
  session : ∀ r, (f r).session = r.session

variable {f : RequestRow → RequestRow}

theorem requestsOf_rewrite (hf : KeepsName f) (id : Text) :
    RuntimeStore.requestsOf { store with requests := rewrite RequestRow.id q f store.requests } id =
      rewrite RequestRow.id q f (store.requestsOf id) :=
  filter_rewrite (fun r => by rw [hf.session])

variable {r : RequestRow}

theorem requestsOf_rewrite_other (hf : KeepsName f)
    (hsound : store.Sound k) (hr : r ∈ store.requests) (hq : r.id = q) (hne : r.session ≠ id) :
    RuntimeStore.requestsOf { store with requests := rewrite RequestRow.id q f store.requests } id =
      store.requestsOf id := by
  rw [requestsOf_rewrite hf]
  apply rewrite_absent
  rw [row_none_iff]
  intro a ha haq
  obtain ⟨hmem, hsession⟩ := mem_filter.mp ha
  have hsame : a = r :=
    inj_on_of_nodup_map hsound.requests hmem hr (haq.trans hq.symm)
  rw [hsame] at hsession
  exact hne (by simpa using hsession)

variable {front back : List RequestRow}

theorem requestsOf_rewrite_self (hf : KeepsName f) (hsound : store.Sound k)
    (hsplit : store.requestsOf id = front ++ r :: back) (hq : r.id = q) :
    RuntimeStore.requestsOf { store with requests := rewrite RequestRow.id q f store.requests } id =
      front ++ f r :: back := by
  have hnodup : ((front ++ r :: back).map RequestRow.id).Nodup := by
    rw [← hsplit]
    exact hsound.requests.sublist (List.Sublist.map _ filter_sublist)
  rw [map_append, map_cons, nodup_append] at hnodup
  obtain ⟨_, hrest, hdisjoint⟩ := hnodup
  have hfront : rewrite RequestRow.id q f front = front := by
    apply rewrite_absent
    rw [row_none_iff]
    intro a ha haq
    exact hdisjoint a.id (mem_map_of_mem ha) r.id mem_cons_self (haq.trans hq.symm)
  have hback : rewrite RequestRow.id q f back = back := by
    apply rewrite_absent
    rw [row_none_iff]
    intro a ha haq
    exact (nodup_cons.mp hrest).1 (by
      rw [hq, ← haq]
      exact mem_map_of_mem ha)
  rw [requestsOf_rewrite hf, hsplit]
  unfold rewrite at hfront hback ⊢
  rw [map_append, map_cons, hfront, hback, if_pos hq]

/-- The row of a request lies somewhere among those of its session. -/
theorem requestsOf_split (hr : r ∈ store.requests) (hid : r.session = id) :
    ∃ front back, store.requestsOf id = front ++ r :: back := by
  have hmem : r ∈ store.requestsOf id := mem_filter.mpr ⟨hr, by simpa using hid⟩
  exact append_of_mem hmem

theorem claims_unique (hsound : store.Sound k) {m : Nat} (hn : n ∈ store.claims id)
    (hm : m ∈ store.claims id) : m = n := by
  have hsingle := hsound.single id
  cases hclaims : store.claims id with
  | nil =>
    rw [hclaims] at hn
    cases hn
  | cons a rest =>
    rw [hclaims, length_cons] at hsingle
    have hnil : rest = [] := eq_nil_of_length_eq_zero (by omega)
    rw [hclaims, hnil, mem_singleton] at hn hm
    rw [hn, hm]

/-- Every request that left the queue was answered. -/
structure Ready (n : Nat) (id : Text) (store : RuntimeStore) : Prop where
  owner : n ∈ store.claims id
  executed : store.executed id = store.taken id
  responded : store.responded id = store.taken id

/-- The first request of the queue was read. -/
structure Selected (n : Nat) (id : Text) (r : RequestRow) (store : RuntimeStore) : Prop extends
    Ready n id store where
  queued : r.state = .queued
  split : ∃ front back, store.requestsOf id = front ++ r :: back ∧
    ∀ a ∈ front, a.state ≠ .queued

/-- A request left the queue and was not executed yet. -/
structure Marked (n : Nat) (id q : Text) (store : RuntimeStore) : Prop where
  owner : n ∈ store.claims id
  taken : store.taken id = store.executed id ++ [q]
  responded : store.responded id = store.executed id

/-- A request was executed and not answered yet. -/
structure Ran (n : Nat) (id q : Text) (store : RuntimeStore) : Prop where
  owner : n ∈ store.claims id
  executed : store.executed id = store.taken id
  taken : store.taken id = store.responded id ++ [q]

theorem Ready.stable (h : Ready n id store) (hrelies : RuntimeStore.Relies n store store') :
    Ready n id store' := by
  have howned := hrelies id h.owner
  refine ⟨howned.claims, ?_, ?_⟩
  · rw [howned.executed, howned.taken, h.executed]
  · rw [howned.responded, howned.taken, h.responded]

theorem Selected.stable (h : Selected n id r store)
    (hrelies : RuntimeStore.Relies n store store') : Selected n id r store' := by
  obtain ⟨front, back, hsplit, hfront⟩ := h.split
  obtain ⟨more, hmore, _⟩ := (hrelies id h.owner).requests
  refine ⟨h.toReady.stable hrelies, h.queued, front, back ++ more, ?_, hfront⟩
  rw [hmore, hsplit, append_assoc]
  rfl

theorem Marked.stable (h : Marked n id q store) (hrelies : RuntimeStore.Relies n store store') :
    Marked n id q store' := by
  have howned := hrelies id h.owner
  refine ⟨howned.claims, ?_, ?_⟩
  · rw [howned.executed, howned.taken, h.taken]
  · rw [howned.responded, howned.executed, h.responded]

theorem Ran.stable (h : Ran n id q store) (hrelies : RuntimeStore.Relies n store store') :
    Ran n id q store' := by
  have howned := hrelies id h.owner
  refine ⟨howned.claims, ?_, ?_⟩
  · rw [howned.executed, howned.taken, h.executed]
  · rw [howned.responded, howned.taken, h.taken]

/-- The request that is read next is the first one that is queued. -/
theorem nextRequest_ok {found : Option RequestRow}
    (h : nextRequest id store = .ok (found, store')) :
    store' = store ∧ ∀ r, found = some r → r.session = id ∧ r.state = .queued ∧
      r ∈ store.requests ∧ ∃ front back, store.requestsOf id = front ++ r :: back ∧
        ∀ a ∈ front, a.state ≠ .queued := by
  simp only [nextRequest, bind_ok, get_ok, pure_ok] at h
  obtain ⟨_, _, hget, h⟩ := h
  cases hget
  cases h
  refine ⟨rfl, ?_⟩
  intro r hr
  obtain ⟨hqueued, before, after, hsplit, hbefore⟩ := find?_eq_some_iff_append.mp hr
  simp only [decide_eq_true_eq] at hqueued
  refine ⟨hqueued.1, hqueued.2, by rw [hsplit]; simp, before.filter (fun a => a.session = id),
    after.filter (fun a => a.session = id), ?_, ?_⟩
  · rw [RuntimeStore.requestsOf, hsplit, filter_append, filter_cons_of_pos]
    simpa using hqueued.1
  intro a ha hstate
  obtain ⟨hmem, hsession⟩ := mem_filter.mp ha
  have hnot := hbefore a hmem
  simp only [decide_eq_true_eq] at hsession
  simp [hsession, hstate] at hnot

theorem mem_requestsOf : r ∈ store.requestsOf id ↔ r ∈ store.requests ∧ r.session = id := by
  simp [RuntimeStore.requestsOf]

theorem taken_row {q : Text} (h : q ∈ store.taken id) :
    ∃ r ∈ store.requests, r.session = id ∧ r.id = q ∧ r.state ≠ .queued := by
  obtain ⟨r, hr, hq⟩ := mem_map.mp h
  obtain ⟨hmem, hstate⟩ := mem_filter.mp hr
  obtain ⟨hrequest, hsession⟩ := mem_requestsOf.mp hmem
  exact ⟨r, hrequest, hsession, hq, by simpa using hstate⟩

theorem taken_nodup (hsound : store.Sound k) (id : Text) : (store.taken id).Nodup := by
  have hsub : List.Sublist (store.taken id) (store.requests.map RequestRow.id) :=
    List.Sublist.map _ (filter_sublist.trans filter_sublist)
  exact hsub.nodup hsound.requests

theorem taken_eq {rows : List RequestRow} (h : store'.requestsOf id = rows) :
    store'.taken id = (rows.filter (fun r => r.state ≠ .queued)).map RequestRow.id := by
  rw [RuntimeStore.taken, h]

/-- What a statement on one request leaves, with the effects that come with it. -/
def RuntimeStore.served (store : RuntimeStore) (q : Text) (f : RequestRow → RequestRow)
    (effects : List WorkerEffect) : RuntimeStore :=
  { store with
    requests := rewrite RequestRow.id q f store.requests
    effects := store.effects ++ effects }

theorem served_claims (store : RuntimeStore) (q : Text) (f : RequestRow → RequestRow)
    (effects : List WorkerEffect) (id : Text) :
    (store.served q f effects).claims id = store.claims id ++ effects.filterMap fun
      | .claimed worker session => if session = id then some worker else none
      | _ => none :=
  filterMap_append

theorem served_executed (store : RuntimeStore) (q : Text) (f : RequestRow → RequestRow)
    (effects : List WorkerEffect) (id : Text) :
    (store.served q f effects).executed id = store.executed id ++ effects.filterMap fun
      | .executed _ session request => if session = id then some request else none
      | _ => none :=
  filterMap_append

theorem served_responded (store : RuntimeStore) (q : Text) (f : RequestRow → RequestRow)
    (effects : List WorkerEffect) (id : Text) :
    (store.served q f effects).responded id = store.responded id ++ effects.filterMap fun
      | .responded _ session request => if session = id then some request else none
      | _ => none :=
  filterMap_append

/-- A statement on one request of a session, by the worker that claimed it. -/
structure Serves (n : Nat) (id : Text) (r : RequestRow) (f : RequestRow → RequestRow)
    (effects : List WorkerEffect) (store store' : RuntimeStore) : Prop where
  owner : n ∈ store.claims id
  mem : r ∈ store.requests
  session : r.session = id
  names : KeepsName f
  request : ∀ r, (f r).request = r.request
  response : ∀ answer, r.response = some answer → (f r).response = some answer
  state : (f r).state ≠ .queued
  first : r.state = .queued → ∃ front back, store.requestsOf id = front ++ r :: back ∧
    ∀ a ∈ front, a.state ≠ .queued
  written : store' = store.served r.id f effects
  claims : ∀ other, store'.claims other = store.claims other
  executedOther : ∀ other, other ≠ id → store'.executed other = store.executed other
  respondedOther : ∀ other, other ≠ id → store'.responded other = store.responded other

namespace Serves

variable {r : RequestRow} {f : RequestRow → RequestRow} {effects : List WorkerEffect}

theorem requestsOf_other (h : Serves n id r f effects store store') (hsound : store.Sound k)
    {other : Text} (hne : other ≠ id) : store'.requestsOf other = store.requestsOf other := by
  rw [h.written]
  exact requestsOf_rewrite_other h.names hsound h.mem rfl (by rw [h.session]; exact hne.symm)

theorem requestsOf_self (h : Serves n id r f effects store store') (hsound : store.Sound k)
    (hsplit : store.requestsOf id = front ++ r :: back) :
    store'.requestsOf id = front ++ f r :: back := by
  rw [h.written]
  exact requestsOf_rewrite_self h.names hsound hsplit rfl

theorem evolves (h : Serves n id r f effects store store') (hsound : store.Sound k) :
    store.Evolves store' := by
  rw [h.written]
  refine ⟨?_, prefix_append _ _⟩
  intro a ha
  refine ⟨if a.id = r.id then f a else a, mem_map_of_mem ha, ?_⟩
  by_cases hsame : a.id = r.id
  · have heq : a = r := inj_on_of_nodup_map hsound.requests ha h.mem hsame
    rw [if_pos hsame, heq]
    exact ⟨h.names.id r, h.names.session r, h.request r, h.response, fun _ => h.state⟩
  · rw [if_neg hsame]
    exact .refl a

theorem others (h : Serves n id r f effects store store') (hsound : store.Sound k) {m : Nat}
    (hm : m ≠ n) : RuntimeStore.Relies m store store' := by
  intro other hother
  have hne : other ≠ id := by
    rintro rfl
    exact hm (claims_unique hsound h.owner hother)
  refine ⟨by rw [h.claims]; exact hother, ⟨[], ?_, nofun⟩, h.executedOther other hne,
    h.respondedOther other hne⟩
  rw [h.requestsOf_other hsound hne, append_nil]

theorem order (h : Serves n id r f effects store store') (hsound : store.Sound k) (other : Text) :
    (store'.requestsOf other).Pairwise (fun a b => a.state = .queued → b.state = .queued) := by
  by_cases hne : other = id
  · subst hne
    obtain ⟨front, back, hsplit, hfront⟩ : ∃ front back,
        store.requestsOf other = front ++ r :: back ∧ ∀ a ∈ front, a.state ≠ .queued := by
      by_cases hstate : r.state = .queued
      · exact h.first hstate
      obtain ⟨front, back, hsplit⟩ := requestsOf_split h.mem h.session
      refine ⟨front, back, hsplit, ?_⟩
      have horder := hsound.order other
      rw [hsplit, pairwise_append] at horder
      exact fun a ha hqueued => hstate (horder.2.2 a ha r mem_cons_self hqueued)
    have horder := hsound.order other
    rw [hsplit, pairwise_append, pairwise_cons] at horder
    rw [h.requestsOf_self hsound hsplit, pairwise_append, pairwise_cons]
    refine ⟨horder.1, ⟨fun _ _ hqueued => absurd hqueued h.state, horder.2.1.2⟩, ?_⟩
    exact fun a ha _ _ hqueued => absurd hqueued (hfront a ha)
  · rw [h.requestsOf_other hsound hne]
    exact hsound.order other

theorem keeps (h : Serves n id r f effects store store') (hsound : store.Sound k)
    (hexecuted : store'.executed id <+: store'.taken id)
    (hresponded : store'.responded id <+: store'.executed id)
    (hdrives : ∀ m other request, .executed m other request ∈ effects → m ∈ store.claims other)
    (hanswered : ∀ a ∈ store.requests, a.id ≠ r.id →
      (a.id ∈ store'.responded a.session ↔ a.id ∈ store.responded a.session))
    (hself : ((f r).response.isSome = true ↔ r.id ∈ store'.responded id) ∧
      ((f r).state = .finished ↔ (f r).response.isSome = true)) : store'.Sound k where
  sessions := by
    rw [h.written]
    exact hsound.sessions
  requests := by
    rw [h.written, RuntimeStore.served, keys_rewrite h.names.id]
    exact hsound.requests
  single := fun other => by
    rw [h.claims]
    exact hsound.single other
  started := fun other => by
    rw [h.claims]
    exact hsound.started other
  known := fun other => by
    rw [h.claims, h.written]
    exact hsound.known other
  claimed := fun a ha => by
    rw [h.claims]
    rw [h.written] at ha
    exact hsound.claimed a ha
  idle := fun other => by
    intro hnone
    rw [h.claims] at hnone
    have hne : other ≠ id := by
      rintro rfl
      have howner := h.owner
      rw [hnone] at howner
      cases howner
    rw [taken_eq (h.requestsOf_other hsound hne)]
    exact hsound.idle other hnone
  order := h.order hsound
  executed := fun other => by
    by_cases hne : other = id
    · rw [hne]
      exact hexecuted
    · rw [h.executedOther other hne, taken_eq (h.requestsOf_other hsound hne)]
      exact hsound.executed other
  responded := fun other => by
    by_cases hne : other = id
    · rw [hne]
      exact hresponded
    · rw [h.executedOther other hne, h.respondedOther other hne]
      exact hsound.responded other
  drives := fun m other request hmem => by
    rw [h.claims]
    rw [h.written] at hmem
    rcases mem_append.mp hmem with hmem | hmem
    · exact hsound.drives m other request hmem
    · exact hdrives m other request hmem
  answered := fun a ha => by
    have ha' := ha
    rw [h.written] at ha'
    rcases mem_rewrite ha' with ⟨old, hold, hsame, rfl⟩ | ⟨hold, hne⟩
    · have heq : old = r := inj_on_of_nodup_map hsound.requests hold h.mem hsame
      rw [heq, h.names.id, h.names.session, h.session]
      exact hself
    · rw [hanswered a hold hne]
      exact hsound.answered a hold

end Serves

section Statements

variable {r : RequestRow}

theorem keepsName_running : KeepsName (fun r => { r with state := .running }) :=
  ⟨fun _ => rfl, fun _ => rfl⟩

theorem keepsName_finished (response : Text) :
    KeepsName (fun r => { r with state := .finished, response := some response }) :=
  ⟨fun _ => rfl, fun _ => rfl⟩

theorem Selected.mem (h : Selected n id r store) : r ∈ store.requests ∧ r.session = id := by
  obtain ⟨front, back, hsplit, _⟩ := h.split
  apply mem_requestsOf.mp
  rw [hsplit]
  simp

theorem queued_unanswered (hsound : store.Sound k) (hr : r ∈ store.requests)
    (hqueued : r.state = .queued) : r.response = none := by
  have hanswered := (hsound.answered r hr).2
  rw [hqueued] at hanswered
  simpa using hanswered

variable (guarded : Bool) {a : Unit}

theorem commits_markRunning (h : Selected n id r store)
    (hmark : markRunning r.id store = .ok (a, store')) (hk : store.Sound k) :
    (runtimeDiscipline guarded).Commits n store store' ∧ Marked n id r.id store' := by
  have hwritten : store' = store.served r.id (fun r => { r with state := .running }) [] := by
    simp only [markRunning, modify_ok] at hmark
    cases hmark
    simp [RuntimeStore.served]
  subst hwritten
  obtain ⟨hmem, hsession⟩ := h.mem
  obtain ⟨front, back, hsplit, hfront⟩ := h.split
  have hserves : Serves n id r (fun r => { r with state := .running }) [] store
      (store.served r.id (fun r => { r with state := .running }) []) :=
    { owner := h.owner
      mem := hmem
      session := hsession
      names := keepsName_running
      request := fun _ => rfl
      response := fun _ hanswer => hanswer
      state := by simp
      first := fun _ => ⟨front, back, hsplit, hfront⟩
      written := rfl
      claims := fun other => by simp [RuntimeStore.served, RuntimeStore.claims]
      executedOther := fun _ _ => by simp [RuntimeStore.served, RuntimeStore.executed]
      respondedOther := fun _ _ => by simp [RuntimeStore.served, RuntimeStore.responded] }
  have htaken : ∀ k, store.Sound k →
      (store.served r.id (fun r => { r with state := .running }) []).taken id =
        store.taken id ++ [r.id] := by
    intro k hsound
    have hback : ∀ b ∈ back, b.state = .queued := by
      have horder := hsound.order id
      rw [hsplit, pairwise_append, pairwise_cons] at horder
      exact fun b hb => horder.2.1.1 b hb h.queued
    have hnone : back.filter (fun r => r.state ≠ .queued) = [] := by
      rw [filter_eq_nil_iff]
      intro b hb
      simp [hback b hb]
    rw [taken_eq (hserves.requestsOf_self hsound hsplit), taken_eq hsplit]
    simp only [filter_append, filter_cons, hnone, h.queued]
    simp
  have hexecuted := served_executed store r.id (fun r => { r with state := .running }) [] id
  have hresponded := served_responded store r.id (fun r => { r with state := .running }) [] id
  simp only [filterMap_nil, append_nil] at hexecuted hresponded
  refine ⟨⟨?_, ?_, hserves.evolves hk⟩, ?_⟩
  · intro k' _ hsound
    apply hserves.keeps hsound
    · rw [htaken k' hsound, hexecuted, h.executed]
      exact prefix_append _ _
    · rw [hexecuted, hresponded]
      exact hsound.responded id
    · exact fun _ _ _ hmem => by cases hmem
    · intro a _ _
      rw [served_responded]
      simp
    have hnone := queued_unanswered hsound hmem h.queued
    have hanswered := (hsound.answered r hmem).1
    rw [hsession] at hanswered
    rw [hresponded]
    refine ⟨hanswered, ?_⟩
    simp [hnone]
  · exact fun m hm => hserves.others hk hm
  · refine ⟨(hserves.claims id).symm ▸ h.owner, ?_, ?_⟩
    · rw [htaken k hk, hexecuted, h.executed]
    · rw [hresponded, hexecuted, h.responded, h.executed]

theorem commits_executeRequest {q : Text} (h : Marked n id q store)
    (hexecute : executeRequest n id q store = .ok (a, store')) (hk : store.Sound k) :
    (runtimeDiscipline guarded).Commits n store store' ∧ Ran n id q store' := by
  have hmem : q ∈ store.taken id := by
    rw [h.taken]
    simp
  obtain ⟨r, hr, hsession, rfl, hstate⟩ := taken_row hmem
  have hwritten : store' = store.served r.id (fun r => r) [.executed n id r.id] := by
    simp only [executeRequest, modify_ok] at hexecute
    cases hexecute
    simp [RuntimeStore.served, rewrite]
  have hrequests : store'.requests = store.requests := by
    rw [hwritten]
    simp [RuntimeStore.served, rewrite]
  have htaken : store'.taken id = store.taken id := by
    rw [RuntimeStore.taken, RuntimeStore.requestsOf, hrequests]
    rfl
  have hexecuted : store'.executed id = store.executed id ++ [r.id] := by
    rw [hwritten, served_executed]
    simp
  have hresponded : ∀ other, store'.responded other = store.responded other := by
    intro other
    rw [hwritten, served_responded]
    simp
  have hserves : Serves n id r (fun r => r) [.executed n id r.id] store store' :=
    { owner := h.owner
      mem := hr
      session := hsession
      names := ⟨fun _ => rfl, fun _ => rfl⟩
      request := fun _ => rfl
      response := fun _ hanswer => hanswer
      state := hstate
      first := fun hqueued => absurd hqueued hstate
      written := hwritten
      claims := fun other => by
        rw [hwritten, served_claims]
        simp
      executedOther := fun other hne => by
        rw [hwritten, served_executed]
        simp [hne.symm]
      respondedOther := fun other _ => hresponded other }
  refine ⟨⟨?_, fun m hm => hserves.others hk hm, hserves.evolves hk⟩, ?_⟩
  · intro k' _ hsound
    apply hserves.keeps hsound
    · have hsame : store'.executed id = store'.taken id := by
        rw [htaken, hexecuted, h.taken]
      exact hsame ▸ prefix_refl _
    · rw [hexecuted, hresponded, h.responded]
      exact prefix_append _ _
    · intro m other request heffect
      cases mem_singleton.mp heffect
      exact h.owner
    · intro a _ _
      rw [hresponded]
    · rw [hresponded, ← hsession]
      exact hsound.answered r hr
  · refine ⟨(hserves.claims id).symm ▸ h.owner, ?_, ?_⟩
    · rw [hexecuted, htaken, h.taken]
    · rw [htaken, hresponded, h.taken, h.responded]

theorem commits_finishRequest {q response : Text} (h : Ran n id q store)
    (hfinish : finishRequest n id q response store = .ok (a, store')) (hk : store.Sound k) :
    (runtimeDiscipline guarded).Commits n store store' ∧ Ready n id store' := by
  have hmem : q ∈ store.taken id := by
    rw [h.taken]
    simp
  obtain ⟨r, hr, hsession, rfl, hstate⟩ := taken_row hmem
  have hnew : r.id ∉ store.responded id := by
    have hnodup := taken_nodup hk id
    rw [h.taken, nodup_append] at hnodup
    exact fun hold => hnodup.2.2 r.id hold r.id (mem_singleton.mpr rfl) rfl
  have hanswer : r.response = none := by
    have hanswered := (hk.answered r hr).1
    rw [hsession] at hanswered
    rw [← Option.not_isSome_iff_eq_none, hanswered]
    exact hnew
  have hwritten : store' = store.served r.id
      (fun r => { r with state := .finished, response := some response })
      [.responded n id r.id] := by
    simp only [finishRequest, modify_ok] at hfinish
    cases hfinish
    rfl
  have hresponded : store'.responded id = store.responded id ++ [r.id] := by
    rw [hwritten, served_responded]
    simp
  have hexecuted : ∀ other, store'.executed other = store.executed other := by
    intro other
    rw [hwritten, served_executed]
    simp
  have hserves : Serves n id r (fun r => { r with state := .finished, response := some response })
      [.responded n id r.id] store store' :=
    { owner := h.owner
      mem := hr
      session := hsession
      names := keepsName_finished response
      request := fun _ => rfl
      response := fun answer hold => by
        rw [hanswer] at hold
        cases hold
      state := by simp
      first := fun hqueued => absurd hqueued hstate
      written := hwritten
      claims := fun other => by
        rw [hwritten, served_claims]
        simp
      executedOther := fun other _ => hexecuted other
      respondedOther := fun other hne => by
        rw [hwritten, served_responded]
        simp [hne.symm] }
  have htaken : ∀ k, store.Sound k → store'.taken id = store.taken id := by
    intro k hsound
    obtain ⟨front, back, hsplit⟩ := requestsOf_split hr hsession
    rw [taken_eq (hserves.requestsOf_self hsound hsplit), taken_eq hsplit]
    simp [filter_append, hstate]
  refine ⟨⟨?_, fun m hm => hserves.others hk hm, hserves.evolves hk⟩, ?_⟩
  · intro k' _ hsound
    apply hserves.keeps hsound
    · rw [htaken k' hsound, hexecuted]
      exact hsound.executed id
    · have hsame : store'.responded id = store'.executed id := by
        rw [hexecuted, hresponded, h.executed, h.taken]
      exact hsame ▸ prefix_refl _
    · intro m other request heffect
      cases mem_singleton.mp heffect
    · intro other _ hne
      rw [hwritten, served_responded]
      by_cases hother : id = other.session <;> simp [hother, hne]
    · rw [hresponded]
      simp
  · refine ⟨(hserves.claims id).symm ▸ h.owner, ?_, ?_⟩
    · rw [htaken k hk, hexecuted, h.executed]
    · rw [htaken k hk, hresponded, h.taken]

variable {guarded}

theorem commits_insertRequest {request : RequestRow} (hqueued : request.state = .queued)
    (hunanswered : request.response = none)
    (hinsert : insertRequest request store = .ok (a, store')) :
    (runtimeDiscipline guarded).Commits n store store' := by
  simp only [insertRequest, bind_ok, get_ok] at hinsert
  obtain ⟨_, _, hget, hinsert⟩ := hinsert
  cases hget
  cases hrow : row RequestRow.id request.id store.requests with
  | some found =>
    rw [hrow] at hinsert
    exact absurd hinsert throw_ok
  | none =>
    rw [hrow] at hinsert
    simp only [set_ok] at hinsert
    cases hinsert
    have hfresh := row_none_iff.mp hrow
    have howned : ∀ id, ∃ more, RuntimeStore.requestsOf
        { store with requests := store.requests ++ [request] } id =
          store.requestsOf id ++ more ∧ ∀ r ∈ more, r.state = .queued := by
      intro id
      refine ⟨[request].filter (fun r => r.session = id), by
        simp [RuntimeStore.requestsOf, filter_append], ?_⟩
      intro r hr
      rw [mem_singleton.mp (mem_filter.mp hr).1]
      exact hqueued
    have htaken : ∀ id, RuntimeStore.taken
        { store with requests := store.requests ++ [request] } id = store.taken id := by
      intro id
      by_cases hid : request.session = id <;>
        simp [RuntimeStore.taken, RuntimeStore.requestsOf, filter_append, hid, hqueued]
    refine ⟨?_, ?_, ⟨?_, prefix_refl _⟩⟩
    · intro k _ hsound
      exact
        { sessions := hsound.sessions
          requests := by
            rw [map_append, nodup_append]
            refine ⟨hsound.requests, nodup_singleton _, ?_⟩
            intro old hold new hnew hsame
            obtain ⟨r, hr, rfl⟩ := mem_map.mp hold
            rw [mem_singleton.mp hnew] at hsame
            exact hfresh r hr hsame
          single := hsound.single
          started := hsound.started
          known := hsound.known
          claimed := hsound.claimed
          idle := fun id hid => (htaken id).trans (hsound.idle id hid)
          order := fun id => by
            obtain ⟨more, hmore, hall⟩ := howned id
            rw [hmore, pairwise_append]
            refine ⟨hsound.order id, ?_, fun _ _ _ hb _ => hall _ hb⟩
            exact pairwise_of_forall_mem_list (fun _ _ b hb _ => hall b hb)
          executed := fun id => (htaken id).symm ▸ hsound.executed id
          responded := hsound.responded
          drives := hsound.drives
          answered := fun r hr => by
            rcases mem_append.mp hr with hr | hr
            · exact hsound.answered r hr
            rw [mem_singleton.mp hr, hunanswered, hqueued]
            refine ⟨⟨(fun h => by cases h), fun hmem => ?_⟩, by simp⟩
            have hbefore := (hsound.responded request.session).trans
              (hsound.executed request.session)
            obtain ⟨old, hold, _, hsame, _⟩ := taken_row (hbefore.subset hmem)
            exact absurd hsame (hfresh old hold) }
    · exact fun m _ id hid => ⟨hid, howned id, rfl, rfl⟩
    · exact fun r hr => ⟨r, mem_append_left _ hr, .refl r⟩

end Statements

end Indago
