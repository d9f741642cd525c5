import IndagoRev.Runtime.CallIdentity

/-!
# Pairs of entries and returns

What the record of a call says depends on its observations and not on their order, but for
which entry and which return came first.  The row of the call is closed once a return is
recorded, or once the collection ends behind an observation of the call.

* `advanceAll_records` folds the observations of a call into their record;
* `observeAll_callRow` carries the row of a call over a whole log of its session;
* `apiCall_paired` puts both together, and `closed_without_leave` is the row that the end of
  a collection closes.
-/

namespace Indago

open StdText Tables Transactions List

/-- The identity that an observation carries. -/
def Observation.identity (o : Observation) : CallIdentity :=
  ⟨o.data.api.getD [], o.data.processId, o.data.threadInstance⟩

/-- An entry or a return of a call. -/
structure Observation.IsCall (o : Observation) (call : Text) : Prop where
  kind : o.kind.isCall = true
  api : o.data.api.isSome = true
  callId : o.data.callId = some call

def entries (os : List Observation) : List Observation := os.filter (fun o => o.kind = .apiEnter)

def returns (os : List Observation) : List Observation := os.filter (fun o => o.kind = .apiLeave)

variable (identity : CallIdentity)

/-- Whether an observation has another identity. -/
def conflicts (os : List Observation) : Bool :=
  os.any (fun o => identity ≠ o.identity)

/-- What a record has kept and counted of the observations of its call. -/
structure ApiCall.Counts (call : ApiCall) (id : Text) (os : List Observation) : Prop where
  id : call.id = id
  entered : call.entryObservation = (entries os).head?.map Observation.id
  returned : call.returnObservation = (returns os).head?.map Observation.id
  conflicting : call.conflictingObservations = conflicts call.identity os
  duplicates : call.duplicateObservations = ((entries os).length - 1) + ((returns os).length - 1)

/-- The record of a call is that of its observations. -/
structure ApiCall.Records (call : ApiCall) (id : Text) (os : List Observation) : Prop
    extends call.Counts id os where
  first : os.head?.map Observation.identity = some call.identity
  complete : call.pairComplete = (call.entryObservation.isSome && call.returnObservation.isSome &&
    !call.conflictingObservations && decide (call.duplicateObservations = 0))

variable {id : Text} {os more : List Observation} {o : Observation} {call : ApiCall}

theorem entries_append : entries (os ++ more) = entries os ++ entries more := filter_append ..

theorem returns_append : returns (os ++ more) = returns os ++ returns more := filter_append ..

theorem conflicts_append :
    conflicts identity (os ++ more) = (conflicts identity os || conflicts identity more) :=
  any_append ..

theorem Observation.IsCall.cases (h : o.IsCall id) : o.kind = .apiEnter ∨ o.kind = .apiLeave := by
  have hkind := h.kind
  simp only [ObservationKind.isCall, Bool.or_eq_true, decide_eq_true_eq] at hkind
  exact hkind

@[simp] theorem ApiCall.compare_id (call : ApiCall) (identity : CallIdentity) :
    (call.compare identity).id = call.id := by
  unfold compare
  split <;> rfl

@[simp] theorem ApiCall.compare_identity (call : ApiCall) (identity : CallIdentity) :
    (call.compare identity).identity = call.identity := by
  unfold compare
  split <;> rfl

@[simp] theorem ApiCall.compare_entry (call : ApiCall) (identity : CallIdentity) :
    (call.compare identity).entryObservation = call.entryObservation := by
  unfold compare
  split <;> rfl

@[simp] theorem ApiCall.compare_return (call : ApiCall) (identity : CallIdentity) :
    (call.compare identity).returnObservation = call.returnObservation := by
  unfold compare
  split <;> rfl

@[simp] theorem ApiCall.compare_duplicates (call : ApiCall) (identity : CallIdentity) :
    (call.compare identity).duplicateObservations = call.duplicateObservations := by
  unfold compare
  split <;> rfl

theorem ApiCall.compare_conflicting (call : ApiCall) (identity : CallIdentity) :
    (call.compare identity).conflictingObservations =
      (call.conflictingObservations || decide (call.identity ≠ identity)) := by
  unfold compare
  split
  · next h => simp [h]
  · next h => simp [not_ne_iff.mp h]

/-- The observation of a call is accepted, and changes the record it had. -/
theorem advance_eq (h : o.IsCall id) {previous : Option ApiCall}
    (hprevious : ∀ call, previous = some call → call.id = id) :
    advanceApiCallIdentity previous o.data o.kind o.id =
      .ok ((((previous.getD { id := id, identity := o.identity }).compare o.identity).keep o.kind
        o.id).assess) := by
  obtain ⟨api, hapi⟩ := Option.isSome_iff_exists.mp h.api
  have hidentity : o.identity = ⟨api, o.data.processId, o.data.threadInstance⟩ := by
    rw [Observation.identity, hapi, Option.getD_some]
  have hkind : ¬ o.kind.isCall = false := by
    rw [h.kind]
    exact Bool.noConfusion
  unfold advanceApiCallIdentity
  rw [if_neg hkind, h.callId, hapi]
  cases previous with
  | none => rw [hidentity]; rfl
  | some call =>
    have hsame := hprevious call rfl
    simp only [required, bind, Except.bind, hsame, ne_eq, not_true_eq_false, if_false]
    rw [hidentity]
    rfl

variable {seen : List Observation}

/-- One more observation of a kind is kept if it is the first of it, and counted if not. -/
theorem kept_first {kept : Option Text} (h : kept = seen.head?.map Observation.id) :
    (if kept.isSome then kept else some o.id) = (seen ++ [o]).head?.map Observation.id := by
  cases seen with
  | nil =>
    rw [h]
    rfl
  | cons first rest =>
    rw [h]
    rfl

theorem counted_next {kept : Option Text} (h : kept = seen.head?.map Observation.id) :
    (seen ++ [o]).length - 1 = seen.length - 1 + (if kept.isSome then 1 else 0) := by
  cases seen with
  | nil =>
    rw [h]
    rfl
  | cons first rest =>
    rw [h]
    simp

theorem ApiCall.keep_enter (call : ApiCall) (observation : Text) : call.keep .apiEnter observation =
      { call with
        entryObservation :=
          if call.entryObservation.isSome then call.entryObservation else some observation
        duplicateObservations :=
          call.duplicateObservations + (if call.entryObservation.isSome then 1 else 0) } := by
  obtain ⟨id, identity, entry, _, _, _, _⟩ := call
  cases entry <;> rfl

theorem ApiCall.keep_leave (call : ApiCall) (observation : Text) : call.keep .apiLeave observation =
      { call with
        returnObservation :=
          if call.returnObservation.isSome then call.returnObservation else some observation
        duplicateObservations :=
          call.duplicateObservations + (if call.returnObservation.isSome then 1 else 0) } := by
  obtain ⟨id, identity, entry, return', _, _, _⟩ := call
  cases return' <;> rfl

theorem ApiCall.Counts.keep (hcall : o.IsCall id) (h : call.Counts id os) :
    ((call.compare o.identity).keep o.kind o.id).Counts id (os ++ [o]) := by
  have hconflict : (call.compare o.identity).conflictingObservations =
      conflicts (call.compare o.identity).identity (os ++ [o]) := by
    rw [call.compare_conflicting, call.compare_identity, h.conflicting, conflicts_append]
    simp [conflicts]
  have hid := (call.compare_id o.identity).trans h.id
  have hduplicates := (call.compare_duplicates o.identity).trans h.duplicates
  have hentered := (call.compare_entry o.identity).trans h.entered
  have hreturned := (call.compare_return o.identity).trans h.returned
  rcases hcall.cases with hkind | hkind
  · have hentries : entries (os ++ [o]) = entries os ++ [o] := by
      rw [entries_append]
      simp [entries, hkind]
    have hreturns : returns (os ++ [o]) = returns os := by
      rw [returns_append]
      simp [returns, hkind]
    rw [hkind, ApiCall.keep_enter]
    refine ⟨hid, ?_, ?_, hconflict, ?_⟩
    · rw [hentries]
      exact kept_first hentered
    · rw [hreturns]
      exact hreturned
    rw [hentries, hreturns, counted_next hentered]
    show (call.compare o.identity).duplicateObservations + _ = _
    rw [hduplicates]
    omega
  · have hentries : entries (os ++ [o]) = entries os := by
      rw [entries_append]
      simp [entries, hkind]
    have hreturns : returns (os ++ [o]) = returns os ++ [o] := by
      rw [returns_append]
      simp [returns, hkind]
    rw [hkind, ApiCall.keep_leave]
    refine ⟨hid, ?_, ?_, hconflict, ?_⟩
    · rw [hentries]
      exact hentered
    · rw [hreturns]
      exact kept_first hreturned
    rw [hentries, hreturns, counted_next hreturned]
    show (call.compare o.identity).duplicateObservations + _ = _
    rw [hduplicates]
    omega

theorem ApiCall.keep_identity (call : ApiCall) (kind : ObservationKind) (observation : Text) :
    (call.keep kind observation).identity = call.identity := by
  unfold ApiCall.keep ApiCall.setField
  split
  · rfl
  · cases kind <;> rfl

theorem ApiCall.Counts.advance (hcall : o.IsCall id) (h : call.Counts id os)
    (hfirst : (os ++ [o]).head?.map Observation.identity = some call.identity) :
    (((call.compare o.identity).keep o.kind o.id).assess).Records id (os ++ [o]) := by
  obtain ⟨hid, hentry, hreturn, hconflicting, hduplicates⟩ := h.keep hcall
  refine ⟨⟨hid, hentry, hreturn, hconflicting, hduplicates⟩, ?_, rfl⟩
  show _ = some ((call.compare o.identity).keep o.kind o.id).identity
  rw [keep_identity, compare_identity, hfirst]

theorem counts_first : ApiCall.Counts { id := id, identity := identity }
    id [] := ⟨rfl, rfl, rfl, rfl, rfl⟩

theorem advance_first (hcall : o.IsCall id) : ∃ call,
    advanceApiCallIdentity none o.data o.kind o.id = .ok call ∧ call.Records id [o] := by
  refine ⟨_, advance_eq hcall (fun call h => by cases h), ?_⟩
  exact (counts_first o.identity).advance hcall rfl

theorem advance_next (hcall : o.IsCall id) (h : call.Records id os) : ∃ call',
    advanceApiCallIdentity (some call) o.data o.kind o.id = .ok call' ∧
      call'.Records id (os ++ [o]) := by
  refine ⟨_, advance_eq hcall (fun c hc => by cases hc; exact h.id), ?_⟩
  refine h.toCounts.advance hcall ?_
  have hfirst := h.first
  cases os with
  | nil => cases hfirst
  | cons first rest => exact hfirst

theorem advanceAll_next (h : call.Records id os) (hmore : ∀ o ∈ more, o.IsCall id) :
    ∃ call', advanceAll (some call) more = .ok (some call') ∧ call'.Records id (os ++ more) := by
  induction more generalizing os call with
  | nil =>
    rw [append_nil]
    exact ⟨call, rfl, h⟩
  | cons o rest ih =>
    obtain ⟨mid, hmid, hrecords⟩ := advance_next (hmore o mem_cons_self) h
    obtain ⟨call', hrest, hlast⟩ := ih hrecords (fun o' ho' => hmore o' (mem_cons_of_mem _ ho'))
    refine ⟨call', ?_, ?_⟩
    · unfold advanceAll
      rw [foldlM_cons, hmid]
      exact hrest
    · rw [append_assoc, singleton_append] at hlast
      exact hlast

/-- The fold over the observations of a call succeeds with their record. -/
theorem advanceAll_records (hne : os ≠ []) (hos : ∀ o ∈ os, o.IsCall id) :
    ∃ call, advanceAll none os = .ok (some call) ∧ call.Records id os := by
  cases os with
  | nil => exact absurd rfl hne
  | cons o rest =>
    obtain ⟨mid, hmid, hrecords⟩ := advance_first (hos o mem_cons_self)
    obtain ⟨call, hrest, hlast⟩ :=
      advanceAll_next hrecords (fun o' ho' => hos o' (mem_cons_of_mem _ ho'))
    refine ⟨call, ?_, hlast⟩
    unfold advanceAll
    rw [foldlM_cons, hmid]
    exact hrest

theorem ApiCall.Records.conflicting_iff (h : call.Records id os) :
    call.conflictingObservations = true ↔ ¬ ∀ o ∈ os, ∀ o' ∈ os, o.identity = o'.identity := by
  obtain ⟨first, hhead, hsame⟩ := Option.map_eq_some_iff.mp h.first
  have hfirst : first ∈ os := mem_of_mem_head? hhead
  rw [h.conflicting, conflicts, any_eq_true]
  constructor
  · rintro ⟨o, ho, hne⟩ hall
    exact of_decide_eq_true hne (hsame.symm.trans (hall first hfirst o ho))
  intro hnot
  by_contra hnone
  have hagree : ∀ o ∈ os, call.identity = o.identity := by
    intro o ho
    by_contra hne
    exact hnone ⟨o, ho, decide_eq_true hne⟩
  exact hnot (fun o ho o' ho' => (hagree o ho).symm.trans (hagree o' ho'))

theorem ApiCall.Records.unique {call' : ApiCall} (h : call.Records id os)
    (h' : call'.Records id os) : call' = call := by
  have hidentity : call'.identity = call.identity :=
    Option.some.inj (h'.first.symm.trans h.first)
  have hid := h'.id.trans h.id.symm
  have hentered := h'.entered.trans h.entered.symm
  have hreturned := h'.returned.trans h.returned.symm
  have hconflicting := h'.conflicting.trans
    ((congrArg (fun identity => conflicts identity os) hidentity).trans h.conflicting.symm)
  have hduplicates := h'.duplicates.trans h.duplicates.symm
  have hcomplete : call'.pairComplete = call.pairComplete := by
    rw [h'.complete, h.complete, hentered, hreturned, hconflicting, hduplicates]
  cases call
  cases call'
  simp_all

/-- The record is complete for one entry and one return of one identity. -/
theorem ApiCall.Records.complete_iff (h : call.Records id os) :
    call.pairComplete = true ↔ (entries os).length = 1 ∧ (returns os).length = 1 ∧
      ∀ o ∈ os, ∀ o' ∈ os, o.identity = o'.identity := by
  have hseen : ∀ {kept : Option Text} {seen : List Observation},
      kept = seen.head?.map Observation.id → (kept.isSome = true ↔ 0 < seen.length) := by
    rintro kept seen rfl
    cases seen <;> simp
  rw [h.complete]
  simp only [Bool.and_eq_true, Bool.not_eq_true', decide_eq_true_eq, hseen h.entered,
    hseen h.returned, h.duplicates, and_assoc]
  have hconflict := h.conflicting_iff
  constructor
  · rintro ⟨hentry, hreturn, hagree, hcount⟩
    refine ⟨by omega, by omega, ?_⟩
    by_contra hnot
    rw [hconflict.mpr hnot] at hagree
    cases hagree
  · rintro ⟨hentry, hreturn, hall⟩
    refine ⟨by omega, by omega, ?_, by omega⟩
    cases hmark : call.conflictingObservations with
    | false => rfl
    | true => exact absurd hall (hconflict.mp hmark)

theorem ApiCall.Records.marks (h : call.Records id os) (hmore : ∀ o ∈ more, o.IsCall id) :
    ∃ later, advanceAll (some call) more = .ok (some later) ∧
      (call.conflictingObservations = true → later.conflictingObservations = true) ∧
      call.duplicateObservations ≤ later.duplicateObservations := by
  obtain ⟨later, hlater, hrecords⟩ := advanceAll_next h hmore
  refine ⟨later, hlater, ?_, ?_⟩
  · rw [h.conflicting_iff, hrecords.conflicting_iff]
    exact fun hnot hall => hnot (fun o ho o' ho' =>
      hall o (mem_append_left _ ho) o' (mem_append_left _ ho'))
  · rw [h.duplicates, hrecords.duplicates, entries_append, returns_append, length_append,
      length_append]
    omega

/-- The order of the observations decides nothing but which came first. -/
theorem ApiCall.Records.perm {call' : ApiCall} (h : call.Records id os)
    (h' : call'.Records id more) (hperm : os.Perm more) : call'.pairComplete = call.pairComplete ∧
      call'.conflictingObservations = call.conflictingObservations ∧
      call'.duplicateObservations = call.duplicateObservations := by
  have hentries : (entries os).length = (entries more).length := (hperm.filter _).length_eq
  have hreturns : (returns os).length = (returns more).length := (hperm.filter _).length_eq
  have hagree : (∀ o ∈ more, ∀ o' ∈ more, o.identity = o'.identity) ↔
      ∀ o ∈ os, ∀ o' ∈ os, o.identity = o'.identity := by
    simp only [hperm.mem_iff]
  refine ⟨?_, ?_, ?_⟩
  · rw [Bool.eq_iff_iff, h.complete_iff, h'.complete_iff, hentries, hreturns, hagree]
  · rw [Bool.eq_iff_iff, h.conflicting_iff, h'.conflicting_iff, hagree]
  · rw [h.duplicates, h'.duplicates, hentries, hreturns]

/-- An observation that the row of a call is written by. -/
def Observation.recordsCall (o : Observation) (id : Text) : Bool :=
  o.kind.isCall && decide (o.data.backend = "frida") && decide (o.data.callId = some id)

/-- An observation of an object of that id. The worker numbers calls and objects under
prefixes of their own. -/
def Observation.Names (o : Observation) (id : Text) : Prop :=
  ∃ kind closed, observedEntity o = .ok (some (⟨some id⟩, kind, closed))

/-- The observations of a call in a log. -/
def callsOf (id : Text) (log : List Observation) : List Observation :=
  log.filter (fun o => o.recordsCall id)

/-- The collection ends behind an observation of the call. -/
def EndsBehind (id : Text) (log : List Observation) : Prop :=
  ∃ o last, o.recordsCall id = true ∧ last.kind = .collectionClosed ∧ [o, last] <+ log

/-- The row that the observations of a call leave. -/
structure CallRow (session id : Text) (log : List Observation) (rows : List LifetimeRow) : Prop where
  absent : callsOf id log = [] → row LifetimeRow.id id rows = none
  present : callsOf id log ≠ [] → ∃ call r, row LifetimeRow.id id rows = some r ∧
    r.session = session ∧ r.kind = .apiCall ∧ r.record = .call call ∧
    call.Records id (callsOf id log) ∧ (r.lastObservation.isSome = true ↔
      (∃ o ∈ callsOf id log, o.kind = .apiLeave) ∨ EndsBehind id log)

variable {session other : Text} {rows rows' : List LifetimeRow} {log : List Observation}

theorem callsOf_snoc : callsOf id (log ++ [o]) =
    callsOf id log ++ (if o.recordsCall id = true then [o] else []) := by
  rw [callsOf, filter_append, callsOf, filter_cons, filter_nil]

/-- The last observation of a log ends the collection of the calls before it. -/
theorem endsBehind_snoc : EndsBehind id (log ++ [o]) ↔
    EndsBehind id log ∨ o.kind = .collectionClosed ∧ callsOf id log ≠ [] := by
  constructor
  · rintro ⟨first, last, hfirst, hlast, hsub⟩
    obtain ⟨l, rest, hl, hin, hrest⟩ := sublist_append_iff.mp hsub
    obtain rfl | rfl := sublist_singleton.mp hrest
    · rw [append_nil] at hl
      exact .inl ⟨first, last, hfirst, hlast, hl ▸ hin⟩
    · obtain ⟨rfl, hsame⟩ := append_inj' (show [first] ++ [last] = l ++ [o] from hl) rfl
      cases hsame
      exact .inr ⟨hlast, ne_nil_of_mem
        (mem_filter.mpr ⟨singleton_sublist.mp hin, hfirst⟩)⟩
  · rintro (⟨first, last, hfirst, hlast, hsub⟩ | ⟨hlast, hcalls⟩)
    · exact ⟨first, last, hfirst, hlast, hsub.trans (sublist_append_left _ _)⟩
    · obtain ⟨first, hmem⟩ := exists_mem_of_ne_nil _ hcalls
      obtain ⟨hmem, hfirst⟩ := mem_filter.mp hmem
      exact ⟨first, o, hfirst, hlast, (singleton_sublist.mpr hmem).append (Sublist.refl [o])⟩

theorem recordEntity_other (hne : other ≠ id) (observation : Text) (kind : LifetimeKind)
    (closed : Bool) : row LifetimeRow.id id (recordEntity session observation other kind closed rows) =
      row LifetimeRow.id id rows := by
  have hinsert : ∀ inserted : List LifetimeRow, (inserted = rows ∨
      inserted = rows ++ [⟨other, session, kind, observation, none, .entity⟩]) →
      row LifetimeRow.id id inserted = row LifetimeRow.id id rows := by
    rintro _ (rfl | rfl)
    · rfl
    · rw [row_insert, if_neg hne, Option.or_none]
  unfold recordEntity
  cases closed with
  | false =>
    simp only [Bool.false_eq_true, if_false]
    exact hinsert _ (by split <;> simp)
  | true =>
    simp only [if_true]
    rw [row_rewrite_other (fun r => by split <;> rfl) (Ne.symm hne)]
    exact hinsert _ (by split <;> simp)

/-- The rows that calls are written to, with the object of the observation before, and the
rows that the end of a collection is left with. -/
theorem observe_steps (h : observe session rows o = .ok rows') (hnames : ¬ o.Names id) :
    ∃ mid last, row LifetimeRow.id id mid = row LifetimeRow.id id rows ∧
      recordCall session o mid = .ok last ∧ closeCollection session o last = rows' := by
  unfold observe at h
  simp only [except_bind_ok] at h
  obtain ⟨entity, hentity, last, hlast, h⟩ := h
  refine ⟨_, last, ?_, hlast, Except.ok.inj h⟩
  split
  · next other kind closed =>
      refine recordEntity_other ?_ o.id kind closed
      rintro rfl
      exact hnames ⟨kind, closed, hentity⟩
  · rfl

theorem upsertCall_other {closing : Option Text} {observation : Text} (hne : other ≠ id)
    (h : upsertCall session other observation closing call rows = .ok rows') :
    row LifetimeRow.id id rows' = row LifetimeRow.id id rows := by
  unfold upsertCall at h
  split at h
  · cases h
    rw [row_insert, if_neg hne, Option.or_none]
  split at h
  · cases h
    exact row_rewrite_other (fun _ => rfl) (Ne.symm hne)
  · cases h

theorem closeCollection_open (hopen : o.kind ≠ .collectionClosed) :
    closeCollection session o rows = rows := by
  unfold closeCollection
  rw [if_neg hopen]

/-- The end of a collection closes the rows of its session. -/
theorem row_closeCollection (hclosed : o.kind = .collectionClosed) :
    row LifetimeRow.id id (closeCollection session o rows) =
      (row LifetimeRow.id id rows).map (fun r =>
        if r.session = session ∧ r.lastObservation = none then
          { r with lastObservation := some o.id }
        else r) := by
  unfold closeCollection
  rw [if_pos hclosed]
  refine row_map (fun r => ?_)
  split <;> rfl

/-- An observation of something else is at most the end of the collection to a call. -/
theorem observe_other (h : observe session rows o = .ok rows') (hnames : ¬ o.Names id)
    (hcall : o.recordsCall id = false) : ∃ last,
      row LifetimeRow.id id last = row LifetimeRow.id id rows ∧
        closeCollection session o last = rows' := by
  obtain ⟨mid, last, hmid, hrecord, hlast⟩ := observe_steps h hnames
  refine ⟨last, ?_, hlast⟩
  rw [← hmid]
  unfold recordCall at hrecord
  split at hrecord
  · next hkind =>
      split at hrecord
      · cases hrecord
        rfl
      next other hother =>
        rw [except_bind_ok] at hrecord
        obtain ⟨call, -, hupsert⟩ := hrecord
        refine upsertCall_other ?_ hupsert
        rintro rfl
        rw [Observation.recordsCall, hkind, hother] at hcall
        simp at hcall
  · cases hrecord
    rfl

theorem isSome_leave (o : Observation) :
    (if o.kind = .apiLeave then some o.id else none).isSome = true ↔ o.kind = .apiLeave := by
  by_cases hleave : o.kind = .apiLeave
  · rw [if_pos hleave]
    exact ⟨fun _ => hleave, fun _ => rfl⟩
  · rw [if_neg hleave]
    exact ⟨(fun h => nomatch h), fun h => absurd h hleave⟩

/-- An observation of the call goes into its row. -/
theorem CallRow.next (hrow : CallRow session id log rows)
    (hcall : o.IsCall id) (hrecords : o.recordsCall id = true)
    (h : observe session rows o = .ok rows') (hnames : ¬ o.Names id) :
    CallRow session id (log ++ [o]) rows' := by
  have hopen : o.kind ≠ .collectionClosed := by
    rcases hcall.cases with hkind | hkind <;> rw [hkind] <;> exact ObservationKind.noConfusion
  obtain ⟨mid, last, hmid, hrecord, hlast⟩ := observe_steps h hnames
  rw [closeCollection_open hopen] at hlast
  subst hlast
  have hkind : (o.kind.isCall && decide (o.data.backend = "frida")) = true := by
    unfold Observation.recordsCall at hrecords
    exact (Bool.and_eq_true_iff.mp hrecords).1
  have hleave : (∃ o' ∈ [o], o'.kind = .apiLeave) ↔ o.kind = .apiLeave := by
    simp only [mem_singleton, exists_eq_left]
  have hends : EndsBehind id (log ++ [o]) ↔ EndsBehind id log := by
    rw [endsBehind_snoc]
    exact or_iff_left (fun hclosed => hopen hclosed.1)
  have hsnoc : callsOf id (log ++ [o]) = callsOf id log ++ [o] := by
    rw [callsOf_snoc, if_pos hrecords]
  unfold recordCall at hrecord
  rw [if_pos hkind, hcall.callId] at hrecord
  dsimp only at hrecord
  rw [except_bind_ok] at hrecord
  obtain ⟨call', hadvance, hupsert⟩ := hrecord
  refine ⟨fun hnil => absurd (hsnoc.symm.trans hnil)
    (append_ne_nil_of_right_ne_nil _ (cons_ne_nil _ _)), fun _ => ?_⟩
  rw [hsnoc, hends]
  unfold upsertCall at hupsert
  unfold priorCall at hadvance
  by_cases hnil : callsOf id log = []
  · rw [hrow.absent hnil] at hmid
    rw [hmid] at hupsert hadvance
    obtain ⟨first, hfirst, hfound⟩ := advance_first hcall
    rw [hfirst] at hadvance
    have hsame := Except.ok.inj hadvance
    subst hsame
    cases hupsert
    have hnone : ¬ EndsBehind id log := by
      rintro ⟨o', _, ho', _, hsub⟩
      have hmem : o' ∈ callsOf id log :=
        mem_filter.mpr ⟨hsub.subset mem_cons_self, ho'⟩
      rw [hnil] at hmem
      cases hmem
    refine ⟨first, ⟨id, session, .apiCall, o.id, if o.kind = .apiLeave then some o.id else none,
      .call first⟩, ?_, rfl, rfl, rfl, ?_, ?_⟩
    · rw [row_insert, hmid, if_pos rfl]
      rfl
    · rw [hnil]
      exact hfound
    · rw [hnil, nil_append, hleave, or_iff_left hnone]
      exact isSome_leave o
  · obtain ⟨call, r, hr, hsession, hkind', hrecord', hfound, hlast⟩ := hrow.present hnil
    rw [hr] at hmid
    obtain ⟨rid, rsession, rkind, rfirst, rlast, rrecord⟩ := r
    cases hsession
    cases hkind'
    cases hrecord'
    rw [hmid] at hupsert hadvance
    dsimp only at hupsert hadvance
    rw [if_pos rfl] at hadvance
    rw [if_pos ⟨rfl, rfl⟩] at hupsert
    obtain ⟨later, hnext, hlater⟩ := advance_next hcall hfound
    rw [hnext] at hadvance
    have hsame := Except.ok.inj hadvance
    subst hsame
    cases hupsert
    refine ⟨later, ⟨rid, rsession, .apiCall, rfirst,
      (if o.kind = .apiLeave then some o.id else none).or rlast, .call later⟩, ?_, rfl, rfl, rfl,
      hlater, ?_⟩
    · refine Eq.trans (row_rewrite_self ?_) ?_
      · exact fun _ => rfl
      · rw [hmid]
        rfl
    simp only [mem_append, or_and_right, exists_or]
    rw [or_right_comm, ← hlast, hleave]
    dsimp only
    rw [Option.isSome_or, Bool.or_eq_true, isSome_leave]
    exact or_comm

/-- Any other observation leaves the row as it is, or closes it. -/
theorem CallRow.aside (hrow : CallRow session id log rows) (hrecords : o.recordsCall id = false)
    (h : observe session rows o = .ok rows') (hnames : ¬ o.Names id) :
    CallRow session id (log ++ [o]) rows' := by
  obtain ⟨last, hsame, hlast⟩ := observe_other h hnames hrecords
  subst hlast
  have hsnoc : callsOf id (log ++ [o]) = callsOf id log := by
    rw [callsOf_snoc, hrecords, if_neg Bool.false_ne_true, append_nil]
  by_cases hclosed : o.kind = .collectionClosed
  · constructor
    · rw [hsnoc, row_closeCollection hclosed, hsame]
      exact fun hnil => by rw [hrow.absent hnil]; rfl
    rw [hsnoc, row_closeCollection hclosed, hsame]
    intro hcalls
    obtain ⟨call, r, hr, hsession, hkind, hrecord, hfound, hended⟩ := hrow.present hcalls
    have hends : EndsBehind id (log ++ [o]) := endsBehind_snoc.mpr (.inr ⟨hclosed, hcalls⟩)
    rw [hr, Option.map_some]
    by_cases hset : r.lastObservation = none
    · rw [if_pos ⟨hsession, hset⟩]
      exact ⟨call, _, rfl, hsession, hkind, hrecord, hfound, iff_of_true rfl (.inr hends)⟩
    · rw [if_neg (fun h => hset h.2)]
      exact ⟨call, r, rfl, hsession, hkind, hrecord, hfound,
        iff_of_true (Option.isSome_iff_ne_none.mpr hset) (.inr hends)⟩
  · have hends : EndsBehind id (log ++ [o]) ↔ EndsBehind id log := by
      rw [endsBehind_snoc]
      exact or_iff_left (fun hend => hclosed hend.1)
    rw [closeCollection_open hclosed]
    constructor
    · rw [hsnoc, hsame]
      exact hrow.absent
    · rw [hsnoc, hsame, hends]
      exact hrow.present

/-- Over a whole log, the row of a call is that of its observations. -/
theorem observeAll_callRow {more : List Observation} (hrow : CallRow session id log rows)
    (hmore : ∀ o ∈ more, ¬ o.Names id ∧ (o.recordsCall id = true → o.IsCall id))
    (h : more.foldlM (observe session) rows = .ok rows') :
    CallRow session id (log ++ more) rows' := by
  induction more generalizing log rows with
  | nil =>
    cases h
    rw [append_nil]
    exact hrow
  | cons o rest ih =>
    rw [foldlM_cons, except_bind_ok] at h
    obtain ⟨mid, hfirst, hrest⟩ := h
    obtain ⟨hnames, hiscall⟩ := hmore o mem_cons_self
    have hnext : CallRow session id (log ++ [o]) mid := by
      cases hrecords : o.recordsCall id with
      | true => exact hrow.next (hiscall hrecords) hrecords hfirst hnames
      | false => exact hrow.aside hrecords hfirst hnames
    rw [← singleton_append, ← append_assoc]
    exact ih hnext (fun o' ho' => hmore o' (mem_cons_of_mem _ ho')) hrest

/-- The record and the row of a call, from its observations in any order and among the
other observations of a session. -/
theorem apiCall_paired (id : Text) (os : List Observation) (hne : os ≠ [])
    (hos : ∀ o ∈ os, o.IsCall id) : ∃ call, advanceAll none os = .ok (some call) ∧
      (call.pairComplete = true ↔ (entries os).length = 1 ∧ (returns os).length = 1 ∧
        ∀ o ∈ os, ∀ o' ∈ os, o.identity = o'.identity) ∧
      call.entryObservation = (entries os).head?.map Observation.id ∧
      call.returnObservation = (returns os).head?.map Observation.id ∧
      (∀ more, (∀ o ∈ more, o.IsCall id) → ∃ later, advanceAll none (os ++ more) = .ok (some later) ∧
        (call.conflictingObservations = true → later.conflictingObservations = true) ∧
        call.duplicateObservations ≤ later.duplicateObservations) ∧
      (∀ os', os.Perm os' → ∃ call', advanceAll none os' = .ok (some call') ∧
        call'.pairComplete = call.pairComplete ∧
        call'.conflictingObservations = call.conflictingObservations ∧
        call'.duplicateObservations = call.duplicateObservations) ∧
      (∀ (session : Text) (rows rows' : List LifetimeRow) (log : List Observation),
        row LifetimeRow.id id rows = none → (∀ o ∈ log, ¬ o.Names id) → callsOf id log = os →
        log.foldlM (observe session) rows = .ok rows' →
        ∃ r, row LifetimeRow.id id rows' = some r ∧ r.record = .call call ∧
          (r.lastObservation.isSome = true ↔
            (∃ o ∈ os, o.kind = .apiLeave) ∨ EndsBehind id log)) := by
  obtain ⟨call, hcall, hrecords⟩ := advanceAll_records hne hos
  refine ⟨call, hcall, hrecords.complete_iff, hrecords.entered, hrecords.returned, ?_, ?_, ?_⟩
  · intro more hmore
    obtain ⟨later, hlater, hmarks⟩ := hrecords.marks hmore
    refine ⟨later, ?_, hmarks⟩
    unfold advanceAll at hcall hlater ⊢
    rw [foldlM_append, hcall]
    exact hlater
  · intro os' hperm
    have hne' : os' ≠ [] := by
      rintro rfl
      exact hne hperm.eq_nil
    obtain ⟨call', hcall', hrecords'⟩ :=
      advanceAll_records hne' (fun o ho => hos o (hperm.mem_iff.mpr ho))
    exact ⟨call', hcall', hrecords.perm hrecords' hperm⟩
  · rintro session rows rows' log hnone hlog rfl hrun
    have hstart : CallRow session id [] rows := ⟨fun _ => hnone, fun h => absurd rfl h⟩
    have hend := observeAll_callRow hstart (fun o ho => ⟨hlog o ho, fun hrec =>
      hos o (mem_filter.mpr ⟨ho, hrec⟩)⟩) hrun
    rw [nil_append] at hend
    obtain ⟨call', r, hr, -, -, hrecord, hfound, hlast⟩ := hend.present hne
    refine ⟨r, hr, ?_, hlast⟩
    rw [hrecord, hrecords.unique hfound]

/-- An observation of a call of `send`. -/
def sendObserved (id : Text) (kind : ObservationKind) (named : id ≠ []) : Observation :=
  { id := id
    kind := kind
    data :=
      { backend := "frida"
        callId := some "run_call_7"
        processId := some "process"
        api := some "send"
        threadInstance := some "thread_1" }
    named := named }

/-- The end of a collection. -/
def collectionEnded : Observation where
  id := ['c']
  kind := .collectionClosed
  data := {}
  named := by decide

/-- The collection ends behind the entry of a call: its row is closed, and no return of it was
ever recorded. -/
theorem closed_without_leave :
    let log := [sendObserved ['a'] .apiEnter (by decide), collectionEnded]
    ∃ rows r, log.foldlM (observe "s") [] = .ok rows ∧
      row LifetimeRow.id "run_call_7" rows = some r ∧ r.lastObservation.isSome = true ∧
      ∀ o ∈ log, o.kind ≠ .apiLeave := by
  refine ⟨_, _, rfl, rfl, rfl, ?_⟩
  simp only [mem_cons, not_mem_nil, or_false, forall_eq_or_imp, forall_eq]
  exact ⟨ObservationKind.noConfusion, ObservationKind.noConfusion⟩

theorem apiCall_paired_send : ∃ call,
    advanceAll none [sendObserved ['a'] .apiLeave (by decide), sendObserved ['b'] .apiEnter (by decide)] =
      .ok (some call) ∧ call.pairComplete = true := by
  have hcalls : ∀ o ∈ [sendObserved ['a'] .apiLeave (by decide),
      sendObserved ['b'] .apiEnter (by decide)], o.IsCall "run_call_7" := by
    intro o ho
    simp only [mem_cons, not_mem_nil, or_false] at ho
    rcases ho with rfl | rfl
    · exact ⟨rfl, rfl, rfl⟩
    · exact ⟨rfl, rfl, rfl⟩
  obtain ⟨call, hcall, hcomplete, -⟩ :=
    apiCall_paired "run_call_7" _ (cons_ne_nil _ _) hcalls
  refine ⟨call, hcall, hcomplete.mpr ⟨rfl, rfl, ?_⟩⟩
  intro o ho o' ho'
  simp only [mem_cons, not_mem_nil, or_false] at ho ho'
  rcases ho with rfl | rfl <;> rcases ho' with rfl | rfl <;> rfl

end Indago
