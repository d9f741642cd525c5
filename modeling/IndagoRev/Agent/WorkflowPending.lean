import IndagoRev.Agent.RuntimeMarker

/-!
# The pending workflow action

A workflow that changes something is proposed to the native controller and then run. The
owner file of the investigation names the action before it is proposed, and while it
does nothing else is proposed for this owner. A read of the native action list decides
what became of an action whose answer was lost.
-/

namespace Agent

open StdText

/-- The words of an action's status. -/
inductive ActionWord where
  | proposed | running | waitingForJob | completed | failed | cancelled | partialAnswer
  | unsupported | other
  deriving DecidableEq

/-- The action has ended. -/
def ActionWord.final (s : ActionWord) : Bool :=
  [.completed, .failed, .cancelled, .partialAnswer, .unsupported].contains s

/-- The action is not done. -/
def ActionWord.underway (s : ActionWord) : Bool := [.running, .waitingForJob, .proposed].contains s

/-- `pending` of an owner file: without an action id it says `proposing`, else `running`. -/
structure Pending where
  key : JsText
  actionId : Option JsText
  deriving DecidableEq

/-- An owner file. -/
structure OwnerFile where
  id : JsText
  pending : Option Pending

/-- A record of the native action list. -/
structure ActionRecord where
  id : JsText
  key : JsText
  status : ActionWord
  outcomeUnknown : Bool

/-- The native answer to a run, with the mark of its result. -/
structure RunAnswer where
  status : ActionWord
  outcomeUnknown : Bool
  resultUnknown : Bool
  deriving DecidableEq

/-- An outcome that is known and final. -/
def ActionRecord.known (a : ActionRecord) : Bool := !a.outcomeUnknown && a.status.final

def RunAnswer.known (a : RunAnswer) : Bool :=
  !a.outcomeUnknown && !a.resultUnknown && a.status.final

variable (p : Pending)

/-- The action that an entry is about, in a list. -/
def Pending.actionIn (records : List ActionRecord) : Option ActionRecord :=
  records.find? (fun a => some a.id == p.actionId || a.key == p.key)

/-- A page of the action list; `more` says that others follow. -/
structure ActionList where
  records : List ActionRecord
  more : Bool

/-- How far a workflow that changes something comes. It stops before the entry is written;
the entry says `proposing` and no answer is looked at; the native controller rejects the
proposal as `invalid_request`; the entry says `running` and no answer is looked at; or
the run is answered. -/
inductive MutationEnd where
  | stopped
  | proposing
  | rejected
  | running (actionId : JsText)
  | ran (actionId : JsText) (answer : RunAnswer)
  deriving DecidableEq

/-- What a call does once it has its owner. -/
inductive WorkflowTask where
  | list (answer : Option ActionList)
  | read
  | reasoning
  | mutation (key : JsText) (ending : MutationEnd)

/-- How the owner of a call is found: not at all, not after the file was created, or with
the id that a new file gets. -/
inductive OwnerEnd where
  | failed
  | created (id : JsText)
  | ready (id : JsText)

/-- A call of `execute`: the owner file's name is the hash of the target and the grants. -/
structure WorkflowCall where
  ownerKey : JsText
  owner : OwnerEnd
  task : WorkflowTask

variable (file : Option OwnerFile)

/-- `owner`: an existing file stays. -/
def ownerFile : OwnerEnd → Option OwnerFile
  | .failed => file
  | .created id => some (file.getD ⟨id, none⟩)
  | .ready id => some (file.getD ⟨id, none⟩)

variable (f : OwnerFile) (answer : Option ActionList)

/-- A read of the action list removes the entry of an ended action. -/
def listFile : OwnerFile :=
  match answer, f.pending with
  | some list, some p =>
    match p.actionIn list.records with
    | some a => if !a.outcomeUnknown && a.status.final then { f with pending := none } else f
    | none => f
  | _, _ => f

variable (key : JsText)

/-- A workflow that changes something. -/
def mutationFile (ending : MutationEnd) : OwnerFile :=
  if f.pending.isSome then f
  else
    match ending with
    | .stopped => f
    | .proposing => { f with pending := some ⟨key, none⟩ }
    | .rejected => { f with pending := none }
    | .running actionId => { f with pending := some ⟨key, some actionId⟩ }
    | .ran actionId answer =>
      if !answer.outcomeUnknown && !answer.resultUnknown && !answer.status.underway then
        { f with pending := none }
      else { f with pending := some ⟨key, some actionId⟩ }

/-- The file of the owner after a call. -/
def executeFile (c : WorkflowCall) : Option OwnerFile :=
  match c.owner, ownerFile file c.owner with
  | .ready _, some f =>
    match c.task with
    | .list answer => some (listFile f answer)
    | .mutation key ending => some (mutationFile f key ending)
    | _ => some f
  | _, file => file

/-- The entry of a file. -/
def entry : Option Pending := file.bind OwnerFile.pending

/-- The call sends a proposal. -/
def WorkflowCall.proposes (c : WorkflowCall) : Bool :=
  match c.owner, c.task with
  | .ready _, .mutation _ ending => (entry file).isNone && ending != .stopped
  | _, _ => false

/-- The key of the action whose outcome a proposal leaves unknown. A rejected one was never
created. -/
def WorkflowTask.opens : WorkflowTask → Option JsText
  | .mutation key .proposing => some key
  | .mutation key (.running _) => some key
  | .mutation key (.ran _ answer) => if answer.known then none else some key
  | _ => none

/-- What the list of a read shows: the action has ended, or there is none. -/
def Pending.settledBy (list : ActionList) : Bool :=
  match p.actionIn list.records with
  | some a => a.known
  | none => !list.more

def WorkflowCall.settles (c : WorkflowCall) : Bool :=
  match c.owner, c.task with
  | .ready _, .list (some list) => p.settledBy list
  | _, _ => false

/-- The owner files of a directory, with the owners and keys of the actions whose outcome
is unknown. -/
structure WorkflowState where
  files : JsText → Option OwnerFile := fun _ => none
  unknown : List (JsText × JsText) := []

variable (s : WorkflowState)

def workflowStep (c : WorkflowCall) : WorkflowState where
  files := Function.update s.files c.ownerKey (executeFile (s.files c.ownerKey) c)
  unknown :=
    s.unknown.filter (fun u => !(u.1 == c.ownerKey &&
      (entry (s.files c.ownerKey)).any (fun p => p.key == u.2 && c.settles p))) ++
      if c.proposes (s.files c.ownerKey) then
        (c.task.opens.map (fun key => (c.ownerKey, key))).toList
      else []

def workflowRun (calls : List WorkflowCall) : WorkflowState :=
  calls.foldl workflowStep s

/-- The entries of the owner files are those of the actions whose outcome is unknown. -/
def EntriesRight : Prop :=
  ∀ owner key, (owner, key) ∈ s.unknown ↔ ∃ p, entry (s.files owner) = some p ∧ p.key = key

/-- A call keeps to one mutation at a time: it proposes nothing while an outcome is unknown,
and afterwards the entries are right. -/
structure OneMutation (s : WorkflowState) (c : WorkflowCall) : Prop where
  proposes : c.proposes (s.files c.ownerKey) = true → s.unknown = []
  entries : EntriesRight (workflowStep s c)

/-- A call that the entries can follow. -/
structure Reconciled (s : WorkflowState) (c : WorkflowCall) : Prop where
  /-- A proposal is sent only if no owner file of the directory has an entry. -/
  alone : c.proposes (s.files c.ownerKey) = true → ∀ owner, entry (s.files owner) = none
  /-- A run is not answered with a status that is neither under way nor final. -/
  answered : ∀ id key actionId answer, c.owner = .ready id →
    c.task = .mutation key (.ran actionId answer) → entry (s.files c.ownerKey) = none →
    answer.outcomeUnknown = false → answer.resultUnknown = false →
    answer.status.underway = true ∨ answer.status.final = true
  /-- A complete action list that is read while there is an entry has its action. -/
  listed : ∀ id list p, c.owner = .ready id → c.task = .list (some list) →
    entry (s.files c.ownerKey) = some p → list.more = false →
    (p.actionIn list.records).isSome = true

variable {s : WorkflowState} {c : WorkflowCall} {file : Option OwnerFile}

theorem entry_ownerFile (owner : OwnerEnd) : entry (ownerFile file owner) = entry file := by
  cases owner <;> cases file <;> rfl

/-- What the list of a read leaves of an entry. -/
def listEntry : Option ActionList → Option Pending → Option Pending
  | some list, some p => if (p.actionIn list.records).any ActionRecord.known then none else some p
  | _, e => e

theorem listFile_pending : (listFile f answer).pending = listEntry answer f.pending := by
  cases answer with
  | none => rfl
  | some list =>
    cases hpending : f.pending with
    | none => simp [listFile, listEntry, hpending]
    | some p =>
      cases haction : p.actionIn list.records with
      | none => simp [listFile, listEntry, hpending, haction]
      | some a =>
        by_cases hknown : (!a.outcomeUnknown && a.status.final) = true
        · have hknown' : a.known = true := hknown
          simp only [listFile, listEntry, hpending, haction, hknown, if_true,
            Option.any_some, hknown']
        have hknown' : ¬ a.known = true := hknown
        simp only [listFile, listEntry, hpending, haction, if_neg hknown,
          Option.any_some, hknown']
        rfl

theorem entry_list {id : JsText} {answer : Option ActionList} (howner : c.owner = .ready id)
    (htask : c.task = .list answer) :
    entry (executeFile file c) = listEntry answer (entry file) := by
  unfold executeFile
  rw [howner, htask]
  cases file with
  | none => exact listFile_pending ⟨id, none⟩ answer
  | some f => exact listFile_pending f answer

/-- The entry that a workflow leaves where there was none. -/
def mutationEntry : MutationEnd → Option Pending
  | .stopped => none
  | .proposing => some ⟨key, none⟩
  | .rejected => none
  | .running actionId => some ⟨key, some actionId⟩
  | .ran actionId answer =>
    if !answer.outcomeUnknown && !answer.resultUnknown && !answer.status.underway then none
    else some ⟨key, some actionId⟩

theorem mutationFile_pending (ending : MutationEnd) : (mutationFile f key ending).pending =
      if f.pending.isSome then f.pending else mutationEntry key ending := by
  unfold mutationFile
  cases hpending : f.pending with
  | some p => simp [hpending]
  | none =>
    cases ending with
    | ran actionId answer =>
      simp only [Option.isSome_none, Bool.false_eq_true, if_false, mutationEntry]
      split <;> rfl
    | stopped => simp [hpending, mutationEntry]
    | _ => rfl

variable {ending : MutationEnd} {id key : JsText}

theorem entry_mutation (howner : c.owner = .ready id) (htask : c.task = .mutation key ending) :
    entry (executeFile file c) =
      if (entry file).isSome then entry file else mutationEntry key ending := by
  unfold executeFile
  rw [howner, htask]
  cases file with
  | none => exact mutationFile_pending ⟨id, none⟩ key ending
  | some f => exact mutationFile_pending f key ending

/-- A call that proposes nothing and reads no action list leaves the entry. -/
theorem entry_other (hproposes : c.proposes file = false)
    (hlist : ∀ id answer, c.owner = .ready id → c.task ≠ .list (some answer)) :
    entry (executeFile file c) = entry file := by
  cases howner : c.owner with
  | failed =>
    unfold executeFile
    rw [howner]
    exact entry_ownerFile _
  | created id =>
    unfold executeFile
    rw [howner]
    exact entry_ownerFile _
  | ready id =>
    cases htask : c.task with
    | list answer =>
      cases answer with
      | none => exact entry_list howner htask
      | some list => exact absurd htask (hlist id list howner)
    | read =>
      unfold executeFile
      rw [howner, htask]
      exact entry_ownerFile (.ready id)
    | reasoning =>
      unfold executeFile
      rw [howner, htask]
      exact entry_ownerFile (.ready id)
    | mutation key ending =>
      cases hentry : entry file with
      | none =>
        have hstopped : ending = .stopped := by
          simpa [WorkflowCall.proposes, howner, htask, hentry] using hproposes
        rw [entry_mutation howner htask, hentry, hstopped]
        rfl
      | some p =>
        rw [entry_mutation howner htask, hentry]
        rfl

/-- What is known between calls: no file has an entry and no outcome is unknown, or one
file has the entry of the one action whose outcome is. -/
inductive EntriesKnown : WorkflowState → Prop
  | clear (files : JsText → Option OwnerFile) : (∀ owner, entry (files owner) = none) →
      EntriesKnown ⟨files, []⟩
  | pending (files : JsText → Option OwnerFile) (k : JsText) (p : Pending) :
      entry (files k) = some p → (∀ owner, owner ≠ k → entry (files owner) = none) →
      EntriesKnown ⟨files, [(k, p.key)]⟩

theorem known_clear (hunknown : s.unknown = []) (hnone : ∀ owner, entry (s.files owner) = none) :
    EntriesKnown s := by
  obtain ⟨files, unknown⟩ := s
  subst hunknown
  exact .clear files hnone

variable {p : Pending} {k : JsText}

theorem known_pending (hunknown : s.unknown = [(k, p.key)])
    (hp : entry (s.files k) = some p) (hothers : ∀ owner, owner ≠ k → entry (s.files owner) = none) :
    EntriesKnown s := by
  obtain ⟨files, unknown⟩ := s
  subst hunknown
  exact .pending files k p hp hothers

theorem EntriesKnown.right (h : EntriesKnown s) : EntriesRight s := by
  intro owner key
  cases h with
  | clear files hnone => simp [hnone]
  | pending files k p hp hothers =>
    by_cases howner : owner = k
    · subst howner
      simp [hp, eq_comm]
    · simp [howner, hothers owner howner]

theorem entry_step (owner : JsText) : entry ((workflowStep s c).files owner) =
      if owner = c.ownerKey then entry (executeFile (s.files c.ownerKey) c)
      else entry (s.files owner) := by
  unfold workflowStep
  by_cases howner : owner = c.ownerKey
  · subst howner
    simp
  · simp [howner]

variable {files : JsText → Option OwnerFile}

theorem step_idle (hnone : ∀ owner, entry (files owner) = none)
    (hproposes : c.proposes (files c.ownerKey) = false) :
    EntriesKnown (workflowStep ⟨files, []⟩ c) := by
  have hunknown : (workflowStep ⟨files, []⟩ c).unknown = [] := by
    simp [workflowStep, hproposes]
  have hentries : ∀ owner, entry ((workflowStep ⟨files, []⟩ c).files owner) = none := by
    intro owner
    rw [entry_step]
    split
    · by_cases hlist : ∃ id list, c.owner = .ready id ∧ c.task = .list (some list)
      · obtain ⟨id, list, howner, htask⟩ := hlist
        rw [entry_list howner htask, hnone]
        rfl
      · rw [entry_other hproposes fun id list howner htask => hlist ⟨id, list, howner, htask⟩]
        exact hnone _
    · exact hnone owner
  exact known_clear hunknown hentries

theorem step_proposal (hnone : ∀ owner, entry (files owner) = none) (howner : c.owner = .ready id)
    (htask : c.task = .mutation key ending) (hsent : ending ≠ .stopped) :
    (workflowStep ⟨files, []⟩ c).unknown =
        (c.task.opens.map (fun key => (c.ownerKey, key))).toList ∧
      ∀ owner, entry ((workflowStep ⟨files, []⟩ c).files owner) =
        if owner = c.ownerKey then mutationEntry key ending else none := by
  have hproposes : c.proposes (files c.ownerKey) = true := by
    simp [WorkflowCall.proposes, howner, htask, hnone, hsent]
  refine ⟨by simp [workflowStep, hproposes], fun owner => ?_⟩
  rw [entry_step, entry_mutation howner htask, hnone]
  split
  · rfl
  · exact hnone owner

/-- With a proposal, all is known again if its answer is one that the entries can follow. -/
theorem proposal_known (hnone : ∀ owner, entry (files owner) = none) (howner : c.owner = .ready id)
    (htask : c.task = .mutation key ending) (hsent : ending ≠ .stopped)
    (hright : (mutationEntry key ending).map Pending.key = c.task.opens) :
    EntriesKnown (workflowStep ⟨files, []⟩ c) := by
  obtain ⟨hunknown, hentries⟩ := step_proposal hnone howner htask hsent
  rw [← hright] at hunknown
  cases hentry : mutationEntry key ending with
  | none =>
    refine known_clear (by rw [hunknown, hentry]; rfl) fun owner => ?_
    rw [hentries, hentry]
    split <;> rfl
  | some p =>
    refine known_pending (by rw [hunknown, hentry]; rfl) ?_ ?_
    · rw [hentries, if_pos rfl, hentry]
    · intro owner hne
      rw [hentries, if_neg hne]

/-- The entry of a proposal is right unless its run is answered with a status that is
neither under way nor final. -/
theorem mutationEntry_opens {key : JsText} :
    (mutationEntry key ending).map Pending.key = (WorkflowTask.mutation key ending).opens ↔
      ∀ actionId answer, ending = .ran actionId answer → answer.outcomeUnknown = false →
        answer.resultUnknown = false → answer.status.underway = true ∨ answer.status.final = true := by
  cases ending with
  | ran actionId answer =>
    obtain ⟨status, outcome, result⟩ := answer
    cases outcome <;> cases result <;> cases status <;>
      simp [mutationEntry, WorkflowTask.opens, RunAnswer.known, ActionWord.underway,
        ActionWord.final]
  | _ => simp [mutationEntry, WorkflowTask.opens]

theorem unknown_pending (hproposes : c.proposes (files c.ownerKey) = false) :
    (workflowStep ⟨files, [(k, p.key)]⟩ c).unknown = if k = c.ownerKey ∧
          (entry (files c.ownerKey)).any (fun q => q.key == p.key && c.settles q) = true then []
      else [(k, p.key)] := by
  by_cases hsettled : k = c.ownerKey ∧
      (entry (files c.ownerKey)).any (fun q => q.key == p.key && c.settles q) = true
  · rw [if_pos hsettled]
    simp [workflowStep, hproposes, hsettled.1, hsettled.2]
  have hfalse : (k == c.ownerKey &&
      (entry (files c.ownerKey)).any (fun q => q.key == p.key && c.settles q)) = false := by
    by_contra hno
    simp only [Bool.not_eq_false, Bool.and_eq_true, beq_iff_eq] at hno
    exact hsettled hno
  rw [if_neg hsettled]
  simp only [workflowStep, hproposes, List.filter_cons, hfalse]
  rfl

/-- Where one file has an entry, all is known after a call that proposes nothing and reads
no complete list without the action. -/
theorem pending_known
    (hp : entry (files k) = some p) (hothers : ∀ owner, owner ≠ k → entry (files owner) = none)
    (hproposes : c.proposes (files c.ownerKey) = false)
    (hlisted : ∀ id list q, c.owner = .ready id → c.task = .list (some list) →
      entry (files c.ownerKey) = some q → list.more = false →
      (q.actionIn list.records).isSome = true) :
    EntriesKnown (workflowStep ⟨files, [(k, p.key)]⟩ c) := by
  have hunknown := unknown_pending (k := k) (p := p) hproposes
  by_cases hlist : ∃ id list, c.owner = .ready id ∧ c.task = .list (some list)
  · obtain ⟨id, list, howner, htask⟩ := hlist
    by_cases hk : c.ownerKey = k
    · subst hk
      have hsettles : c.settles p = p.settledBy list := by
        simp [WorkflowCall.settles, howner, htask]
      have hentry : entry (executeFile (files c.ownerKey) c) = listEntry (some list) (some p) := by
        rw [entry_list howner htask, hp]
      have hothers' : ∀ owner, owner ≠ c.ownerKey →
          entry ((workflowStep ⟨files, [(c.ownerKey, p.key)]⟩ c).files owner) = none := by
        intro owner hne
        rw [entry_step, if_neg hne]
        exact hothers owner hne
      by_cases hgone : p.settledBy list = true
      · -- the list shows the end of the action
        have hknown : (p.actionIn list.records).any ActionRecord.known = true := by
          unfold Pending.settledBy at hgone
          cases haction : p.actionIn list.records with
          | none =>
            have hsome := hlisted id list p howner htask hp (by simpa [haction] using hgone)
            rw [haction] at hsome
            cases hsome
          | some a => simpa [haction] using hgone
        refine known_clear ?_ fun owner => ?_
        · rw [hunknown, if_pos]
          simp [hp, hsettles, hgone]
        by_cases hne : owner = c.ownerKey
        · subst hne
          rw [entry_step, if_pos rfl, hentry]
          simp [listEntry, hknown]
        · exact hothers' owner hne
      · have hknown : ¬ (p.actionIn list.records).any ActionRecord.known = true := by
          intro hknown
          apply hgone
          unfold Pending.settledBy
          cases haction : p.actionIn list.records with
          | none => simp [haction] at hknown
          | some a => simpa [haction] using hknown
        refine known_pending (k := c.ownerKey) (p := p) ?_ ?_ hothers'
        · rw [hunknown, if_neg]
          simp [hp, hsettles, hgone]
        · rw [entry_step, if_pos rfl, hentry]
          simp [listEntry, hknown]
    · have hnone := hothers c.ownerKey hk
      refine known_pending (k := k) (p := p) ?_ ?_ fun owner hne => ?_
      · rw [hunknown, if_neg fun h => hk h.1.symm]
      · rw [entry_step, if_neg (Ne.symm hk)]
        exact hp
      rw [entry_step]
      split
      · rw [entry_list howner htask, hnone]
        rfl
      · exact hothers owner hne
  · have hsettles : ∀ q, c.settles q = false := by
      intro q
      unfold WorkflowCall.settles
      split
      · next id list howner htask => exact absurd ⟨id, list, howner, htask⟩ hlist
      · rfl
    have hentry : entry (executeFile (files c.ownerKey) c) = entry (files c.ownerKey) :=
      entry_other hproposes fun id list howner htask => hlist ⟨id, list, howner, htask⟩
    have hsame : ∀ owner, entry ((workflowStep ⟨files, [(k, p.key)]⟩ c).files owner) =
        entry (files owner) := by
      intro owner
      rw [entry_step]
      split
      · next h => rw [hentry, h]
      · rfl
    refine known_pending (k := k) (p := p) ?_ ((hsame k).trans hp) fun owner hne =>
      (hsame owner).trans (hothers owner hne)
    rw [hunknown, if_neg]
    simp [hsettles]

/-- The other way round, a complete list without the action leaves its entry. -/
theorem pending_right
    (hp : entry (files k) = some p) (hothers : ∀ owner, owner ≠ k → entry (files owner) = none)
    (hproposes : c.proposes (files c.ownerKey) = false)
    (hright : EntriesRight (workflowStep ⟨files, [(k, p.key)]⟩ c)) (id : JsText)
    (list : ActionList) (q : Pending) (howner : c.owner = .ready id)
    (htask : c.task = .list (some list)) (hq : entry (files c.ownerKey) = some q)
    (hmore : list.more = false) : (q.actionIn list.records).isSome = true := by
  have hk : c.ownerKey = k := by
    by_contra hne
    rw [hothers c.ownerKey hne] at hq
    cases hq
  subst hk
  rw [hp] at hq
  cases hq
  by_contra hno
  have hnone := Option.not_isSome_iff_eq_none.mp hno
  have hsettles : c.settles p = true := by
    simp [WorkflowCall.settles, howner, htask, Pending.settledBy, hnone, hmore]
  have hmem := (hright c.ownerKey p.key).mpr ⟨p, by
    rw [entry_step, if_pos rfl, entry_list howner htask]
    show listEntry (some list) (entry (files c.ownerKey)) = some p
    rw [hp]
    simp [listEntry, hnone], rfl⟩
  rw [unknown_pending hproposes, if_pos] at hmem
  · cases hmem
  · simp [hp, hsettles]

theorem proposes_some (h : c.proposes file = true) : ∃ id key ending, c.owner = .ready id ∧
    c.task = .mutation key ending ∧ ending ≠ .stopped ∧ entry file = none := by
  unfold WorkflowCall.proposes at h
  split at h
  · next id key ending howner htask =>
      simp only [Bool.and_eq_true, Option.isNone_iff_eq_none, bne_iff_ne] at h
      exact ⟨id, key, ending, howner, htask, h.2, h.1⟩
  · cases h

theorem proposes_ran {id key actionId : JsText} {answer : RunAnswer} (howner : c.owner = .ready id)
    (htask : c.task = .mutation key (.ran actionId answer)) (hnone : entry file = none) :
    c.proposes file = true := by
  simp [WorkflowCall.proposes, howner, htask, hnone]

/-- Where no file has an entry, a proposal keeps the entries right exactly where they can
follow its answer. -/
theorem proposal_right (hnone : ∀ owner, entry (files owner) = none) (howner : c.owner = .ready id)
    (htask : c.task = .mutation key ending) (hsent : ending ≠ .stopped)
    (hright : EntriesRight (workflowStep ⟨files, []⟩ c)) :
    (mutationEntry key ending).map Pending.key = c.task.opens := by
  obtain ⟨hunknown, hentries⟩ := step_proposal hnone howner htask hsent
  apply Option.ext
  intro x
  have hx := hright c.ownerKey x
  rw [hunknown, hentries, if_pos rfl] at hx
  simp only [Option.mem_toList, Option.map_eq_some_iff, Prod.mk.injEq, true_and,
    exists_eq_right] at hx
  rw [Option.map_eq_some_iff, hx]

/-- A call keeps to one mutation at a time exactly where the entries can follow it, and then
all is known again. -/
theorem step_reconciled (hknown : EntriesKnown s) :
    (OneMutation s c ↔ Reconciled s c) ∧ (Reconciled s c → EntriesKnown (workflowStep s c)) := by
  cases hknown with
  | clear files hnone =>
    by_cases hproposes : c.proposes (files c.ownerKey) = true
    · obtain ⟨id, key, ending, howner, htask, hsent, _⟩ := proposes_some hproposes
      have hlast : Reconciled ⟨files, []⟩ c → EntriesKnown (workflowStep ⟨files, []⟩ c) := by
        intro h
        refine proposal_known hnone howner htask hsent ?_
        rw [htask]
        refine mutationEntry_opens.mpr fun actionId answer hran => ?_
        exact h.answered id key actionId answer howner (hran ▸ htask) (hnone _)
      refine ⟨⟨fun h => ?_, fun h => ⟨fun _ => rfl, (hlast h).right⟩⟩, hlast⟩
      have hopens := proposal_right hnone howner htask hsent h.entries
      rw [htask] at hopens
      refine ⟨fun _ => hnone, ?_, fun _ _ p _ _ hp => ?_⟩
      · intro id' key' actionId answer _ htask' _
        rw [htask] at htask'
        cases htask'
        exact mutationEntry_opens.mp hopens actionId answer rfl
      · have hno := hnone c.ownerKey
        rw [show entry (files c.ownerKey) = some p from hp] at hno
        cases hno
    · rw [Bool.not_eq_true] at hproposes
      have hstep := step_idle hnone hproposes
      refine ⟨⟨fun _ => ⟨fun h => ?_, ?_, fun _ _ p _ _ hp => ?_⟩, fun _ => ⟨fun _ => ?_, hstep.right⟩⟩,
        fun _ => hstep⟩
      · rw [hproposes] at h
        cases h
      · intro id key actionId answer howner htask hentry
        rw [proposes_ran howner htask hentry] at hproposes
        cases hproposes
      · have hno := hnone c.ownerKey
        rw [show entry (files c.ownerKey) = some p from hp] at hno
        cases hno
      · rfl
  | pending files k p hp hothers =>
    by_cases hproposes : c.proposes (files c.ownerKey) = true
    · have hno : ¬ Reconciled ⟨files, [(k, p.key)]⟩ c := by
        intro h
        have hnone : entry (files k) = none := h.alone hproposes k
        rw [hp] at hnone
        cases hnone
      refine ⟨⟨fun h => ?_, fun h => absurd h hno⟩, fun h => absurd h hno⟩
      have hempty := h.proposes hproposes
      cases hempty
    · rw [Bool.not_eq_true] at hproposes
      refine ⟨⟨fun h => ⟨fun h' => ?_, ?_, ?_⟩, fun h => ⟨fun h' => ?_, ?_⟩⟩, fun h => ?_⟩
      · rw [hproposes] at h'
        cases h'
      · intro id key actionId answer howner htask hentry
        rw [proposes_ran howner htask hentry] at hproposes
        cases hproposes
      · exact pending_right hp hothers hproposes h.entries
      · rw [hproposes] at h'
        cases h'
      · exact (pending_known hp hothers hproposes h.listed).right
      · exact pending_known hp hothers hproposes h.listed

/-- From a state in which all is known, a run keeps to one mutation at a time exactly where
the entries can follow all its calls. -/
theorem run_reconciled (hknown : EntriesKnown s) (calls : List WorkflowCall) :
    (∀ before c after, calls = before ++ c :: after → OneMutation (workflowRun s before) c) ↔
      ∀ before c after, calls = before ++ c :: after → Reconciled (workflowRun s before) c := by
  induction calls generalizing s with
  | nil => simp
  | cons c rest ih =>
    constructor
    · intro hone before d after h
      have hfirst : Reconciled s c := (step_reconciled hknown).1.mp (hone [] c rest rfl)
      have hrest : ∀ before d after, rest = before ++ d :: after →
          OneMutation (workflowRun (workflowStep s c) before) d :=
        fun before d after h => hone (c :: before) d after (by rw [h]; rfl)
      cases before with
      | nil =>
        cases h
        exact hfirst
      | cons e before =>
        cases h
        exact (ih ((step_reconciled hknown).2 hfirst)).mp hrest before d after rfl
    · intro hall before d after h
      have hfirst : Reconciled s c := hall [] c rest rfl
      have hrest : ∀ before d after, rest = before ++ d :: after →
          Reconciled (workflowRun (workflowStep s c) before) d :=
        fun before d after h => hall (c :: before) d after (by rw [h]; rfl)
      cases before with
      | nil =>
        cases h
        exact (step_reconciled hknown).1.mpr hfirst
      | cons e before =>
        cases h
        exact (ih ((step_reconciled hknown).2 hfirst)).mpr hrest before d after rfl

/-- In every run of calls on one directory, with any answers and failures, no proposal is
sent while an outcome is unknown and the entries are those of the unknown outcomes, if
and only if the entries can follow every call of the run. -/
theorem one_mutation_iff (calls : List WorkflowCall) :
    (∀ before c after, calls = before ++ c :: after → OneMutation (workflowRun {} before) c) ↔
      ∀ before c after, calls = before ++ c :: after → Reconciled (workflowRun {} before) c :=
  run_reconciled (.clear _ fun _ => rfl) calls

/-- The process ends after the entry was written and before anything is proposed. -/
def lostProposal : WorkflowCall :=
  ⟨js "owner", .ready (js "inv_1"), .mutation (js "pi_1") .proposing⟩

/-- The complete action list is empty. -/
def emptyList : WorkflowCall :=
  ⟨js "owner", .ready (js "inv_1"), .list (some ⟨[], false⟩)⟩

/-- After a read that shows that the action does not exist its entry is still there, and
blocks all others. -/
theorem absent_action_blocks : ¬ OneMutation (workflowRun {} [lostProposal]) emptyList := by
  intro h
  have hentry : entry ((workflowStep (workflowRun {} [lostProposal]) emptyList).files
      (js "owner")) = some ⟨js "pi_1", none⟩ := by decide
  have hunknown : (workflowStep (workflowRun {} [lostProposal]) emptyList).unknown = [] := by decide
  have hmem := (h.entries (js "owner") (js "pi_1")).mpr ⟨_, hentry, rfl⟩
  rw [hunknown] at hmem
  cases hmem

end Agent
