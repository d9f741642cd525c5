import IndagoRev.Agent.QuestionQueue

/-!
# The marker of uncertain runtime operations

Before a runtime operation that changes something is sent, its marker is written to the
file `runtime-pending.json`, and while the file is there no other such operation is
sent. The marker goes when the answer is final, or when a later read finds that the
operation has ended.
-/

namespace Agent

open StdText List

/-- The operations of the runtime. -/
inductive RuntimeOperation where
  | ioRun | capabilities | payloads | launch | attach | instrument | record | replay | sessions
  | status | request | modules | threads | continue | pause | step | stepOver | stepOut | stack
  | crash | watchpoint | breakpoints | processes | selectProcess | validateWitness | breakpoint
  | removeBreakpoint | registers | memory | capture | resolve | trace | cancel | observations
  | network | solveInput | symbolic | detach | terminate | reanalyze | feedback | lineage | recipes
  | identities
  deriving DecidableEq

/-- `runtimeReads`. -/
def runtimeReads : List RuntimeOperation :=
  [.capabilities, .payloads, .recipes, .sessions, .status, .request, .observations, .network,
    .identities, .lineage]

/-- `mutation`. -/
def RuntimeOperation.mutation (op : RuntimeOperation) : Bool :=
  !runtimeReads.contains op && ! [.request, .cancel, .detach, .terminate].contains op

/-- The words of a `status` or a `state` that something depends on. -/
inductive RuntimeStatus where
  | pending | starting | running | completed | partialAnswer | failed | cancelled | unavailable
  | detached | exited | terminated | interrupted | other
  deriving DecidableEq

variable (s : RuntimeStatus)

/-- The operation goes on. -/
def RuntimeStatus.goesOn : Bool := [.pending, .starting, .running].contains s

/-- What the answer to a request says when the request has ended. -/
def RuntimeStatus.ended : Bool :=
  [.completed, .partialAnswer, .failed, .cancelled, .unavailable].contains s

/-- The states of a session that has ended. -/
def RuntimeStatus.over : Bool :=
  [.completed, .detached, .exited, .terminated, .cancelled, .failed].contains s

/-- The fields of the native answer that are looked at. -/
structure RuntimeReply where
  status : RuntimeStatus
  state : RuntimeStatus
  sessionId : Option JsText
  requestId : Option JsText
  workerAlive : Bool
  deriving DecidableEq

/-- `runtime-pending.json`; without a status it says `dispatching`. -/
structure Marker where
  operation : RuntimeOperation
  session : Option JsText
  requestId : Option JsText
  status : Option RuntimeStatus

/-- The session and the request that an operation has in the native runtime. -/
structure Dispatched where
  session : Option JsText
  request : Option JsText

/-- How far a call comes: not to the native call, to one without an answer (it fails or
times out, or the process ends before the answer is looked at), or to an answer. -/
inductive RuntimeEnd where
  | stopped
  | lost
  | answered (reply : RuntimeReply)
  deriving DecidableEq

/-- A call, with what the native runtime makes of it where no answer names it. -/
structure RuntimeCall where
  operation : RuntimeOperation
  session : Option JsText
  id : Option JsText
  ending : RuntimeEnd
  created : Dispatched

variable (c : RuntimeCall)

/-- The schemas demand the session of a read, and the id of a request. -/
def RuntimeCall.valid : Bool :=
  match c.operation with
  | .request => c.session.isSome && c.id.isSome
  | .status => c.session.isSome
  | _ => true

section Runtime

-- whether the operator granted `host` authority
variable (host : Bool) (reply : RuntimeReply)

/-- Only an answer that ends the request of the marker removes it. -/
def clearRequest (m : Marker) : Option Marker :=
  if m.session = c.session ∧ m.requestId = c.id ∧
      [RuntimeStatus.completed, .failed, .cancelled].contains reply.status = true then none
  else some m

/-- The end of the marker's session removes it as well. -/
def clearStatus (m : Marker) : Option Marker :=
  if m.session = c.session ∧ reply.workerAlive = false ∧ reply.state.over = true then none
  else some m

/-- The file after a mutation that is sent. -/
def dispatchMarker : Option Marker :=
  match c.ending with
  | .stopped => none
  | .lost => some ⟨c.operation, c.session, none, none⟩
  | .answered reply =>
    if reply.status.goesOn && reply.requestId.isSome then
      some ⟨c.operation, reply.sessionId, reply.requestId, some reply.status⟩
    else none

variable (marker : Option Marker)

/-- The file after a call. -/
def runtime (c : RuntimeCall) : Option Marker :=
  if c.valid = false ∨ (runtimeReads.contains c.operation = false ∧ host = false) then marker
  else if c.operation.mutation then
    match marker with
    | some m => some m
    | none => dispatchMarker c
  else
    match c.ending with
    | .answered reply =>
      match c.operation with
      | .request => marker.bind (clearRequest c reply)
      | .status => marker.bind (clearStatus c reply)
      | _ => marker
    | _ => marker

/-- The call sends a mutation. -/
def RuntimeCall.dispatches (c : RuntimeCall) : Bool :=
  c.operation.mutation && host && marker.isNone && c.ending != .stopped

/-- The mutation whose outcome the call leaves unknown: there is no answer, or it says
that the operation goes on. -/
def RuntimeCall.opens : List Dispatched :=
  match c.ending with
  | .stopped => []
  | .lost => [c.created]
  | .answered reply =>
    if reply.status.goesOn then
      match reply.requestId with
      | some id => [⟨reply.sessionId, some id⟩]
      | none => [c.created]
    else []

/-- The call reads that an operation has ended: its request is answered, or its session is
over. -/
def RuntimeCall.settles (o : Dispatched) : Bool :=
  c.valid &&
    match c.ending with
    | .answered reply =>
      (c.operation == .request && o.session == c.session && o.request == c.id &&
          reply.status.ended) ||
        (c.operation == .status && o.session == c.session && reply.state.over)
    | _ => false

/-- The file, with the mutations whose outcome is unknown. -/
structure RuntimeState where
  marker : Option Marker := none
  unknown : List Dispatched := []

def runtimeStep (s : RuntimeState) (c : RuntimeCall) : RuntimeState where
  marker := runtime host s.marker c
  unknown :=
    s.unknown.filter (fun o => !c.settles o) ++
      if c.dispatches host s.marker then c.opens else []

def runtimeRun (s : RuntimeState) (calls : List RuntimeCall) : RuntimeState :=
  calls.foldl (runtimeStep host) s

/-- The marker is there exactly while an outcome is unknown, and nothing is sent then. -/
structure MarkerKept (s : RuntimeState) : Prop where
  marked : s.marker.isSome = true ↔ s.unknown ≠ []
  blocked : ∀ c : RuntimeCall, c.dispatches host s.marker = true → s.unknown = []

/-- A call whose answer the marker can follow. -/
structure Followed (s : RuntimeState) (c : RuntimeCall) : Prop where
  /-- An answer that a mutation goes on names its request. -/
  named : ∀ reply, c.dispatches host s.marker = true → c.ending = .answered reply →
    reply.status.goesOn = true → reply.requestId.isSome = true
  /-- An answer that ends a request of unknown outcome spells this in one of three ways,
  and the marker names the request. -/
  request : ∀ reply m o, c.valid = true → c.operation = .request → c.ending = .answered reply →
    s.marker = some m → o ∈ s.unknown → o.session = c.session → o.request = c.id →
    reply.status.ended = true →
    m.session = c.session ∧ m.requestId = c.id ∧
      [RuntimeStatus.completed, .failed, .cancelled].contains reply.status = true
  /-- A session of an operation of unknown outcome that is over has no live worker, and the
  marker names it. -/
  status : ∀ reply m o, c.valid = true → c.operation = .status → c.ending = .answered reply →
    s.marker = some m → o ∈ s.unknown → o.session = c.session → reply.state.over = true →
    m.session = c.session ∧ reply.workerAlive = false
  /-- A session that the marker names and that is over is the operation's own. -/
  own : ∀ reply m o, c.valid = true → c.operation = .status → c.ending = .answered reply →
    s.marker = some m → o ∈ s.unknown → m.session = c.session → reply.workerAlive = false →
    reply.state.over = true → o.session = c.session

end Runtime

variable {host : Bool} {s : RuntimeState} {c : RuntimeCall}

/-- What is known between calls: there is no marker and no unknown outcome, or one of
each, and a request that the marker names is the operation's. -/
inductive MarkerKnown : RuntimeState → Prop
  | clear : MarkerKnown ⟨none, []⟩
  | marked (m : Marker) (o : Dispatched) :
      (m.requestId.isSome = true → m.session = o.session ∧ m.requestId = o.request) →
      MarkerKnown ⟨some m, [o]⟩

theorem MarkerKnown.kept (h : MarkerKnown s) : MarkerKept host s := by
  cases h with
  | clear => exact ⟨by simp, fun _ _ => rfl⟩
  | marked m o _ => exact ⟨by simp, fun c hc => by simp [RuntimeCall.dispatches] at hc⟩

/-- A call without a marker: only a mutation that is sent changes anything. -/
theorem step_clear : runtimeStep host ⟨none, []⟩ c =
      if c.dispatches host none = true then ⟨dispatchMarker c, c.opens⟩ else ⟨none, []⟩ := by
  unfold runtimeStep
  by_cases hsent : c.dispatches host none = true
  · have hparts := hsent
    simp only [RuntimeCall.dispatches, Bool.and_eq_true] at hparts
    obtain ⟨⟨⟨hmutation, hhost⟩, -⟩, -⟩ := hparts
    have hvalid : c.valid = true := by
      unfold RuntimeCall.valid
      cases hop : c.operation <;> first | rfl | (rw [hop] at hmutation; cases hmutation)
    subst hhost
    simp [hsent, runtime, hvalid, hmutation]
  · have hnone : runtime host none c = none := by
      unfold runtime
      by_cases hfirst : c.valid = false ∨ (runtimeReads.contains c.operation = false ∧ host = false)
      · rw [if_pos hfirst]
      rw [if_neg hfirst]
      cases hmutation : c.operation.mutation with
      | true =>
        have hread : runtimeReads.contains c.operation = false := by
          simp only [RuntimeOperation.mutation, Bool.and_eq_true] at hmutation
          simpa using hmutation.1
        have hhost : host = true := by
          cases host with
          | true => rfl
          | false => exact absurd (Or.inr ⟨hread, rfl⟩) hfirst
        have hstopped : c.ending = .stopped := by
          by_contra hne
          exact hsent (by simp [RuntimeCall.dispatches, hmutation, hhost, hne])
        simp [dispatchMarker, hstopped]
      | false =>
        simp only [Bool.false_eq_true, if_false]
        cases c.ending with
        | answered reply => cases c.operation <;> rfl
        | _ => rfl
    simp [hnone, hsent]

variable {m : Marker} {o : Dispatched}

theorem step_marked : runtimeStep host ⟨some m, [o]⟩ c =
      ⟨runtime host (some m) c, if c.settles o = true then [] else [o]⟩ := by
  have hsent : c.dispatches host (some m) = false := by simp [RuntimeCall.dispatches]
  unfold runtimeStep
  rw [hsent]
  cases hsettles : c.settles o <;> simp [hsettles]

theorem runtime_other (hrequest : c.operation ≠ .request)
    (hstatus : c.operation ≠ .status) : runtime host (some m) c = some m := by
  unfold runtime
  split
  · rfl
  split
  · rfl
  cases c.ending with
  | answered reply =>
    cases hop : c.operation <;> first | rfl | exact absurd hop hrequest | exact absurd hop hstatus
  | _ => rfl

theorem runtime_read (hvalid : c.valid = true) (hread : runtimeReads.contains c.operation = true) :
    runtime host (some m) c = match c.ending with
      | .answered reply =>
        match c.operation with
        | .request => clearRequest c reply m
        | .status => clearStatus c reply m
        | _ => some m
      | _ => some m := by
  have hmutation : c.operation.mutation = false := by
    simp only [RuntimeOperation.mutation, hread]
    rfl
  have hnot : ¬ (c.valid = false ∨ (runtimeReads.contains c.operation = false ∧ host = false)) := by
    rw [hvalid, hread]
    simp
  unfold runtime
  rw [if_neg hnot, hmutation]
  cases c.ending with
  | answered reply => cases c.operation <;> rfl
  | _ => rfl

variable {reply : RuntimeReply}

theorem clearRequest_none :
    clearRequest c reply m = none ↔ m.session = c.session ∧ m.requestId = c.id ∧
      [RuntimeStatus.completed, .failed, .cancelled].contains reply.status = true := by
  unfold clearRequest
  split
  · next h => simp only [true_iff]; exact h
  · next h => simp only [reduceCtorEq, false_iff]; exact h

theorem clearStatus_none : clearStatus c reply m = none ↔
      m.session = c.session ∧ reply.workerAlive = false ∧ reply.state.over = true := by
  unfold clearStatus
  split
  · next h => simp only [true_iff]; exact h
  · next h => simp only [reduceCtorEq, false_iff]; exact h

theorem runtime_marked (m : Marker) :
    runtime host (some m) c = some m ∨ runtime host (some m) c = none := by
  have hrequest : ∀ reply, clearRequest c reply m = some m ∨ clearRequest c reply m = none := by
    intro reply
    unfold clearRequest
    split
    · exact Or.inr rfl
    · exact Or.inl rfl
  have hstatus : ∀ reply, clearStatus c reply m = some m ∨ clearStatus c reply m = none := by
    intro reply
    unfold clearStatus
    split
    · exact Or.inr rfl
    · exact Or.inl rfl
  unfold runtime
  split
  · exact Or.inl rfl
  split
  · exact Or.inl rfl
  split
  · next reply _ =>
      split
      · exact hrequest reply
      · exact hstatus reply
      · exact Or.inl rfl
  · exact Or.inl rfl

/-- The states that remove the marker are ones of an ended request. -/
theorem ended_of_closing {status : RuntimeStatus}
    (h : [RuntimeStatus.completed, .failed, .cancelled].contains status = true) :
    status.ended = true := by
  revert h
  cases status <;> decide

/-- A call reads the end of an operation only by an answer to a valid read. -/
theorem settles_iff : c.settles o = true ↔ c.valid = true ∧ ∃ reply, c.ending = .answered reply ∧
      ((c.operation = .request ∧ o.session = c.session ∧ o.request = c.id ∧
          reply.status.ended = true) ∨
        (c.operation = .status ∧ o.session = c.session ∧ reply.state.over = true)) := by
  unfold RuntimeCall.settles
  cases hending : c.ending <;> simp [and_assoc]

/-- With a marker, a call is followed just where it removes the marker of an operation of
which it reads the end. -/
theorem followed_marked
    (hknown : m.requestId.isSome = true → m.session = o.session ∧ m.requestId = o.request) :
    (runtime host (some m) c = none ↔ c.settles o = true) ↔ Followed host ⟨some m, [o]⟩ c := by
  have hsent : c.dispatches host (some m) = false := by simp [RuntimeCall.dispatches]
  rw [settles_iff]
  constructor
  · intro h
    refine ⟨fun reply hsent' => ?_, ?_, ?_, ?_⟩
    · rw [hsent] at hsent'
      cases hsent'
    · intro reply m' o' hvalid hop hending hm ho hsession hid hended
      cases hm
      cases mem_singleton.mp ho
      have hgone := h.mpr ⟨hvalid, reply, hending, Or.inl ⟨hop, hsession, hid, hended⟩⟩
      rw [runtime_read hvalid (by rw [hop]; rfl), hending, hop] at hgone
      exact clearRequest_none.mp hgone
    · intro reply m' o' hvalid hop hending hm ho hsession hover
      cases hm
      cases mem_singleton.mp ho
      have hgone := h.mpr ⟨hvalid, reply, hending, Or.inr ⟨hop, hsession, hover⟩⟩
      rw [runtime_read hvalid (by rw [hop]; rfl), hending, hop] at hgone
      obtain ⟨hsame, hdead, -⟩ := clearStatus_none.mp hgone
      exact ⟨hsame, hdead⟩
    · intro reply m' o' hvalid hop hending hm ho hsession hdead hover
      cases hm
      cases mem_singleton.mp ho
      have hgone : runtime host (some m) c = none := by
        rw [runtime_read hvalid (by rw [hop]; rfl), hending, hop]
        exact clearStatus_none.mpr ⟨hsession, hdead, hover⟩
      obtain ⟨-, reply', -, ⟨hop', -⟩ | ⟨-, hsame, -⟩⟩ := h.mp hgone
      · rw [hop] at hop'
        cases hop'
      · exact hsame
  · intro h
    constructor
    · intro hgone
      have hvalid : c.valid = true := by
        by_contra hno
        have hkept : runtime host (some m) c = some m := by
          unfold runtime
          rw [if_pos (Or.inl (Bool.eq_false_iff.mpr hno))]
        rw [hkept] at hgone
        cases hgone
      refine ⟨hvalid, ?_⟩
      by_cases hrequest : c.operation = .request
      · rw [runtime_read hvalid (by rw [hrequest]; rfl)] at hgone
        cases hending : c.ending with
        | answered reply =>
          rw [hending, hrequest] at hgone
          obtain ⟨hsession, hid, hclosing⟩ := clearRequest_none.mp hgone
          have hidSome : c.id.isSome = true := by
            simp only [RuntimeCall.valid, hrequest, Bool.and_eq_true] at hvalid
            exact hvalid.2
          obtain ⟨hsame, hsameId⟩ := hknown (by rw [hid]; exact hidSome)
          exact ⟨reply, rfl, Or.inl ⟨hrequest, hsame.symm.trans hsession,
            hsameId.symm.trans hid, ended_of_closing hclosing⟩⟩
        | stopped => rw [hending] at hgone; cases hgone
        | lost => rw [hending] at hgone; cases hgone
      · by_cases hstatus : c.operation = .status
        · rw [runtime_read hvalid (by rw [hstatus]; rfl)] at hgone
          cases hending : c.ending with
          | answered reply =>
            rw [hending, hstatus] at hgone
            obtain ⟨hsession, hdead, hover⟩ := clearStatus_none.mp hgone
            exact ⟨reply, rfl, Or.inr ⟨hstatus, h.own reply m o hvalid hstatus hending rfl
              mem_cons_self hsession hdead hover, hover⟩⟩
          | stopped => rw [hending] at hgone; cases hgone
          | lost => rw [hending] at hgone; cases hgone
        · rw [runtime_other hrequest hstatus] at hgone
          cases hgone
    · rintro ⟨hvalid, reply, hending, ⟨hop, hsession, hid, hended⟩ | ⟨hop, hsession, hover⟩⟩
      · rw [runtime_read hvalid (by rw [hop]; rfl), hending, hop]
        exact clearRequest_none.mpr (h.request reply m o hvalid hop hending rfl
          mem_cons_self hsession hid hended)
      rw [runtime_read hvalid (by rw [hop]; rfl), hending, hop]
      obtain ⟨hsame, hdead⟩ := h.status reply m o hvalid hop hending rfl mem_cons_self
        hsession hover
      exact clearStatus_none.mpr ⟨hsame, hdead, hover⟩

/-- A mutation that is sent leaves a marker and an unknown outcome, or neither. -/
theorem dispatch_known (hnamed : ∀ reply, c.ending = .answered reply →
    reply.status.goesOn = true → reply.requestId.isSome = true) :
    MarkerKnown ⟨dispatchMarker c, c.opens⟩ := by
  unfold dispatchMarker RuntimeCall.opens
  cases hending : c.ending with
  | stopped => exact .clear
  | lost => exact .marked _ _ fun h => by cases h
  | answered reply =>
    cases hgoes : reply.status.goesOn with
    | false => simpa [hgoes] using MarkerKnown.clear
    | true =>
      obtain ⟨id, hid⟩ := Option.isSome_iff_exists.mp (hnamed reply hending hgoes)
      simpa [hgoes, hid] using MarkerKnown.marked
        ⟨c.operation, reply.sessionId, some id, some reply.status⟩ ⟨reply.sessionId, some id⟩
        fun _ => ⟨rfl, rfl⟩

theorem step_known (hknown : MarkerKnown s) (h : Followed host s c) :
    MarkerKnown (runtimeStep host s c) := by
  cases hknown with
  | clear =>
    rw [step_clear]
    split
    · next hsent => exact dispatch_known fun reply => h.named reply hsent
    · exact .clear
  | marked m o hnames =>
    rw [step_marked]
    have hgone := (followed_marked hnames).mpr h
    have hmarker : runtime host (some m) c = some m ∨ runtime host (some m) c = none :=
      runtime_marked m
    rcases hmarker with hkept | hcleared
    · have hno : ¬ c.settles o = true := fun hsettles => by
        rw [hgone.mpr hsettles] at hkept
        cases hkept
      rw [hkept, if_neg hno]
      exact .marked m o hnames
    · rw [hcleared, if_pos (hgone.mp hcleared)]
      exact .clear

/-- A call keeps the marker right exactly where it is followed. -/
theorem step_kept_iff (hknown : MarkerKnown s) :
    MarkerKept host (runtimeStep host s c) ↔ Followed host s c := by
  refine ⟨fun hkept => ?_, fun h => (step_known hknown h).kept⟩
  have hmarked := hkept.marked
  cases hknown with
  | clear =>
    refine ⟨?_, ?_, ?_, ?_⟩
    · intro reply hsent hending hgoes
      rw [step_clear, if_pos hsent] at hmarked
      by_contra hno
      have hnone := Option.not_isSome_iff_eq_none.mp hno
      simp [dispatchMarker, RuntimeCall.opens, hending, hgoes, hnone] at hmarked
    · exact fun _ _ _ _ _ _ hm => by cases hm
    · exact fun _ _ _ _ _ _ hm => by cases hm
    · exact fun _ _ _ _ _ _ hm => by cases hm
  | marked m o hnames =>
    rw [step_marked] at hmarked
    refine (followed_marked hnames).mp ?_
    rcases runtime_marked m with hkept' | hcleared
    · rw [hkept'] at hmarked ⊢
      simpa using hmarked
    · rw [hcleared] at hmarked ⊢
      simpa using hmarked

/-- The marker is right after every call of a run exactly where every call is followed. -/
theorem run_kept_iff (hknown : MarkerKnown s) (calls : List RuntimeCall) :
    (∀ before after, calls = before ++ after → MarkerKept host (runtimeRun host s before)) ↔
      ∀ before c after, calls = before ++ c :: after →
        Followed host (runtimeRun host s before) c := by
  induction calls generalizing s with
  | nil =>
    constructor
    · intro _ before c after h
      simp at h
    · intro _ before after h
      obtain ⟨rfl, rfl⟩ := append_eq_nil_iff.mp h.symm
      exact hknown.kept
  | cons c rest ih =>
    constructor
    · intro hkept before d after h
      have hfollowed : Followed host s c := (step_kept_iff hknown).mp (hkept [c] rest rfl)
      have hrest : ∀ before after, rest = before ++ after →
          MarkerKept host (runtimeRun host (runtimeStep host s c) before) :=
        fun before after h => hkept (c :: before) after (by rw [h]; rfl)
      cases before with
      | nil =>
        cases h
        exact hfollowed
      | cons e before =>
        cases h
        exact (ih (step_known hknown hfollowed)).mp hrest before d after rfl
    · intro hfollowed before after h
      cases before with
      | nil => exact hknown.kept
      | cons e before =>
        cases h
        have hfirst : Followed host s c := hfollowed [] c (before ++ after) rfl
        exact (ih (step_known hknown hfirst)).mpr
          (fun before' d after' h => hfollowed (c :: before') d after' (by rw [h]; rfl))
          before after rfl

/-- In every run of calls, with any answers and failures, the marker is there exactly while
the outcome of a mutation is unknown, and nothing is sent then, if and only if every call
of the run is one that the marker can follow. -/
theorem marker_kept_iff (host : Bool) (calls : List RuntimeCall) :
    (∀ before after, calls = before ++ after → MarkerKept host (runtimeRun host {} before)) ↔
      ∀ before c after, calls = before ++ c :: after →
        Followed host (runtimeRun host {} before) c :=
  run_kept_iff .clear calls

/-- A launch is answered before its worker has started: the answer has no request. -/
def slowLaunch : RuntimeCall where
  operation := .launch
  session := none
  id := none
  ending := .answered ⟨.pending, .other, some (js "run_1"), none, false⟩
  created := ⟨some (js "run_1"), none⟩

/-- Its outcome is unknown, and there is no marker. -/
theorem launch_without_marker : ¬ MarkerKept true (runtimeRun true {} [slowLaunch]) := by
  intro h
  have hmarked := h.marked
  revert hmarked
  decide

end Agent
