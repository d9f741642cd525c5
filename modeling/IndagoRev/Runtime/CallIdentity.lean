import IndagoRev.Text
import IndagoRev.Tables
import IndagoRev.Transactions

/-!
# Identities of observed API calls

The entries and returns of one call are folded into one record.  The record keeps the
identity of whichever came first, and says whether the call is one entry with one return
of the same identity.  `Db::observe` stores the record with the lifetimes, in a row that a
return closes.
-/

namespace Indago

open StdText Tables Transactions

inductive ObservationKind where
  | moduleLoaded | moduleUnloaded
  | threadFirstObserved | threadCreated | threadExited
  | sessionStarted | processCreated | processIdentityRetired
  | apiEnter | apiLeave
  | collectionClosed
  | other
  deriving DecidableEq

/-- The kinds of a call. -/
def ObservationKind.isCall (kind : ObservationKind) : Bool :=
  kind = .apiEnter || kind = .apiLeave

/-- What the observations of one call have to agree on. A missing field is null. -/
structure CallIdentity where
  api : Text
  processId : Option Text
  threadInstance : Option Text
  deriving DecidableEq

/-- An object of the data, with its id if it has one. -/
structure ObservedEntity where
  id : Option Text

/-- The fields of an observation that are read here. -/
structure ObservationData where
  backend : Text := []
  id : Option Text := none
  callId : Option Text := none
  processId : Option Text := none
  api : Option Text := none
  threadInstance : Option Text := none
  module : Option ObservedEntity := none
  thread : Option ObservedEntity := none
  socket : Option ObservedEntity := none
  socketEvent : Text := []
  socketGenerationRace : Bool := false

/-- An observation as it is recorded, with an id that `make_id` gave it. -/
structure Observation where
  id : Text
  kind : ObservationKind
  data : ObservationData
  named : id ≠ []

/-- The record of a call. -/
structure ApiCall where
  id : Text
  identity : CallIdentity
  entryObservation : Option Text := none
  returnObservation : Option Text := none
  conflictingObservations : Bool := false
  duplicateObservations : Nat := 0
  pairComplete : Bool := false

/-- A field that has to be there. -/
def required {α : Type} : Option α → Except String α
  | some a => .ok a
  | none => .error "out_of_range.403"

/-- The field that an observation of a kind is kept in. -/
def ApiCall.field (call : ApiCall) : ObservationKind → Option Text
  | .apiEnter => call.entryObservation
  | _ => call.returnObservation

def ApiCall.setField (call : ApiCall) (observation : Text) : ObservationKind → ApiCall
  | .apiEnter => { call with entryObservation := some observation }
  | _ => { call with returnObservation := some observation }

/-- The mark of an observation of another identity. -/
def ApiCall.compare (call : ApiCall) (identity : CallIdentity) : ApiCall :=
  if call.identity ≠ identity then { call with conflictingObservations := true } else call

/-- An observation is kept, or counted as a duplicate. -/
def ApiCall.keep (call : ApiCall) (kind : ObservationKind) (observation : Text) : ApiCall :=
  if (call.field kind).isSome then
    { call with duplicateObservations := call.duplicateObservations + 1 }
  else call.setField observation kind

def ApiCall.assess (call : ApiCall) : ApiCall :=
  { call with
    pairComplete := call.entryObservation.isSome && call.returnObservation.isSome &&
      !call.conflictingObservations && decide (call.duplicateObservations = 0) }

/-- `advance_api_call_identity`. The count of duplicates is below 2 ^ 64, since the table
of observations has no more rows. -/
def advanceApiCallIdentity (previous : Option ApiCall) (data : ObservationData)
    (kind : ObservationKind) (observation : Text) : Except String ApiCall :=
  if kind.isCall = false then .error "API identity requires entry or return observation"
  else do
    let callId ← required data.callId
    let api ← required data.api
    let identity : CallIdentity := ⟨api, data.processId, data.threadInstance⟩
    let call ← match previous with
      | none => pure { id := callId, identity := identity }
      | some call =>
        if call.id ≠ callId then .error "API identity token differs from prior record"
        else pure call
    pure ((call.compare identity).keep kind observation).assess

/-- The records of a sequence of observations, folded. -/
def advanceAll (previous : Option ApiCall) (os : List Observation) :
    Except String (Option ApiCall) :=
  os.foldlM (fun call o => do
    let call ← advanceApiCallIdentity call o.data o.kind o.id
    pure (some call)) previous

inductive LifetimeKind where
  | module | thread | process | socket | apiCall
  deriving DecidableEq

/-- The record of a lifetime: an object as it was observed, or a call. -/
inductive LifetimeRecord where
  | entity
  | call (call : ApiCall)

structure LifetimeRow where
  id : Text
  session : Text
  kind : LifetimeKind
  firstObservation : Text
  lastObservation : Option Text
  record : LifetimeRecord

/-- The object that an observation is about, and whether it ends there. -/
def observedEntity (o : Observation) : Except String (Option (ObservedEntity × LifetimeKind × Bool)) :=
  match o.kind with
  | .moduleLoaded => .ok (some (o.data.module.getD ⟨o.data.id⟩, .module, false))
  | .moduleUnloaded => .ok (some (o.data.module.getD ⟨o.data.id⟩, .module, true))
  | .threadFirstObserved | .threadCreated =>
    .ok (some (o.data.thread.getD ⟨o.data.id⟩, .thread, false))
  | .threadExited => .ok (some (o.data.thread.getD ⟨o.data.id⟩, .thread, true))
  | .sessionStarted | .processCreated => do
    let id ← required o.data.processId
    pure (some (⟨some id⟩, .process, false))
  | .processIdentityRetired => do
    let id ← required o.data.processId
    pure (some (⟨some id⟩, .process, true))
  | .apiEnter | .apiLeave | .collectionClosed | .other =>
    .ok (o.data.socket.map (fun socket => (socket, .socket,
      decide (o.data.socketEvent = "close_api_success") && !o.data.socketGenerationRace)))

variable (session : Text)

/-- `INSERT OR IGNORE` of a lifetime, and its end. -/
def recordEntity (observation id : Text) (kind : LifetimeKind) (closed : Bool)
    (rows : List LifetimeRow) : List LifetimeRow :=
  let rows :=
    match row LifetimeRow.id id rows with
    | some _ => rows
    | none => rows ++ [⟨id, session, kind, observation, none, .entity⟩]
  if closed then
    rewrite LifetimeRow.id id (fun r =>
      if r.session = session then { r with lastObservation := some observation } else r) rows
  else rows

/-- `INSERT … ON CONFLICT(id) DO UPDATE`. A row of another session or kind is not changed,
and is refused. -/
def upsertCall (session id observation : Text) (closing : Option Text) (call : ApiCall)
    (rows : List LifetimeRow) : Except String (List LifetimeRow) :=
  match row LifetimeRow.id id rows with
  | none => .ok (rows ++ [⟨id, session, .apiCall, observation, closing, .call call⟩])
  | some r =>
    if r.session = session ∧ r.kind = .apiCall then
      .ok (rewrite LifetimeRow.id id (fun r =>
        { r with lastObservation := closing.or r.lastObservation, record := .call call }) rows)
    else .error "API identity collides with another lifetime"

/-- The record that a call has so far. -/
def priorCall (session id : Text) (rows : List LifetimeRow) : Option ApiCall :=
  match row LifetimeRow.id id rows with
  | some ⟨_, owner, .apiCall, _, _, .call call⟩ => if owner = session then some call else none
  | _ => none

/-- The statements on calls. `NULLIF` keeps an id, since none is empty. -/
def recordCall (o : Observation) (rows : List LifetimeRow) : Except String (List LifetimeRow) :=
  if o.kind.isCall && decide (o.data.backend = "frida") then
    match o.data.callId with
    | none => .ok rows
    | some id => do
      let call ← advanceApiCallIdentity (priorCall session id rows) o.data o.kind o.id
      upsertCall session id o.id (if o.kind = .apiLeave then some o.id else none) call rows
  else .ok rows

/-- The end of a collection closes what is still open. -/
def closeCollection (o : Observation) (rows : List LifetimeRow) : List LifetimeRow :=
  if o.kind = .collectionClosed then
    rows.map (fun r =>
      if r.session = session ∧ r.lastObservation = none then
        { r with lastObservation := some o.id }
      else r)
  else rows

/-- `Db::observe`, the table of lifetimes. -/
def observe (rows : List LifetimeRow) (o : Observation) : Except String (List LifetimeRow) := do
  let entity ← observedEntity o
  let rows :=
    match entity with
    | some (⟨some id⟩, kind, closed) => recordEntity session o.id id kind closed rows
    | _ => rows
  let rows ← recordCall session o rows
  pure (closeCollection session o rows)

end Indago
