import IndagoRev.Models.InvestigationState
import IndagoRev.Paging

/-!
# Plans of an investigation

A plan is a patch of one collection: its records take the place of those with their ids,
or are added.  It is accepted as a whole or not at all, and only when the records of the
collection depend on each other without a cycle.  The queue shows the open records whose
dependencies are all supported, the most relevant ones first.
-/

namespace Indago.Investigation

open StdText JsonValues JsonValues.Json StaticIndex

/-- What the language does with numbers that are no integers. -/
structure NumberContext where
  /-- The conversion to `int`. -/
  truncated : Text → Int
  /-- Equality with an integer. -/
  denotes : Text → Int → Bool


section Patches

variable (numbers : NumberContext)

/-- The 32 low bits of an integer, with their sign. -/
def toInt (n : Int) : Int := (n + 2147483648) % 4294967296 - 2147483648

/-- `get<int>`. -/
def asInt : Json → Access Int
  | .int n => .ok (toInt n)
  | .bool b => .ok (if b then 1 else 0)
  | .real token => .ok (numbers.truncated token)
  | _ => .error "type_error.302"

/-- Equality of a value with an integer. -/
def isInt : Json → Int → Bool
  | .int n, m => n == m
  | .real token, m => numbers.denotes token m
  | _, _ => false

def recordKeys : List Text :=
  ["id", "question", "status", "depends_on", "priority",
    "summary", "goal", "backend", "operation", "address",
    "evidence_ids"]

/-- The fields that a `PlanRecord` has of its own. -/
def ownKeys : List Text :=
  ["id", "question", "status", "depends_on", "priority", "summary"]

variable (j : Json)

/-- The text of a field that must be a string. -/
def planText (key : Text) : Access Text := do
  match ← j.at? key with
  | .str t => pure t
  | _ => .error "plan text must be strings"

def statusOf : Access Assessment := do
  match Assessment.ofText (← (← j.at? "status").asText) with
  | some status => pure status
  | none => .error "invalid assessment status"

/-- A priority lies in 0..10, where the 5 stands for a missing one. -/
def priorityOf : Access Nat := do
  let priority ← j.valueWith (asInt numbers) "priority" 5
  if priority < 0 ∨ 10 < priority then .error "priority must be 0..10" else pure priority.toNat

def identifierOf : Access Text := do
  let t ← j.asText
  if isIdentifier t then pure t else .error "invalid identifier"

def dependenciesOf : Access (List Text) :=
  match j.get? "depends_on" with
  | none => .ok []
  | some (.arr items) =>
    if 64 < items.length then .error "invalid dependencies" else items.mapM identifierOf
  | some _ => .error "invalid dependencies"

/-- The fields of a record that are kept as they are. -/
def otherFields : Json → List (Text × Json)
  | .obj fields => fields.filter (fun f => !ownKeys.contains f.1)
  | _ => []

/-- A record of a patch. -/
def readRecord : Access PlanRecord := do
  checkKeys recordKeys j
  let id ← identifierOf (← j.at? "id")
  if 8192 < utf8Length j.dump then
    .error "plan record exceeds 8 KiB; split into subsystems"
  else do
    let summary ← planText j "summary"
    let question ← planText j "question"
    let status ← statusOf j
    let priority ← priorityOf numbers j
    let dependsOn ← dependenciesOf j
    pure { id, question, status, dependsOn, priority, summary,
           others := otherFields j ++ [("assessment_only".toList, .bool true)] }

variable (rows : List PlanRecord)

/-- The row with an id. -/
def rowOf (id : Text) : Option PlanRecord := rows.find? (fun r => r.id = id)

/-- A record takes the place of the first row with its id, or comes last. -/
def placeRecord (record : PlanRecord) : List PlanRecord → List PlanRecord
  | [] => [record]
  | row :: rest => if row.id = record.id then record :: rest else row :: placeRecord record rest

def storeRecord (record : PlanRecord) : Access (List PlanRecord) :=
  if rowOf rows record.id = none ∧ 1024 ≤ rows.length then
    .error "collection storage budget exhausted"
  else .ok (placeRecord record rows)

/-- The rows after the records of a patch, in their order. -/
def patchRows : List PlanRecord → List Json → Access (List PlanRecord)
  | rows, [] => .ok rows
  | rows, j :: rest => do
    let record ← readRecord numbers j
    let rows ← storeRecord rows record
    patchRows rows rest

/-- `visit`: the search below an id, with the ids it stands in, and those that it is done
with, the last one first. -/
def visit (rows : List PlanRecord) : Nat → List Text → List Text → Text → Except String (List Text)
  | 0, _, _, _ => .error "search depth"
  | depth + 1, visiting, visited, id =>
    if id ∈ visited then .ok visited
    else if id ∈ visiting then .error "cyclic investigation dependency"
    else
      match rowOf rows id with
      | none => .error "unknown investigation dependency"
      | some row => do
        let visited ← row.dependsOn.foldlM (visit rows depth (id :: visiting)) visited
        pure (id :: visited)

/-- The search from every row.  It stands in rows with different ids, so that it is never
deeper than the collection is long. -/
def visitRows : Except String (List Text) :=
  (rows.map PlanRecord.id).foldlM (visit rows (rows.length + 1) []) []

def planKeys : List Text :=
  ["expected_revision", "collection", "records", "active_task"]

def planCollectionOf (r : Json) : Access PlanCollection := do
  match PlanCollection.ofText (← (← r.at? "collection").asText) with
  | some c => pure c
  | none => .error "collection is not editable"

def planRecords (r : Json) : Access (List Json) := do
  match ← r.at? "records" with
  | .arr records =>
    if 32 < records.length then .error "plan patch exceeds 32 records" else pure records
  | _ => .error "plan patch exceeds 32 records"

variable (s : InvestigationState)

/-- Whether a task or a goal has an id. -/
def InvestigationState.names (id : Text) : Bool :=
  (s.rows .tasks).any (fun r => r.id = id) || (s.rows .goals).any (fun r => r.id = id)

/-- The state with the active task of a plan. -/
def withActiveTask (r : Json) : Access InvestigationState :=
  match r.get? "active_task" with
  | none => .ok s
  | some v => do
    let active ← v.asText
    if s.names active then pure { s with activeTask := some active }
    else .error "active_task must name a saved task or goal"

/-- `investigation_plan`: the next state, where the plan is accepted. -/
def investigationPlan (r : Json) : Access InvestigationState := do
  checkKeys planKeys r
  let expected ← r.at? "expected_revision"
  if !isInt numbers expected s.revision then .error "investigation state revision conflict"
  else do
    let c ← planCollectionOf r
    let records ← planRecords r
    let rows ← patchRows numbers (s.rows c) records
    let _ ← visitRows rows
    let next ← withActiveTask (s.withRows c rows) r
    let next := { next with planned := true, revision := countUp s.revision }
    if stateBytes < next.size then
      .error "investigation state exceeds 2 MiB; summarize before continuing"
    else pure next

end Patches

/-- Tasks are scheduled, and goals as long as there is no task. -/
def scheduled (s : InvestigationState) : List PlanRecord :=
  if s.rows .tasks = [] then s.rows .goals else s.rows .tasks

/-- Every dependency is supported. -/
def isReady (rows : List PlanRecord) (task : PlanRecord) : Bool :=
  task.dependsOn.all (fun d => ((rowOf rows d).map PlanRecord.status) = some .supported)

/-- The open records that depend on a record. -/
def dependents (rows : List PlanRecord) (task : PlanRecord) : Nat :=
  rows.countP (fun other => other.status = .opened && other.dependsOn.contains task.id)

def scoreOf (rows : List PlanRecord) (task : PlanRecord) : Nat :=
  task.priority + min (dependents rows task) 10

/-- The characters of a text that fit into so many bytes. -/
def fitting : Nat → Text → Text
  | _, [] => []
  | n, c :: rest => if c.utf8Size ≤ n then c :: fitting (n - c.utf8Size) rest else []

/-- A record as the queue shows it. -/
structure QueueEntry where
  record : PlanRecord
  score : Nat

/-- A summary is cut after 512 bytes. -/
def QueueEntry.toJson (entry : QueueEntry) : Json :=
  let score := ("score".toList, Json.int entry.score)
  if 512 < utf8Length entry.record.summary then
    object ({ entry.record with summary := fitting 512 entry.record.summary }.fields ++
      [score, ("summary_omitted".toList, .bool true)])
  else object (entry.record.fields ++ [score])

/-- The records that are ready, in their order. -/
def readyEntries (rows : List PlanRecord) : List QueueEntry :=
  (rows.filter (fun task => task.status = .opened && isReady rows task)).map
    (fun task => ⟨task, scoreOf rows task⟩)

def sortedEntries (rows : List PlanRecord) : List QueueEntry :=
  (readyEntries rows).insertionSort (fun a b => b.score ≤ a.score)

structure InvestigationQueue where
  readyTotal : Nat
  records : List QueueEntry

/-- `investigation_queue`. -/
def investigationQueue (s : InvestigationState) : InvestigationQueue where
  readyTotal := (sortedEntries (scheduled s)).length
  records := (sortedEntries (scheduled s)).take 8

def InvestigationQueue.toJson (queue : InvestigationQueue) : Json :=
  object [("ready_total", .int queue.readyTotal),
    ("records", .arr (queue.records.map QueueEntry.toJson)),
    ("policy", .str ("Unresolved data dependencies and model relevance; " ++
      "assessments are not proofs").toList)]

end Indago.Investigation
