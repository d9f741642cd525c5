import IndagoRev.Models.InvestigationState

/-!
# Progress of an investigation

Before a query is carried out, the guard refuses one that has brought no news twice in a
row.  After every decision its feedback is observed: news about a query, contradictions
and steps without news are counted, and a record is added.  What is counted before the
record is added stays counted when there is no storage for the record.
-/

namespace Indago.Investigation

open StdText JsonValues JsonValues.Json StaticIndex

/-- A decision of the model. -/
structure InvestigationDecision where
  kind : Text
  payload : Json

def InvestigationDecision.toJson (d : InvestigationDecision) : Json :=
  object [("kind", .str d.kind), ("payload", d.payload)]

/-- Decisions that look something up. -/
def InvestigationDecision.isQuery (d : InvestigationDecision) : Bool :=
  d.kind = "analyze" || d.kind = "retrieve"

/-- Decisions about the state itself, of which there are no records. -/
def InvestigationDecision.isPlanning (d : InvestigationDecision) : Bool :=
  d.kind = "state" || d.kind = "plan"

/-- Feedback is an object whose own fields have their types. -/
structure InvestigationFeedback where
  json : Json
  object : json.isObject = true
  flags : ∀ key ∈ ["omitted".toList, "source_verified".toList], ∀ v,
    json.get? key = some v → ∃ b, v = .bool b
  texts : ∀ v, json.get? "status" = some v → ∃ t, v = .str t

namespace InvestigationFeedback

variable (f : InvestigationFeedback)

def field (key : String) : Json := (f.json.get? key.toList).getD .null

def flag (key : String) : Bool :=
  match f.json.get? key.toList with
  | some (.bool b) => b
  | _ => false

def status : Text :=
  match f.json.get? "status" with
  | some (.str t) => t
  | _ => []

def contradicted : Bool := f.status = "contradicted"

def failedStatus : List Text :=
  ["failed", "unsupported", "not_found", "timed_out", "timeout", "environment_unavailable"]

/-- Whether feedback counts as news when its fingerprint is new. -/
def usable (nativeFingerprint : Text) : Bool :=
  !f.json.contains "error" && !f.flag "omitted" &&
    (f.flag "source_verified" || !nativeFingerprint.isEmpty) && !failedStatus.contains f.status

end InvestigationFeedback

section Progress

variable (sha256 : Text → Text)

/-- The request of a query, where the one of an analysis stands without its budget. -/
def queryRequest (d : InvestigationDecision) : Json :=
  if d.kind = "analyze" then
    match d.payload.get? "request" with
    | some (.obj fields) => .obj (fields.filter (fun f => f.1 != "budget"))
    | _ => d.payload
  else d.payload

/-- `investigation_query_key`. -/
def investigationQueryKey (d : InvestigationDecision) : Text :=
  sha256 (object [("kind", .str d.kind), ("request", queryRequest d)]).dump

def InvestigationState.queryCount (s : InvestigationState) (key : Text) : Nat :=
  (s.queryCounts.lookup key).getD 0

def InvestigationState.seenOf (s : InvestigationState) (key : Text) : List Text :=
  (s.seen.lookup key).getD []

/-- `investigation_guard`. -/
def investigationGuard (s : InvestigationState) (d : InvestigationDecision) : Access Unit :=
  if d.isQuery && 2 ≤ s.queryCount (investigationQueryKey sha256 d) then
    .error ("Repeated query exhausted its progress allowance. Change address, evidence page, " ++
      "dependency, or backend; budget changes alone are not a new approach.")
  else .ok ()

/-- What identifies the evidence that feedback refers to. -/
def fingerprintOf (f : InvestigationFeedback) (nativeFingerprint : Text) : Text :=
  if nativeFingerprint.isEmpty then
    sha256 (object [("raw_sha256", f.field "raw_sha256"),
      ("pointer", f.field "pointer"), ("offset", f.field "offset")]).dump
  else nativeFingerprint

/-- Whether feedback is news about a query. -/
def isNovel (s : InvestigationState) (d : InvestigationDecision) (f : InvestigationFeedback)
    (nativeFingerprint : Text) : Bool :=
  d.isQuery && f.usable nativeFingerprint &&
    !(s.seenOf (investigationQueryKey sha256 d)).contains (fingerprintOf sha256 f nativeFingerprint)

/-- The count of a query, with the fingerprints that were seen. -/
def countQuery (s : InvestigationState) (d : InvestigationDecision) (f : InvestigationFeedback)
    (nativeFingerprint : Text) : InvestigationState :=
  let key := investigationQueryKey sha256 d
  let novel := isNovel sha256 s d f nativeFingerprint
  if d.isQuery then
    { s with
      seen := setKey key (s.seenOf key ++
        if novel then [fingerprintOf sha256 f nativeFingerprint] else []) s.seen
      queryCounts := setKey key (if novel then 0 else s.queryCount key + 1) s.queryCounts }
  else s

/-- What was supported is open again. -/
def reopen (row : PlanRecord) : PlanRecord :=
  if row.status = .supported then { row with status := .opened } else row

/-- A contradiction reopens hypotheses, tasks and goals. -/
def reopenRows (s : InvestigationState) : InvestigationState :=
  { s with rows := fun
      | .summaries => s.rows .summaries
      | c => (s.rows c).map reopen }

/-- The state with everything that is counted about a generation. -/
def accounted (s : InvestigationState) (d : InvestigationDecision) (f : InvestigationFeedback)
    (generation : Int) (nativeFingerprint : Text) : InvestigationState :=
  let novel := isNovel sha256 s d f nativeFingerprint
  let s := countQuery sha256 { s with lastGeneration := generation } d f nativeFingerprint
  let s := if f.contradicted then reopenRows s else s
  { s with idleSteps := if novel || f.contradicted then 0 else countUp s.idleSteps }

def copiedKeys : List Text :=
  ["id", "evidence_ids", "raw_sha256", "pointer", "offset", "status", "error"]

def recordFields (d : InvestigationDecision) (f : InvestigationFeedback) (generation : Int)
    (news : Bool) : List (Text × Json) :=
  [("generation".toList, .int generation), ("kind".toList, .str d.kind),
    ("decision_sha256".toList, .str (sha256 d.toJson.dump)),
    ("feedback_sha256".toList, .str (sha256 f.json.dump)),
    ("novel_evidence".toList, .bool news), ("contradicted".toList, .bool f.contradicted)] ++
  copiedKeys.filterMap (fun key => (f.json.get? key).map (fun v => (key, v)))

/-- The record of an observation.  A long one leaves the evidence out. -/
def observationRecord (d : InvestigationDecision) (f : InvestigationFeedback) (generation : Int)
    (news : Bool) : Json :=
  let fields := recordFields sha256 d f generation news
  if 8192 < utf8Length (object fields).dump then
    object (fields.filter (fun e => e.1 != "evidence_ids".toList) ++
      [("details_omitted".toList, .bool true)])
  else object fields

/-- A record of an observation is added, where there is storage for it. -/
def addRecord (s : InvestigationState) (record : Json) : Access InvestigationState :=
  if 4096 ≤ s.observations.length then .error "observation storage budget exhausted"
  else if stateBytes < s.size + utf8Length record.dump then
    .error "investigation storage budget exhausted"
  else .ok { s with observations := s.observations ++ [record] }

/-- `investigation_observe`: the state that it leaves, and whether it succeeds. -/
def investigationObserve (s : InvestigationState) (d : InvestigationDecision)
    (f : InvestigationFeedback) (generation : Int) (nativeFingerprint : Text) :
    InvestigationState × Access Unit :=
  if s.lastGeneration = generation then (s, .ok ())
  else
    let news := isNovel sha256 s d f nativeFingerprint || f.contradicted
    let counted := accounted sha256 s d f generation nativeFingerprint
    let added := if d.isPlanning then .ok counted
      else addRecord counted (observationRecord sha256 d f generation news)
    match added with
    | .error e => (counted, .error e)
    | .ok s' => ({ s' with revision := if f.contradicted then countUp s'.revision else s'.revision },
        .ok ())

end Progress

end Indago.Investigation
