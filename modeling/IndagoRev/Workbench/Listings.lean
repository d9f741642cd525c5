import IndagoRev.Cursors
import IndagoRev.JsonValues

/-!
# Listings of a project

`evidence`, `functions`, `function_views` and `index_query` show the matching rows of a
table in pages, with the offset of the next page.  The last two also stop at a byte
budget, and `index_query` leaves fields out of a record that alone is too long for it.
What it does to the name of such a record is what a visit of all pages depends on.
-/

namespace Indago

open StdText JsonValues Cursors

/-- A row of one of the index tables, as texts. A column that a table does not have is
empty. -/
structure ListedRow where
  project : Text
  artifact : Text
  backend : Text
  revision : Text
  id : Text := []
  kind : Text := []
  name : Text := []
  address : Text := []
  anchor : Text := []
  source : Text := []
  target : Text := []
  sourceAnchor : Text := []
  targetAnchor : Text := []
  subject : Text := []
  predicate : Text := []
  fields : List (Text × Json)

/-- The record of a row is an object. -/
def ListedRow.record (r : ListedRow) : Json := .obj r.fields

structure ListedEvidence where
  project : Text
  id : Text
  sha : Text
  fields : List (Text × Json)

def ListedEvidence.record (r : ListedEvidence) : Json := .obj r.fields

structure ListedFunction where
  id : Text
  project : Text
  artifact : Text
  address : Text

/-- A row of `function_views`. Its record text is the dump of a value. -/
structure ListedView where
  function : Text
  evidence : Text
  backend : Text
  record : Json

inductive IndexCategory where
  | entities | relations | claims | revisions
  deriving DecidableEq

/-- What the listings read. `objects` maps a hash to the text of the file that is stored
under it. -/
structure ListedStore where
  projects : List Text
  evidence : List ListedEvidence
  functions : List ListedFunction
  views : List ListedView
  index : IndexCategory → List ListedRow
  heads : List (Text × Text)
  objects : Text → Option Text

/-- Whether a revision is a current one. -/
def ListedStore.isHead (store : ListedStore) (r : ListedRow) : Bool :=
  store.heads.contains (r.project, r.revision)

/-- The digits that `std::from_chars` reads with base 16. -/
def isHexDigit (c : Char) : Bool :=
  c.isDigit || ('a' ≤ c && c ≤ 'f') || ('A' ≤ c && c ≤ 'F')

/-- `hex_address`. -/
def hexAddressText (n : Nat) : Text := "0x" ++ hexDigits n

/-- `canonical_address`. -/
def canonicalAddress : Json → Text
  | .int n => if 0 ≤ n then hexAddressText n.toNat else []
  | .str t =>
    let digits := if startsWith "0x" t then t.drop 2 else t
    let number := ofHex (digits.map Char.toLower)
    if digits ≠ [] ∧ digits.all isHexDigit = true ∧ number < 2 ^ 64 then hexAddressText number
    else []
  | _ => []

/-- The fields of a filter of `index_query`, but its limit and its offset. -/
structure IndexFilter where
  category : IndexCategory := .entities
  artifact : Option Text := none
  backend : Option Text := none
  revision : Option Text := none
  id : Option Text := none
  kind : Option Text := none
  anchor : Option Text := none
  name : Option Text := none
  address : Option Json := none
  search : Option Text := none
  source : Option Text := none
  target : Option Text := none
  subject : Option Text := none
  predicate : Option Text := none
  history : Bool := false

/-- `field`: a value that is not empty asks for a column. -/
def asks (value : Option Text) (column : Text) : Bool :=
  value.all (fun v => v = [] || column = v)

variable (f : IndexFilter)

/-- What a filter asks of entities besides their address. -/
def IndexFilter.entity (r : ListedRow) : Bool :=
  asks f.kind r.kind && asks f.anchor r.anchor && asks f.name r.name &&
    f.search.all (fun s =>
      (find (s.map Char.toLower) (r.name.map Char.toLower)).isSome)

/-- What a filter asks of relations. -/
def IndexFilter.relation (r : ListedRow) : Bool :=
  asks f.kind r.kind && asks f.source r.source && asks f.target r.target &&
    f.anchor.all (fun a => r.sourceAnchor = a || r.targetAnchor = a)

/-- What a filter asks of claims. -/
def IndexFilter.claim (r : ListedRow) : Bool :=
  asks f.subject r.subject && asks f.predicate r.predicate

/-- The rows of a category that a filter asks for, with the address that it names. -/
def IndexFilter.takes (store : ListedStore) (project address : Text) (r : ListedRow) : Bool :=
  r.project = project && asks f.artifact r.artifact && asks f.backend r.backend &&
    asks f.revision r.revision && (f.category = .revisions || asks f.id r.id) &&
    (match f.category with
      | .entities => f.entity r && (f.address.isNone || r.address = address)
      | .relations => f.relation r
      | .claims => f.claim r
      | .revisions => true) &&
    (f.history || f.revision.isSome || f.id.isSome || store.isHead r)

/-- The canonical address of a filter. Only entities have one. -/
def IndexFilter.canonical : Access Text :=
  match f.category, f.address with
  | .entities, some a =>
    if canonicalAddress a = [] then .error "invalid address" else .ok (canonicalAddress a)
  | _, _ => .ok []

/-- The bytes of a text. -/
def utf8Length (t : Text) : Nat := (t.map Char.utf8Size).sum

/-- `substr` from the first byte on, when it ends between two characters. -/
def cutBytes : Nat → Text → Option Text
  | _, [] => some []
  | n, c :: rest =>
    if c.utf8Size ≤ n then (cutBytes (n - c.utf8Size) rest).map (c :: ·)
    else if n = 0 then some [] else none

/-- A record that is longer than one MiB. -/
def oversized (row : Json) : Bool := decide (1024 * 1024 < utf8Length row.dump)

/-- `index_query`, a record with its freshness. -/
def freshRecord (store : ListedStore) (r : ListedRow) : Access Json :=
  r.record.put "freshness"
    (.str (if store.isHead r then "current" else "superseded"))

/-- `index_query`, a record that is too long. A name that is cut inside a character is
refused when the record is dumped again. -/
def shortened (row : Json) : Access Json := do
  let row ← row.drop "native"
  let row ← row.drop "value"
  let name ← row.valueText "name" []
  match cutBytes 4096 name with
  | none => .error "type_error.316"
  | some name => do
    let row ← row.put "name" (.str name)
    row.put "payload_omitted" (.bool true)

/-- `index_query`, one record. -/
def indexShown (store : ListedStore) (r : ListedRow) : Access Json := do
  let row ← freshRecord store r
  if oversized row then shortened row else pure row

/-- `functions`, one row. -/
def functionShown (r : ListedFunction) : Json :=
  .obj [("address", .str r.address), ("artifact_sha256", .str r.artifact), ("id", .str r.id)]

/-- `function_views`, one view. -/
def viewShown (r : ListedView) : Json :=
  .obj [("backend", .str r.backend), ("evidence_id", .str r.evidence), ("native", r.record)]

section Objects

-- SHA-256 of a text in hexadecimal, and the reading of a JSON text.
variable (sha256 : Text → Text) (parse : Text → Access Json)

/-- `evidence`, one record. One that is asked for by its id comes with its native result. -/
def evidenceShown (store : ListedStore) (id : Text) (r : ListedEvidence) : Access Json :=
  if id = [] then .ok r.record
  else
    match store.objects r.sha with
    | none => .error "object unavailable"
    | some text =>
      if sha256 text ≠ r.sha then .error "evidence integrity failure"
      else do
        let native ← parse text
        r.record.put "native_result" native

/-- `std::clamp(limit, 1, 1000)`. -/
def clampLimit (limit : Nat) : Nat := min (max limit 1) 1000

theorem clampLimit_pos (limit : Nat) : 0 < clampLimit limit := by
  unfold clampLimit
  omega

def listedEvidence (store : ListedStore) (project id : Text) : List ListedEvidence :=
  store.evidence.filter (fun r => r.project = project && (r.id = id || id = []))

/-- `evidence`. -/
def evidencePage (store : ListedStore) (project id : Text) (limit offset : Nat) :
    Access (List Json × Option Nat) :=
  if project ∉ store.projects then .error "unknown project"
  else
    match page (clampLimit limit) 0 (fun _ => .ok 0) (evidenceShown sha256 parse store id)
        (listedEvidence store project id) offset with
    | .error e => .error e
    | .ok (rows, next) =>
      if id ≠ [] ∧ rows = [] then .error "unknown evidence" else .ok (rows, next)

end Objects

/-- `ORDER BY length(address),address`. -/
def functionBefore (a b : ListedFunction) : Bool :=
  a.address.length < b.address.length ||
    (a.address.length = b.address.length && !decide (b.address < a.address))

def listedFunctions (store : ListedStore) (project artifact : Text) : List ListedFunction :=
  (store.functions.filter (fun r =>
    r.project = project && (r.artifact = artifact || artifact = []))).mergeSort functionBefore

/-- `functions`. -/
def functionsPage (store : ListedStore) (project artifact : Text) (limit offset : Nat) :
    Access (List Json × Option Nat) :=
  if project ∉ store.projects then .error "unknown project"
  else
    page (clampLimit limit) 0 (fun _ => .ok 0) (fun r => .ok (functionShown r))
      (listedFunctions store project artifact) offset

def listedViews (store : ListedStore) (id : Text) : List ListedView :=
  store.views.filter (fun r => r.function = id)

/-- The byte budget of a page. -/
def pageBytes : Nat := 2 * 1024 * 1024

/-- `function_views`, the views; the claims of the answer repeat them. A view counts twice. -/
def viewsPage (store : ListedStore) (project id : Text) (limit offset : Nat) :
    Access (List Json × Option Nat) :=
  if project ∉ store.projects then .error "unknown project"
  else if store.functions.any (fun r => r.project = project && r.id = id) = false then
    .error "unknown function"
  else
    page (clampLimit limit) pageBytes (fun r => .ok (utf8Length r.record.dump * 2))
      (fun r => .ok (viewShown r)) (listedViews store id) offset

def listedRows (store : ListedStore) (project address : Text) (f : IndexFilter) : List ListedRow :=
  (store.index f.category).filter (f.takes store project address)

/-- The length of a record as it is shown. -/
def indexCost (store : ListedStore) (r : ListedRow) : Access Nat :=
  (indexShown store r).map (fun row => utf8Length row.dump)

/-- `index_query`, but comparisons. -/
def indexPage (store : ListedStore) (project : Text) (f : IndexFilter) (limit offset : Nat) :
    Access (List Json × Option Nat) :=
  if project ∉ store.projects then .error "unknown project"
  else do
    let address ← f.canonical
    page (clampLimit limit) pageBytes (indexCost store) (indexShown store)
      (listedRows store project address f) offset

end Indago
