import IndagoRev.JsonPointers
import IndagoRev.Utf8
import IndagoRev.Workbench.Calculation
import IndagoRev.Workbench.Harness

/-!
# Pages of evidence

`harness_evidence_page` reads one value of a stored snapshot: a part of a string, some of the
children of a collection, or a scalar.  A page is cut three times: by the budget or the limit
of its request, while it is filled, and by the size of the packet that it becomes.
-/

namespace Indago

open StdText JsonValues Transactions

mutual

/-- `==` of values. -/
def sameJson : Json → Json → Bool
  | .null, .null => true
  | .bool a, .bool b => a == b
  | .int a, .int b => a == b
  | .real a, .real b => a == b
  | .str a, .str b => a == b
  | .arr a, .arr b => sameItems a b
  | .obj a, .obj b => sameFields a b
  | _, _ => false

def sameItems : List Json → List Json → Bool
  | [], [] => true
  | a :: as, b :: bs => sameJson a b && sameItems as bs
  | _, _ => false

def sameFields : List (Text × Json) → List (Text × Json) → Bool
  | [], [] => true
  | (k, a) :: as, (l, b) :: bs => k == l && sameJson a b && sameFields as bs
  | _, _ => false

end

/-- `type_name`. -/
def typeName : Json → Text
  | .null => "null"
  | .bool _ => "boolean"
  | .int _ | .real _ => "number"
  | .str _ => "string"
  | .arr _ => "array"
  | .obj _ => "object"

/-- `is_primitive`. -/
def isPrimitive : Json → Bool
  | .arr _ | .obj _ => false
  | _ => true

/-- A field that may be missing. -/
def optionalField (key : String) (v : Option Json) : List (Text × Json) :=
  (v.map (fun v => (key.toList, v))).toList

inductive EvidenceProjection
  | descriptors
  | scalars
  deriving DecidableEq

structure EvidenceRequest where
  id : Text
  pointer : Text
  offset : Nat
  limit : Nat
  maxBytes : Nat
  pin : Option Json
  projection : EvidenceProjection

/-- The database of evidence and the files of the objects. In a native document the keys of
every object are distinct. -/
structure EvidenceStore where
  evidence : Text → Text → Option (Json × Text)
  fileSize : Text → Nat
  object : Text → Access Text
  sha256 : Text → Text
  parse : Text → Access { native : Json // JsonPointers.KeysDistinct native }

/-- The descriptor of one child. -/
structure PageItem where
  index : Nat
  type : Text
  pointer : Option Text
  key : Option Text
  keySha256 : Option Text
  totalBytes : Option Nat
  totalItems : Option Nat
  value : Option Json
  projected : Bool
  valueOmitted : Option Bool

def PageItem.json (item : PageItem) : Json :=
  .obj ([("index".toList, .int item.index)] ++ optionalField "key" (item.key.map .str) ++
    optionalField "key_sha256" (item.keySha256.map .str) ++
    optionalField "pointer" (item.pointer.map .str) ++
    optionalField "pointer_omitted" (if item.pointer.isNone then some (.bool true) else none) ++
    optionalField "total_bytes" (item.totalBytes.map (fun n => .int n)) ++
    optionalField "total_items" (item.totalItems.map (fun n => .int n)) ++
    [("type".toList, .str item.type)] ++
    optionalField "value" item.value ++
    optionalField "value_omitted" (item.valueOmitted.map .bool) ++
    optionalField "value_projection" (if item.projected then some (.str "scalars") else none))

/-- A page, with the fields that are set so far. -/
structure EvidencePage where
  id : Text
  artifact : Json
  rawSha256 : Text
  revision : Json
  producer : Json
  nativeStatus : Json
  pointer : Text
  offset : Nat
  sourceVerified : Bool
  type : Option Text
  diagnostic : Option Text
  text : Option Text
  items : Option (List PageItem)
  value : Option Json
  total : Option Nat
  nextOffset : Option (Option Nat)
  isPartial : Option Bool

def EvidencePage.json (p : EvidencePage) : Json :=
  .obj ([("artifact_sha256".toList, p.artifact)] ++
    optionalField "diagnostic" (p.diagnostic.map .str) ++
    [("id".toList, .str p.id)] ++
    optionalField "items" (p.items.map (fun items => .arr (items.map PageItem.json))) ++
    [("native_status".toList, p.nativeStatus)] ++
    optionalField "next_offset" (p.nextOffset.map (fun next => match next with
      | some n => .int n
      | none => .null)) ++
    [("offset".toList, .int p.offset)] ++
    optionalField "offset_unit" (if p.items.isSome then some (.str "items".toList)
      else if p.total.isSome then some (.str "utf8_bytes".toList) else none) ++
    optionalField "omitted" (if p.diagnostic.isSome then some (.bool true) else none) ++
    optionalField "partial" (p.isPartial.map .bool) ++
    [("pointer".toList, .str p.pointer), ("producer".toList, p.producer),
      ("raw_sha256".toList, .str p.rawSha256)] ++
    optionalField "representation" (if p.items.isSome then some (.str "child_descriptors".toList)
      else none) ++
    [("revision".toList, p.revision), ("schema".toList, .str "indago.evidence-page.v1".toList),
      ("source_verified".toList, .bool p.sourceVerified)] ++
    optionalField "text" (p.text.map .str) ++
    optionalField "total_bytes" (if p.items.isNone then p.total.map (fun n => .int n) else none) ++
    optionalField "total_items" (if p.items.isSome then p.total.map (fun n => .int n) else none) ++
    optionalField "type" (p.type.map .str) ++
    optionalField "value" p.value)

/-- The size of the packet that a page becomes. -/
def EvidencePage.bytes (p : EvidencePage) : Nat := utf8Length p.json.dump

/-- A page with the text from its offset up to a position. `dump` refuses a part of a
character. -/
def EvidencePage.withText (p : EvidencePage) (t : Text) (stop : Nat) : Access EvidencePage :=
  match Utf8.slice t p.offset stop with
  | none => .error "type_error.316"
  | some text =>
    .ok { p with
      text := some text
      total := some (Utf8.bytes t).length
      nextOffset := some (if stop < (Utf8.bytes t).length then some stop else none)
      isPartial := some (decide (p.offset ≠ 0 ∨ stop ≠ (Utf8.bytes t).length)) }

/-- The loop that cuts a text until its page fits, and the position at which it ends. -/
def fitText (p : EvidencePage) (t : Text) (stop : Nat) : Access (EvidencePage × Nat) :=
  match p.withText t stop with
  | .error e => .error e
  | .ok q =>
    if q.bytes ≤ 4096 then .ok (q, stop)
    else if stop ≤ p.offset then .error "Evidence pointer metadata exceeds packet budget"
    else fitText p t (Utf8.boundary (Utf8.bytes t) p.offset (stop - 1))
  termination_by stop
  decreasing_by
    have := Utf8.boundary_le (Utf8.bytes t) p.offset (stop - 1)
    omega

def stringPage (p : EvidencePage) (t : Text) (budget : Nat) : Access EvidencePage :=
  let bytes := Utf8.bytes t
  if bytes.length < p.offset ∨ bytes[p.offset]?.any Utf8.continuation = true then
    .error "Text offset must be a UTF-8 byte boundary within the string"
  else do
    let stop := Utf8.boundary bytes p.offset (min bytes.length (p.offset + budget))
    let (q, stop) ← fitText p t stop
    if stop = p.offset ∧ p.offset < bytes.length then
      .error "Evidence packet has no room for text; use a shorter pointer"
    else pure q

/-- `evidence_scalar_projection`. -/
def scalarProjection : Json → List (Text × Json)
  | .obj record =>
    record.foldl (fun fields f =>
      if isPrimitive f.2 = false ∨ 512 < utf8Length f.2.dump then fields
      else
        let added := Json.insertField f.1 f.2 fields
        if 1024 < utf8Length (Json.obj added).dump then added.filter (fun g => g.1 != f.1)
        else added) []
  | _ => []

/-- The keys of a collection with its children. -/
def childEntries : Json → List (Text × Json)
  | .arr items => items.zipIdx.map (fun (v, i) => (decimal i, v))
  | .obj fields => fields
  | _ => []

/-- Whether the value of a child is shown as it is. -/
def showsValue (v : Json) : Bool :=
  isPrimitive v &&
    (match v with
      | .str t => decide (utf8Length t ≤ 512)
      | _ => true) &&
    decide (utf8Length v.dump ≤ 512)

variable (store : EvidenceStore) (req : EvidenceRequest)

/-- The descriptor of a child, before its page is measured. -/
def describe (keyed : Bool) (cursor : Nat) (key : Text) (v : Json) : PageItem :=
  let childPointer := req.pointer ++ '/' :: JsonPointers.escapeToken key
  let short := decide (utf8Length childPointer ≤ 1024)
  let fields := if req.projection = .scalars then scalarProjection v else []
  { index := cursor
    type := typeName v
    pointer := if short then some childPointer else none
    key := if short && keyed then some key else none
    keySha256 := if short then none else some (store.sha256 key)
    totalBytes := match v with
      | .str t => some (utf8Length t)
      | _ => none
    totalItems := match v with
      | .arr items => some items.length
      | .obj fields => some fields.length
      | _ => none
    value := if fields ≠ [] then some (.obj fields) else if showsValue v then some v else none
    projected := decide (fields ≠ [])
    valueOmitted :=
      if fields ≠ [] then some (!sameJson (.obj fields) v)
      else if showsValue v then none else some true }

/-- The loop over the children, with those that the page has and the cursor. -/
def fillItems (store : EvidenceStore) (req : EvidenceRequest) (p : EvidencePage) (keyed : Bool) :
    List (Text × Json) → Nat → List PageItem → List PageItem × Nat
  | [], cursor, shown => (shown, cursor)
  | (key, v) :: rest, cursor, shown =>
    if req.limit ≤ shown.length then (shown, cursor)
    else
      let size (item : PageItem) : Nat := { p with items := some (shown ++ [item]) }.bytes
      let item := describe store req keyed cursor key v
      let bare := { item with value := none, valueOmitted := some true }
      if size item ≤ 3700 then fillItems store req p keyed rest (cursor + 1) (shown ++ [item])
      else if size bare ≤ 3700 then
        fillItems store req p keyed rest (cursor + 1) (shown ++ [bare])
      else (shown, cursor)

def collectionPage (p : EvidencePage) (value : Json) : Access EvidencePage :=
  let children := childEntries value
  if children.length < p.offset then .error "Collection offset outside evidence value"
  else
    let p := { p with total := some children.length, items := some [] }
    let (items, cursor) :=
      fillItems store req p value.isObject (children.drop p.offset) p.offset []
    if cursor = p.offset ∧ cursor < children.length then
      .error "Evidence pointer metadata exceeds packet budget"
    else
      .ok { p with
        items := some items
        nextOffset := some (if cursor < children.length then some cursor else none)
        isPartial := some (decide (p.offset ≠ 0 ∨ cursor ≠ children.length)) }

/-- The page of a value, before it is measured. -/
def unmeasuredPage (p : EvidencePage) : Json → Access EvidencePage
  | .str t => stringPage p t req.maxBytes
  | .arr items => collectionPage store req p (.arr items)
  | .obj fields => collectionPage store req p (.obj fields)
  | v =>
    if p.offset ≠ 0 then .error "Scalar evidence has no offset"
    else .ok { p with value := some v, isPartial := some false, nextOffset := some none }

def valuePage (p : EvidencePage) (value : Json) : Access EvidencePage := do
  let q ← unmeasuredPage store req p value
  if 4096 < q.bytes then .error "Evidence page exceeds packet budget" else pure q

variable (inv : Investigation)

/-- The page of a request whose fields are read. -/
def readEvidencePage (req : EvidenceRequest) : Access EvidencePage :=
  match store.evidence inv.project req.id with
  | none => .error "Unknown evidence"
  | some (metadata, rawSha) => do
    let artifact ← metadata.at? "artifact_sha256"
    let inScope := match artifact with
      | .str sha => inv.containsArtifact sha
      | _ => false
    if inScope = false then .error "Evidence outside investigation scope"
    else do
      let raw ← metadata.at? "raw_sha256"
      if raw.isText rawSha = false then .error "Evidence metadata hash mismatch"
      else if req.pin.any (fun pin => !pin.isText rawSha) then
        .error "Stale evidence snapshot pin"
      else do
        let revision ← metadata.at? "revision"
        let producer ← metadata.at? "producer"
        let status ← metadata.at? "status"
        let p : EvidencePage :=
          { id := req.id
            artifact := artifact
            rawSha256 := rawSha
            revision := revision
            producer := producer
            nativeStatus := status
            pointer := req.pointer
            offset := req.offset
            sourceVerified := false
            type := none
            diagnostic := none
            text := none
            items := none
            value := none
            total := none
            nextOffset := none
            isPartial := none }
        if 16 * 1024 * 1024 < store.fileSize rawSha then
          pure { p with
            isPartial := some true
            diagnostic := some ("Native snapshot exceeds 16 MiB read bound; submit a narrower " ++
              "backend query").toList }
        else do
          let bytes ← store.object rawSha
          if store.sha256 bytes ≠ rawSha then .error "Evidence integrity failure"
          else do
            let native ← store.parse bytes
            match JsonPointers.evaluate native.1 req.pointer with
            | none => .error "out_of_range.403"
            | some value =>
              valuePage store req
                { p with sourceVerified := true, type := some (typeName value) } value

end Indago
