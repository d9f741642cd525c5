import IndagoRev.Workbench.StaticIndex

/-!
# Relations and claims of the static index

The second loop of `normalize_static`: for each entity that the walk has found, the
relations to blocks, values, packets and places, and the claims that repeat its fields.
-/

namespace Indago

namespace StaticIndex

open StdText JsonValues

variable (sha256 : Text → Text) (truncate : Text → Nat) (same : Json → Json → Bool)
variable (c : Context) (s : Found)

def nullable : Option Text → Json
  | some t => .str t
  | none => .null

/-- `relation`. -/
def relation (owner : Entity) (kind : Text) (source target : Option Text)
    (sourceLocation targetLocation details : Json) : Relation where
  id := stableId sha256 "rel" (object [("kind", .str kind), ("source_entity", nullable source),
      ("target_entity", nullable target), ("source_location", sourceLocation),
      ("target_location", targetLocation),
      ("evidence_id", .str c.source.evidence), ("revision", .str c.revision),
      ("producer", .str c.source.backend),
      ("artifact_sha256", .str c.source.target),
      ("json_pointer", .str owner.jsonPointer), ("native", details)])
  kind := kind
  source := source
  target := target
  sourceLocation := sourceLocation
  targetLocation := targetLocation
  evidenceId := c.source.evidence
  revision := c.revision
  producer := c.source.backend
  artifact := c.source.target
  jsonPointer := owner.jsonPointer
  native := details

variable (e : Entity)

/-- `resolve`, in the namespace of an entity. -/
def resolve (kind : Text) (n : Json) : Option Text :=
  s.nativeIds.lookup (nativeKey e.nativeNamespace kind (scalar n))

/-- The field of an entity that names another one. -/
def resolveField (kind field : Text) : Option Text :=
  (e.native.get? field).bind (resolve s e kind)

/-- Whether an address is in a native range. -/
def inRange (address : Nat) (range : Json) : Access Bool := do
  let low ← range.value "min" .null
  let high ← range.value "max" .null
  match readAddress low, readAddress high with
  | some low, some high =>
    if low ≤ address ∧ address < high then pure true
    else if low ≤ address ∧ address = high then range.valueBool "max_inclusive" false
    else pure false
  | _, _ => pure false

/-- The loop over the ranges stops at the first one that holds the address. -/
def inRanges (address : Nat) : List Json → Access Bool
  | [] => pure false
  | range :: rest => do
    let inside ← inRange address range
    if inside then pure true else inRanges address rest

/-- An entity in the ranges of a function. -/
def containedIn (owner : Entity) (ranges : List Json) (e : Entity) : Access (List Relation) :=
  if e.kind = "function" ∨ e.location.isObject = false then pure []
  else do
    let place ← e.location.entry "address"
    match readAddress place with
    | none => pure []
    | some address => do
      let inside ← inRanges address ranges
      if inside then
        pure [relation sha256 c owner "contains" (some owner.id) (some e.id)
          owner.location e.location (object [("method",
            .str "native Ghidra function-body address ranges")])]
      else pure []

/-- `ghidra`: the entities in the function that was asked for. -/
def functionBody : Access (List Relation) :=
  if c.source.backend = "ghidra".toList then
    match c.source.native.get? "function".toList with
    | none => pure []
    | some function =>
      match s.entities.find? (fun e =>
          e.kind = "function".toList && e.jsonPointer = "/function".toList),
        function.get? "ranges".toList with
      | some owner, some ranges => do
        let relations ← s.entities.mapM (containedIn sha256 c owner (elements ranges))
        pure relations.flatten
      | _, _ => pure []
  else pure []

/-- A place in the metadata of another artifact. -/
def metadataPlace (artifact : Json) (token : Text) : Json :=
  object [("artifact_sha256", artifact),
    ("address_space", .str "managed_metadata"), ("address", .str token),
    ("anchor_id", .str (anchorId sha256 artifact "managed_metadata" token))]

/-- `ilspy`, a member reference that the metadata resolves. Nothing stands for a token that
is no address; the entity is left then. -/
def memberReference : Access (Option (List Relation)) :=
  if c.source.backend = "ilspy" ∧ e.kind = "managed_member_reference" then do
    let resolution ← e.native.valueText "resolution" []
    if resolution = "native_metadata_resolution" then do
      let token ← e.native.at? "target_token"
      match readAddress token with
      | none => pure none
      | some token => do
        let artifact ← e.native.at? "target_artifact_sha256"
        pure (some [relation sha256 c e "managed_member_reference" (some e.id) none
          e.location (metadataPlace sha256 artifact (hexAddressText token)) e.native])
    else pure (some [])
  else pure (some [])

/-- `ilspy`, a reference to an assembly that is known exactly. -/
def assemblyReference : Access (List Relation) :=
  if c.source.backend = "ilspy" ∧ e.kind = "managed_assembly_reference" then do
    let resolution ← e.native.valueText "resolution" []
    if resolution = "exact_assembly_identity" then do
      let artifact ← e.native.at? "target_artifact_sha256"
      pure [relation sha256 c e "managed_assembly_dependency" (some e.id) none
        e.location (metadataPlace sha256 artifact "0x20000001") e.native]
    else pure []
  else pure []

/-- The items of an array under a key. -/
def arrayField (j : Json) (key : Text) : List Json :=
  match j.get? key with
  | some (.arr items) => items
  | _ => []

/-- `wireshark`, the streams of a packet. -/
def streamMembers : List Relation :=
  if c.source.backend = "wireshark" ∧ e.kind = "packet" then
    (arrayField e.native "stream_refs").filterMap (fun stream =>
      (stream.get? "id").map (fun id =>
        relation sha256 c e "native_stream_member" (some e.id)
          (resolve s e "packet_stream" id) e.location .null stream))
  else []

/-- `wireshark`, one frame that a packet refers to. -/
def frameReference (frame : Json) : Access (List Relation) :=
  match frame.get? "target_packet_id", frame.get? "target_location" with
  | some packet, some place => do
    let kind ← frame.valueText "kind" []
    if kind = "native_tcp_segment_source" ∨
        kind = "native_tcp_reassembled_in" ∨ kind = "native_tcp_ack" then do
      let destination ← location sha256 truncate c place
      pure [relation sha256 c e kind (some e.id) (resolve s e "packet" packet)
        e.location destination frame]
    else pure []
  | _, _ => pure []

/-- `wireshark`, the frames that a packet refers to. -/
def frameReferences : Access (List Relation) :=
  if c.source.backend = "wireshark" ∧ e.kind = "packet" then do
    let relations ← (arrayField e.native "frame_refs").mapM
      (frameReference sha256 truncate c s e)
    pure relations.flatten
  else pure []

/-- A candidate of an indirect flow. -/
def dispatchCandidate : Access (List Relation) :=
  if e.kind = "indirect_flow" then
    match e.native.get? "target" with
    | some (.obj fields) => do
      let destination ← location sha256 truncate c (.obj fields)
      if isNull destination then pure []
      else
        pure [relation sha256 c e "static_dispatch_candidate" (some e.id) none
          e.location destination e.native]
    | _ => pure []
  else pure []

variable (entity : Option Text)

/-- The location of an entity that has been resolved. -/
def locationOf : Json :=
  (entity.bind (fun id => s.locations.lookup id)).getD .null

/-- The location that a field of a native edge states, or else another one. -/
def statedLocation (field locationField : Text) (other : Json) : Access Json :=
  match e.native.get? field with
  | some v => location sha256 truncate c ((e.native.get? locationField).getD v)
  | none => pure other

/-- The block at a location, for an endpoint that has not been resolved. -/
def blockAt (loc : Json) : Access (Option Text) :=
  if entity = none ∧ isNull loc = false then do
    let key ← addressKey e.nativeNamespace loc
    pure (s.blockAddresses.lookup key)
  else pure entity

/-- The location of the raw target of an edge, unless that is 0, where there is no other. -/
def rawTarget (other : Json) : Access Json :=
  let raw := (e.native.get? "raw_target").getD
    ((e.native.get? "target").getD .null)
  if isNull other = false then pure other
  else
    match readAddress raw with
    | some 0 => pure .null
    | some _ => location sha256 truncate c raw
    | none => pure .null

def flowKinds : List Text :=
  ["cfg_edge", "xref", "call", "exception_relation", "initializer", "virtual_slot"]

/-- An edge between two places. -/
def flowRelation : Access (List Relation) :=
  if e.kind ∈ flowKinds then do
    let source := if e.native.contains "source".toList then
      resolveField s e "block".toList "source".toList
      else resolveField s e "block".toList "node".toList
    let target := if c.source.backend = "airece".toList ∧ e.kind = "cfg_edge".toList ∧
        e.native.contains "target".toList = true then
      resolveField s e "block".toList "target".toList
      else resolveField s e "block".toList "destination".toList
    let sourceLocation ← statedLocation sha256 truncate c e "from".toList
      "from_location".toList (locationOf s source)
    let targetLocation ← statedLocation sha256 truncate c e "to".toList
      "to_location".toList (locationOf s target)
    let sourceLocation := if isNull sourceLocation then e.location else sourceLocation
    let targetLocation ← rawTarget sha256 truncate c e targetLocation
    let source ← blockAt s e source sourceLocation
    let target ← blockAt s e target targetLocation
    let kind := if c.source.backend = "runtime".toList then "observed_control_flow".toList
      else e.kind
    pure [relation sha256 c e kind source target sourceLocation targetLocation e.native]
  else pure []

/-- An SSA value that an operation defines or uses. -/
def valueRelation (kind : Text) (value : Json) : Relation :=
  relation sha256 c e kind (some e.id) (resolve s e "ssa_value" value) e.location .null
    (object [("native_value", value)])

/-- `ghidra`, the values of an operation. -/
def nativeValues : List Relation :=
  if c.source.backend = "ghidra" then
    (elements ((e.native.get? "inputs").getD .null)).map
        (valueRelation sha256 c s e "uses") ++
      ((e.native.get? "output").filter (fun v => !isNull v)).toList.map
        (valueRelation sha256 c s e "definitions")
  else []

/-- An effect of an operation on memory. -/
def memoryEffect (effects : Json) (effect : Text) : Access (List Relation) := do
  let has ← effects.valueBool effect false
  if has then
    pure [relation sha256 c e (effect ++ "_memory") (some e.id) none e.location .null effects]
  else pure []

def memoryEffects : Access (List Relation) :=
  match e.native.get? "memory_effects" with
  | none => pure []
  | some effects => do
    let reads ← memoryEffect sha256 c e effects "read"
    let writes ← memoryEffect sha256 c e effects "write"
    pure (reads ++ writes)

def operationRelations : Access (List Relation) :=
  if e.kind = "operation" then do
    let effects ← memoryEffects sha256 c e
    pure (nativeValues sha256 c s e ++ (arrayField e.native "definitions").map
        (valueRelation sha256 c s e "definitions") ++
      (arrayField e.native "uses").map (valueRelation sha256 c s e "uses") ++
      effects)
  else pure []

/-- The blocks that a function names by their ids. -/
def functionBlocks : List Relation :=
  if e.kind = "function" then
    ((arrayField e.native "blocks").filter (fun block => !block.isObject)).map
      (fun block => relation sha256 c e "contains" (some e.id)
        (resolve s e "block" block) e.location .null
        (object [("native_block", block)]))
  else []

/-- The relations of an entity. Nothing stands for an entity that is left. -/
def entityRelations : Access (Option (List Relation)) := do
  let members ← memberReference sha256 c e
  match members with
  | none => pure none
  | some members => do
    let assemblies ← assemblyReference sha256 c e
    let frames ← frameReferences sha256 truncate c s e
    let candidates ← dispatchCandidate sha256 truncate c e
    let flows ← flowRelation sha256 truncate c s e
    let operations ← operationRelations sha256 c s e
    pure (some (members ++ assemblies ++ streamMembers sha256 c s e ++ frames ++ candidates ++
      flows ++ operations ++ functionBlocks sha256 c s e))

def claimFields : List Text :=
  ["name", "signature", "type", "semantic_completeness",
    "native_verdict", "memory_effects", "flags", "bytes",
    "value", "constants", "low", "high"]

/-- A claim about a field of an entity. -/
def claim (operation : Json) (field : Text) (value : Json) : Claim where
  id := stableId sha256 "clm" (object
    [("subject", .str e.id), ("predicate", .str field), ("value", value),
      ("state", .str "derived"), ("producer", .str c.source.backend),
      ("revision", .str c.revision), ("evidence_id", .str c.source.evidence),
      ("json_pointer", .str (e.jsonPointer ++ '/' :: field)),
      ("location", e.location),
      ("scope", object [("artifact_sha256", .str c.source.target), ("operation", operation)]),
      ("assumptions",
        .arr [.str "backend-native assertion; not independently validated"]),
      ("validation", .str "unvalidated"),
      ("dependencies", .arr [object [("evidence_id", .str c.source.evidence),
        ("revision", .str c.revision)]])])
  subject := e.id
  predicate := field
  value := value
  producer := c.source.backend
  revision := c.revision
  evidenceId := c.source.evidence
  jsonPointer := e.jsonPointer ++ '/' :: field
  location := e.location
  artifact := c.source.target
  operation := operation

/-- The claim about one field, when the entity has it. -/
def fieldClaim (field : Text) : Access (List Claim) :=
  match e.native.get? field with
  | none => pure []
  | some value => do
    let request ← c.source.job.at? "request"
    let operation ← request.at? "operation"
    pure [claim sha256 c e operation field value]

def entityClaims : Access (List Claim) := do
  let claims ← claimFields.mapM (fieldClaim sha256 c e)
  pure claims.flatten

/-- One entity in the second loop. -/
def indexEntity (out : Normalized) (e : Entity) : Access Normalized := do
  let relations ← entityRelations sha256 truncate c s e
  match relations with
  | none => pure { out with isPartial := true }
  | some relations => do
    let claims ← entityClaims sha256 c e
    pure { out with relations := out.relations ++ relations, claims := out.claims ++ claims }

/-- `normalize_static`. -/
def normalizeStatic (src : Source) : Access Normalized := do
  let revision ← src.job.at? "revision".toList
  let revision ← revision.asText
  let program ← programOf same src
  let c : Context := { source := src, revision := revision, program := program }
  let s ← walk sha256 truncate c 25 src.native [] {}
  let body ← functionBody sha256 c s
  s.entities.foldlM (indexEntity sha256 truncate c s)
    { entities := s.entities, relations := body, isPartial := s.isPartial }

end StaticIndex

end Indago
