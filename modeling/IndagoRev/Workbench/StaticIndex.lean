import IndagoRev.Workbench.Listings

/-!
# The static index of a native result

`normalize_static` walks the native result of a backend, and lists the objects that it
knows a kind for as entities.  An entity cites the result by a pointer, which also gives
it its id.  A second loop over the entities resolves native ids and block addresses to
relations, and repeats some fields as claims.
-/

namespace Indago

namespace StaticIndex

open StdText JsonValues

/-- What a result is normalized from. `target` is the hash of the artifact. -/
structure Source where
  target : Text
  job : Json
  backend : Text
  evidence : Text
  native : Json
  layout : Json

structure Entity where
  id : Text
  kind : Text
  revision : Text
  producer : Text
  evidenceId : Text
  artifact : Text
  location : Json
  nativeId : Text
  nativeNamespace : Text
  name : Text
  jsonPointer : Text
  native : Json
  deriving Inhabited

/-- The key that the id of an entity hashes. -/
def Entity.key (e : Entity) : Json := .arr [.str e.revision, .str e.producer, .str e.jsonPointer]

structure Relation where
  id : Text
  kind : Text
  source : Option Text
  target : Option Text
  sourceLocation : Json
  targetLocation : Json
  evidenceId : Text
  revision : Text
  producer : Text
  artifact : Text
  jsonPointer : Text
  native : Json

structure Claim where
  id : Text
  subject : Text
  predicate : Text
  value : Json
  producer : Text
  revision : Text
  evidenceId : Text
  jsonPointer : Text
  location : Json
  artifact : Text
  operation : Json

/-- What the walk has found. An assignment to a map stands in front of the ones before. -/
structure Found where
  entities : List Entity := []
  nativeIds : List (Text × Text) := []
  blockAddresses : List (Text × Text) := []
  locations : List (Text × Json) := []
  isPartial : Bool := false

structure Normalized where
  entities : List Entity
  relations : List Relation := []
  claims : List Claim := []
  isPartial : Bool

/-- `address`. -/
def readAddress : Json → Option Nat
  | .int n => if 0 ≤ n then some n.toNat else none
  | .str t =>
    let digits := t.drop 2
    let number := ofHex (digits.map Char.toLower)
    if startsWith "0x" t = true ∧ digits ≠ [] ∧ digits.all isHexDigit = true ∧
        number < 2 ^ 64 then some number
    else none
  | _ => none

/-- `scalar`. -/
def scalar : Json → Text
  | .str t => t
  | .bool b => (Json.bool b).dump
  | .int n => (Json.int n).dump
  | .real token => (Json.real token).dump
  | _ => []

def isNull : Json → Bool
  | .null => true
  | _ => false

/-- The values that a range loop meets. -/
def elements : Json → List Json
  | .null => []
  | .arr items => items
  | .obj fields => fields.map Prod.snd
  | j => [j]

/-- An object of fields in any order. -/
def object (fields : List (Text × Json)) : Json :=
  .obj (fields.foldl (fun rest f => Json.insertField f.1 f.2 rest) [])

/-- `pointer_key`. -/
def pointerKey (s : Text) : Text :=
  s.flatMap (fun c => if c = '~' then ['~', '0'] else if c = '/' then ['~', '1'] else [c])

/-- The namespace of an entity: its pointer without the last token, and without the last
two when the last one is a number. -/
def withoutLast (pointer : Text) : Text :=
  if '/' ∈ pointer then ((pointer.reverse.dropWhile (· ≠ '/')).drop 1).reverse else pointer

def lastToken (pointer : Text) : Text := (pointer.reverse.takeWhile (· ≠ '/')).reverse

def namespaceOf (pointer : Text) : Text :=
  if (lastToken pointer).all Char.isDigit then withoutLast (withoutLast pointer)
  else withoutLast pointer

/-- A key of the maps. -/
def nativeKey (ns kind id : Text) : Text := ns ++ '|' :: (kind ++ ':' :: id)

def blockKey (ns address : Text) : Text := ns ++ '|' :: address

def kinds : List (Text × Text) :=
  [("functions", "function"), ("function", "function"),
    ("blocks", "block"), ("instructions", "instruction"),
    ("operations", "operation"), ("ssa_values", "ssa_value"),
    ("constants", "constant"), ("types", "type"),
    ("variables", "variable"), ("database_variables", "variable"),
    ("parameters", "variable"), ("strings", "string"),
    ("imports", "import"), ("exports", "export"),
    ("symbols", "symbol"), ("metadata", "metadata"),
    ("statements", "statement"), ("tokens", "token"),
    ("calls", "call"), ("xrefs", "xref"),
    ("edges", "cfg_edge"), ("transfers", "cfg_edge"),
    ("indirect_flow_candidates", "indirect_flow"),
    ("function_analysis", "graph_analysis"),
    ("evidence", "native_evidence"),
    ("exception_relations", "exception_relation"),
    ("initialization_callbacks", "initializer"),
    ("virtual_table_slots", "virtual_slot"),
    ("virtual_dispatch", "indirect_flow")]

/-- The kind of the items under a key. -/
def itemKind (backend key : Text) : Option Text :=
  if backend = "capa" ∧ key = "capabilities" then some "capability"
  else if backend = "ilspy" ∧ key = "methods" then some "managed_method"
  else
    match kinds.lookup key with
    | some kind => some kind
    | none =>
      if backend = "ghidra" ∧ key = "varnodes" then some "ssa_value"
      else if backend = "ghidra" ∧ key = "indirect_flows" then
        some "indirect_flow"
      else none

/-- The collections of the root that a backend lists by themselves, in the order of a map. -/
def managedCollections : List (Text × Text) :=
  [("member_refs", "managed_member_reference"), ("references", "managed_assembly_reference"),
    ("resources", "managed_resource")]

def liefCollections : List (Text × Text) :=
  [("libraries", "library"), ("notes", "format_note"),
    ("resources", "resource"), ("sections", "section")]

section Normalize

-- SHA-256 of a text in hexadecimal, the conversion of a number with a fraction, and the
-- equality of the JSON library.
variable (sha256 : Text → Text) (truncate : Text → Nat) (same : Json → Json → Bool)

/-- `id`. -/
def stableId (tag : Text) (key : Json) : Text := tag ++ '_' :: sha256 key.dump

/-- `get<std::uint64_t>`. -/
def asNat : Json → Access Nat
  | .int n => .ok (n % 2 ^ 64).toNat
  | .real token => .ok (truncate token)
  | .bool b => .ok b.toNat
  | _ => .error "type_error.302"

/-- `program`: the program of the result, with the segments of the layout when they are
about the same image. -/
def programOf (src : Source) : Access Json :=
  let program := (src.native.get? "program").getD src.layout
  if program.isObject = true ∧ program.contains "segments" = false ∧
      src.layout.contains "segments" = true then do
    let own ← program.value "image_base" .null
    let base ← src.layout.value "image_base" .null
    if same own base then do
      let segments ← src.layout.entry "segments"
      let program ← program.put "segments" segments
      let mapping ← src.layout.value "mapping_evidence_id" .null
      program.put "mapping_evidence_id" mapping
    else pure program
  else pure program

/-- What the walk and the relations read besides the result. -/
structure Context where
  source : Source
  revision : Text
  program : Json

variable (c : Context)

/-- `base`. -/
def Context.imageBase : Option Nat :=
  if c.program.isObject then readAddress ((c.program.get? "image_base").getD .null)
  else none

/-- The file offset of an address in one segment. -/
def segmentOffset (address : Nat) (segment : Json) : Access (Option Text) := do
  let va ← segment.value "va" .null
  let off ← segment.value "file_offset" .null
  let size ← segment.valueWith (asNat truncate) "file_size" 0
  match readAddress va, readAddress off with
  | some va, some off =>
    if va ≤ address ∧ address - va < size ∧ off ≤ 2 ^ 64 - 1 - (address - va) then
      pure (some (hexAddressText (off + (address - va))))
    else pure none
  | _, _ => pure none

/-- A location with the file offsets of its address. -/
def withOffsets (address : Nat) (loc : Json) : Access Json := do
  let offsets ← (elements ((c.program.get? "segments").getD .null)).mapM
    (segmentOffset truncate address)
  match offsets.filterMap (fun offset => offset) with
  | [] => pure loc
  | [offset] => loc.put "file_offset" (.str offset)
  | candidates => do
    let loc ← loc.put "mapping_ambiguous" (.bool true)
    loc.put "file_offset_candidates" (.arr (candidates.map Json.str))

/-- The id of a place in an artifact. -/
def anchorId (artifact : Json) (space address : Text) : Text :=
  stableId sha256 "loc" (.arr [artifact, .str space, .str address])

/-- `location`, from the address that has been read. -/
def locationAt (nativeSpace : Text) (parsed : Nat) : Access Json := do
  let space := if nativeSpace = "ram" ∨ nativeSpace = "virtual" then
    "program".toList else nativeSpace
  let target := c.source.target
  let loc := object [("artifact_sha256", .str target), ("address_space", .str space),
    ("address", .str (hexAddressText parsed)),
    ("native_address_space", .str nativeSpace)]
  let loc ← match c.program.get? "mapping_evidence_id" with
    | some mapping => loc.put "mapping_evidence_id" mapping
    | none => pure loc
  let loc ← loc.put "anchor_id"
    (.str (anchorId sha256 (.str target) space (hexAddressText parsed)))
  if space ≠ "program" then pure loc
  else do
    let loc ← match c.imageBase with
      | some base =>
        if base ≤ parsed then do
          let loc ← loc.put "image_base" (.str (hexAddressText base))
          loc.put "rva" (.str (hexAddressText (parsed - base)))
        else pure loc
      | none => pure loc
    if c.program.contains "segments" then withOffsets truncate c parsed loc else pure loc

/-- `location`. -/
def location (loc : Json) : Access Json :=
  if c.source.backend = "runtime" ∧ loc.contains "artifact_sha256" = true ∧
      loc.contains "anchor_id" = true then .ok loc
  else do
    let loc := if loc.isObject then loc else .obj [("address", loc)]
    let address ← loc.value "address" .null
    match readAddress address with
    | none => pure .null
    | some parsed => do
      let space ← loc.valueText "address_space" "program"
      locationAt sha256 truncate c space parsed

/-- The location of the first of some fields that has one. -/
def firstLocation (item : Json) : List Text → Access Json
  | [] => pure .null
  | key :: rest =>
    match item.get? key with
    | none => firstLocation item rest
    | some v => do
      let loc ← location sha256 truncate c v
      if isNull loc then firstLocation item rest else pure loc

variable (item : Json)

/-- `item_location`. -/
def itemLocation : Access Json :=
  match item.get? "location" with
  | some (.obj fields) => location sha256 truncate c (.obj fields)
  | _ =>
    match item.get? "source_locations" with
    | some (.arr (first :: _)) => location sha256 truncate c first
    | _ => firstLocation sha256 truncate c item ["address", "entry",
        "begin", "min_address", "va"]

/-- The key of an entity, before it is made. -/
def entityKey (pointer : Text) : Json :=
  .arr [.str c.revision, .str c.source.backend, .str pointer]

def entityId (pointer : Text) : Text := stableId sha256 "ent" (entityKey c pointer)

/-- The field of an item that names it natively. -/
def nativeIdOf : Access Text := do
  let token ← if c.source.backend = "ilspy" then item.value "token" .null
    else pure .null
  let op ← item.value "ir_op" token
  let v ← item.value "id" op
  pure (scalar v)

def nameOf : Access Text := do
  let low ← item.value "low" .null
  let value ← item.value "value" low
  let path ← item.value "path" value
  let text ← item.value "text" path
  let mnemonic ← item.value "mnemonic" text
  let name ← item.value "name" mnemonic
  pure (scalar name)

/-- The key of a block's address. -/
def addressKey (ns : Text) (loc : Json) : Access Text := do
  let address ← loc.entry "address"
  let text ← address.asText
  pure (blockKey ns text)

/-- The addresses of blocks with the one of an entity. -/
def withBlock (kind ns entity : Text) (loc : Json) (blocks : List (Text × Text)) :
    Access (List (Text × Text)) :=
  if isNull loc = false ∧ kind = "block" then do
    let key ← addressKey ns loc
    pure ((key, entity) :: blocks)
  else pure blocks

/-- `add`. -/
def add (kind : Text) (item : Json) (pointer : Text) (inherited : Json) (s : Found) :
    Access Found :=
  if 100000 ≤ s.entities.length then .ok { s with isPartial := true }
  else do
    let own ← itemLocation sha256 truncate c item
    let loc := if isNull own then inherited else own
    let entity := entityId sha256 c pointer
    let nativeId ← nativeIdOf c item
    let name ← nameOf item
    let ns := namespaceOf pointer
    let nativeIds := if nativeId = [] then s.nativeIds
      else (nativeKey ns kind nativeId, entity) :: s.nativeIds
    let locations := if isNull loc then s.locations else (entity, loc) :: s.locations
    let blocks ← withBlock kind ns entity loc s.blockAddresses
    pure
      { s with
        entities := s.entities ++
          [{ id := entity
             kind := kind
             revision := c.revision
             producer := c.source.backend
             evidenceId := c.source.evidence
             artifact := c.source.target
             location := loc
             nativeId := nativeId
             nativeNamespace := ns
             name := name
             jsonPointer := pointer
             native := item }]
        nativeIds := nativeIds
        blockAddresses := blocks
        locations := locations }

/-- An item of a collection of the root. -/
def rootPointer (collection : Text) (i : Nat) : Text :=
  '/' :: (collection ++ '/' :: decimal i)

/-- All items of a collection, or its objects alone. -/
def addItems (collection kind : Text) (objectsOnly : Bool) (items : List Json) (s : Found) :
    Access Found :=
  items.zipIdx.foldlM
    (fun s p =>
      if objectsOnly && !p.1.isObject then pure s
      else add sha256 truncate c kind p.1 (rootPointer collection p.2) .null s) s

variable (value : Json) (s : Found) (collection : Text × Text)

/-- `ilspy`, one collection of the root. It is indexed whatever it is. -/
def managedRoot : Access Found :=
  match value.get? collection.1 with
  | none => pure s
  | some (.arr items) => addItems sha256 truncate c collection.1 collection.2 false items s
  | some v => if v.size = 0 then pure s else .error "type_error.305"

/-- `lief`, one collection of the root. -/
def liefRoot : Access Found :=
  match value.get? collection.1 with
  | some (.arr items) => addItems sha256 truncate c collection.1 collection.2 true items s
  | _ => pure s

/-- Whether the projection of a packet has been cut. -/
def packetCut (packet : Json) : Access Bool := do
  let stream ← packet.valueBool "stream_projection_partial" false
  if stream then pure true
  else packet.valueBool "frame_reference_projection_partial" false

/-- `wireshark`, one packet. -/
def addPacket (p : Json × Nat) : Access Found :=
  if p.1.isObject then do
    let cut ← packetCut p.1
    add sha256 truncate c "packet" p.1 (rootPointer "packets" p.2) .null
      { s with isPartial := s.isPartial || cut }
  else pure s

/-- `wireshark`, the packets of the root. -/
def addPackets : Access Found :=
  match value.get? "packets" with
  | some (.arr items) => items.zipIdx.foldlM (addPacket sha256 truncate c) s
  | _ => pure s

/-- `wireshark`, the streams of the root. -/
def addStreams : Access Found :=
  match value.get? "streams" with
  | some (.arr items) =>
    addItems sha256 truncate c "streams" "packet_stream" true items s
  | _ => pure s

/-- An item under a key, when the key has a kind. -/
def addKinded (key : Text) (item : Json) (pointer : Text) (s : Found) : Access Found :=
  match itemKind c.source.backend key with
  | some kind => add sha256 truncate c kind item pointer .null s
  | none => pure s

/-- An item of an array in the walk. -/
def walkItem (walk : Json → Text → Found → Access Found) (key pointer : Text) (s : Found)
    (p : Json × Nat) : Access Found :=
  if p.1.isObject then do
    let itemPointer := pointer ++ '/' :: decimal p.2
    let s ← addKinded sha256 truncate c key p.1 itemPointer s
    walk p.1 itemPointer s
  else pure s

/-- An object under a key: a method, or a function or constants with the location of the
object around them. -/
def addObject (key : Text) (item : Json) (pointer : Text) (s : Found) : Access Found :=
  if c.source.backend = "ilspy" ∧ key = "method" then
    add sha256 truncate c "managed_method" item pointer .null s
  else if key = "function" ∨ key = "constants" then do
    let inherited ← itemLocation sha256 truncate c value
    add sha256 truncate c ((kinds.lookup key).getD []) item pointer inherited s
  else pure s

/-- A field of an object in the walk. -/
def walkField (walk : Json → Text → Found → Access Found) (value : Json) (path : Text)
    (s : Found) (f : Text × Json) : Access Found :=
  if (c.source.backend = "capa" ∨ c.source.backend = "floss") ∧
      f.1 = "native_document" then pure s
  else
    let pointer := path ++ '/' :: pointerKey f.1
    match f.2 with
    | .arr items => items.zipIdx.foldlM (walkItem sha256 truncate c walk f.1 pointer) s
    | .obj fields => do
      let s ← addObject sha256 truncate c value f.1 (.obj fields) pointer s
      walk (.obj fields) pointer s
    | _ => pure s

/-- `ilspy`, the collections of the root. -/
def managedRoots (path : Text) (s : Found) : Access Found :=
  if c.source.backend = "ilspy" ∧ path = [] then
    managedCollections.foldlM (managedRoot sha256 truncate c value) s
  else pure s

/-- `walk`. The number is 25 less the depth. -/
def walk : Nat → Json → Text → Found → Access Found
  | 0, _, _, s => pure { s with isPartial := true }
  | n + 1, .obj fields, path, s => do
    let value := Json.obj fields
    let s ← managedRoots sha256 truncate c value path s
    if c.source.backend = "wireshark" ∧ path = [] then do
      let s ← addPackets sha256 truncate c value s
      addStreams sha256 truncate c value s
    else if c.source.backend = "lief" ∧ path = [] then
      liefCollections.foldlM (liefRoot sha256 truncate c value) s
    else
      fields.foldlM (walkField sha256 truncate c (walk n) value path) s
  | _ + 1, _, _, s => pure s

end Normalize

end StaticIndex

end Indago
