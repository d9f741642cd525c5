import IndagoRev.Workbench.Listings

/-!
# Neighborhoods in the evidence graph

`graph` answers a neighborhood or a packet.  It searches from the entities that the seed
filter matches, along current relations, and looks the other ends up by their location, or
by their id where they have none.  Row limits and a byte budget cut the search, and what
does not fit into the answer at the end is dropped from it.
-/

namespace Indago

open StdText JsonValues Cursors

inductive GraphDirection where
  | both | incoming | outgoing
  deriving DecidableEq

/-- A request for a neighborhood or a packet, with the defaults of its fields. -/
structure GraphRequest where
  packet : Bool := false
  id : Option Text := none
  anchor : Option Text := none
  address : Option Json := none
  artifact : Option Text := none
  search : Option Text := none
  depth : Nat := 2
  limit : Nat := 100
  outputBytes : Nat := 262144
  direction : GraphDirection := .both
  kinds : List Text := []

/-- The filter of the seeds. -/
def GraphRequest.seeds (req : GraphRequest) : IndexFilter where
  id := req.id
  anchor := req.anchor
  address := req.address
  artifact := req.artifact
  search := req.search

/-- The bounds of the fields. -/
def GraphRequest.check (req : GraphRequest) : Access PUnit :=
  if 1000 < req.limit then .error "invalid bound: limit"
  else if 8 < req.depth then .error "invalid bound: depth"
  else if 2 * 1024 * 1024 < req.outputBytes then .error "invalid bound: output_bytes"
  else if req.limit = 0 ∨ req.outputBytes < 4096 then
    .error "graph requires positive limit and >=4096 output_bytes"
  else if req.id.isNone ∧ req.anchor.isNone ∧ req.address.isNone ∧ req.search.isNone then
    .error "graph seed required"
  else if 32 < req.kinds.length then .error "kinds must be an array <=32"
  else .ok ()

inductive GraphSide where
  | source | target

/-- The sides that a request leads to. -/
def GraphRequest.sides (req : GraphRequest) : List GraphSide :=
  match req.direction with
  | .both => [.source, .target]
  | .incoming => [.source]
  | .outgoing => [.target]

/-- The sides that a relation is found by. -/
def GraphRequest.entries (req : GraphRequest) : List GraphSide :=
  match req.direction with
  | .both => [.source, .target]
  | .incoming => [.target]
  | .outgoing => [.source]

def GraphSide.entityKey : GraphSide → Text
  | .source => "source_entity"
  | .target => "target_entity"

def GraphSide.locationKey : GraphSide → Text
  | .source => "source_location"
  | .target => "target_location"

/-- The columns of a relation on a side. -/
def GraphSide.entity (t : ListedRow) : GraphSide → Text
  | .source => t.source
  | .target => t.target

def GraphSide.anchor (t : ListedRow) : GraphSide → Text
  | .source => t.sourceAnchor
  | .target => t.targetAnchor

/-- `brief`. -/
def brief (r : Json) : Access Json := do
  let r ← r.drop "native"
  r.put "native_payload_omitted" (.bool true)

/-- An entity of the answer: the row it comes from, its record, what is shown of it, and
its distance. The search reads no row of it. -/
structure MetNode where
  row : ListedRow
  record : Json
  shown : Json
  id : Text
  distance : Nat

/-- A relation of the answer, with the distance of the node that it was met from. -/
structure MetEdge where
  row : ListedRow
  shown : Json
  distance : Nat

structure GraphState where
  nodes : List MetNode := []
  todo : List MetNode := []
  edgeIds : List Text := []
  edges : List MetEdge := []
  bytes : Nat := 2048
  isPartial : Bool := false

section Search

variable (store : ListedStore) (project : Text) (req : GraphRequest) (f : IndexFilter)

/-- The first page of `index_query`, with the rows that its records come from. -/
def indexRows (limit : Nat) : Access (List (ListedRow × Json) × Option Nat) := do
  let address ← f.canonical
  page (clampLimit limit) pageBytes (indexCost store)
    (fun r => (indexShown store r).map (fun row => (r, row)))
    (listedRows store project address f) 0

/-- `node`. -/
def addNode (distance : Nat) (st : GraphState) (p : ListedRow × Json) : Access GraphState := do
  let id ← p.2.at? "id"
  let id ← id.asText
  if st.nodes.any (fun n => n.id = id) then pure st
  else do
    let shown ← brief p.2
    let size := utf8Length shown.dump
    if req.limit ≤ st.nodes.length ∨ req.outputBytes < st.bytes + size then
      pure { st with isPartial := true }
    else
      let n : MetNode := ⟨p.1, p.2, shown, id, distance⟩
      pure { st with bytes := st.bytes + size, nodes := st.nodes ++ [n], todo := st.todo ++ [n] }

/-- The records of one query, at a distance. -/
def addRecords (limit distance : Nat) (st : GraphState) : Access GraphState := do
  let (records, next) ← indexRows store project f limit
  records.foldlM (addNode req distance) { st with isPartial := st.isPartial || next.isSome }

variable (record : Json)

/-- The filter for the entities at one end of a relation. -/
def endFilter (side : GraphSide) : Access (Option IndexFilter) := do
  let entity ← record.value side.entityKey .null
  let loc ← record.value side.locationKey .null
  match loc.get? "anchor_id" with
  | some anchor => do
    let anchor ← anchor.asText
    pure (some { artifact := req.artifact, anchor := some anchor })
  | none =>
    match entity with
    | .str id => pure (some { artifact := req.artifact, id := some id })
    | _ => pure none

/-- The entities at one end of a relation. -/
def addEnd (distance : Nat) (st : GraphState) (side : GraphSide) : Access GraphState := do
  let f ← endFilter req record side
  match f with
  | none => pure st
  | some f => addRecords store project req f (min req.limit 32) distance st

/-- Whether a relation is of the kinds that are asked for. -/
def wanted : Access Bool :=
  if req.kinds = [] then pure true
  else do
    let kind ← record.valueText "kind" []
    pure (req.kinds.contains kind)

/-- The loop over the relations of an entity, after so many rows. -/
def scan (distance : Nat) : Nat → List ListedRow → GraphState → Access GraphState
  | _, [], st => pure st
  | scanned, t :: rest, st =>
    if req.limit ≤ scanned then pure { st with isPartial := true }
    else do
      let takes ← wanted req t.record
      if takes = false then scan distance (scanned + 1) rest st
      else do
        let id ← t.record.entry "id"
        let id ← id.asText
        if id ∈ st.edgeIds then scan distance (scanned + 1) rest st
        else do
          let shown ← brief t.record
          let size := utf8Length shown.dump
          if req.limit ≤ st.edges.length ∨ req.outputBytes < st.bytes + size then
            pure { st with edgeIds := st.edgeIds ++ [id], isPartial := true }
          else do
            let met : GraphState :=
              { st with
                bytes := st.bytes + size
                edgeIds := st.edgeIds ++ [id]
                edges := st.edges ++ [⟨t, shown, distance⟩] }
            let st ← req.sides.foldlM (addEnd store project req t.record (distance + 1)) met
            scan distance (scanned + 1) rest st

variable (id anchor : Text)

/-- Whether an entity is at an end of a relation: by its id, or by its location. -/
def matchesSide (t : ListedRow) (side : GraphSide) : Bool :=
  side.entity t = id || (anchor ≠ [] && side.anchor t = anchor)

/-- The rows of the join with the heads: a relation comes once for each scope that its
revision is current in. -/
def headCopies (t : ListedRow) : List ListedRow :=
  (store.heads.filter (fun h => h = (t.project, t.revision))).map (fun _ => t)

/-- The current relations of an entity, in the order of their ids. -/
def relationsOf : List ListedRow :=
  (((store.index .relations).flatMap (headCopies store)).filter (fun t =>
    t.project = project && asks req.artifact t.artifact &&
      req.entries.any (matchesSide id anchor t))).insertionSort (fun t u => t.id ≤ u.id)

/-- The anchor of an entity's location. -/
def anchorOf : Access Text := do
  let loc ← record.value "location" .null
  if loc.isObject then loc.valueText "anchor_id" [] else pure []

/-- One entity of the queue, below the depth. -/
def expandNode (n : MetNode) (st : GraphState) : Access GraphState := do
  let anchor ← anchorOf n.record
  scan store project req n.distance 0
    ((relationsOf store project req n.id anchor).take (req.limit + 1)) st

/-- The loop over the queue. -/
def expandAll : Nat → GraphState → Access GraphState
  | 0, st => pure st
  | rounds + 1, st =>
    match st.todo with
    | [] => pure st
    | n :: rest =>
      if req.depth ≤ n.distance then expandAll rounds { st with todo := rest }
      else do
        let st ← expandNode store project req n { st with todo := rest }
        expandAll rounds st

/-- The search. It meets no more entities than the limit, and takes each out once. -/
def searchGraph : Access GraphState := do
  let st ← addRecords store project req req.seeds req.limit 0 {}
  expandAll store project req req.limit st

end Search

structure GraphAnswer where
  nodes : List Json
  edges : List Json
  claims : List Json := []
  disagreements : List Json := []
  isPartial : Bool

/-- The loop that takes records while they fit into the budget. -/
def takeWithin (budget : Nat) : List Json → Nat → List Json × Nat × Bool
  | [], bytes => ([], bytes, false)
  | record :: rest, bytes =>
    let size := utf8Length record.dump
    if budget < bytes + size then ([], bytes, true)
    else
      let (taken, bytes, cut) := takeWithin budget rest (bytes + size)
      (record :: taken, bytes, cut)

/-- What is added to a packet. -/
structure PacketState where
  claims : List Json := []
  disagreements : List Json := []
  anchors : List Text := []
  bytes : Nat
  isPartial : Bool

section Answers

-- `json_extract(…,'$.value') IS NOT …` of two claims.
variable (differ : Json → Json → Bool)
variable (store : ListedStore) (project : Text) (req : GraphRequest)

/-- Whether a claim's revision is current anywhere. -/
def currentRevision (r : ListedRow) : Bool := store.heads.any (fun h => h.2 = r.revision)

/-- `index_query`, comparisons: the pairs of claims that disagree at a location. -/
def comparisons (anchor : Text) : List (ListedRow × ListedRow) :=
  let claims := (store.index .claims).insertionSort (fun a b => a.id ≤ b.id)
  claims.flatMap (fun a =>
    (claims.filter (fun b =>
      a.project = project && a.backend ≠ b.backend && decide (a.id < b.id) &&
        a.predicate = b.predicate && currentRevision store a && currentRevision store b &&
        differ a.record b.record &&
        (store.index .entities).any (fun ea => ea.id = a.subject && ea.anchor = anchor &&
          (store.index .entities).any (fun eb => eb.id = b.subject &&
            eb.project = ea.project && eb.anchor = ea.anchor && eb.kind = ea.kind)))).map
      (fun b => (a, b)))

/-- A pair as it is shown. -/
def comparisonShown (p : ListedRow × ListedRow) : Json :=
  .obj [("view_a", p.1.record), ("view_b", p.2.record)]

/-- The disagreements at a location that has not been looked at. -/
def addDisagreements (anchor : Text) (st : PacketState) : PacketState :=
  if anchor = [] ∨ anchor ∈ st.anchors then st
  else
    let pairs := comparisons differ store project anchor
    let (taken, bytes, cut) :=
      takeWithin req.outputBytes ((pairs.take 100).map comparisonShown) st.bytes
    { st with
      anchors := anchor :: st.anchors
      disagreements := st.disagreements ++ taken
      bytes := bytes
      isPartial := st.isPartial || cut || decide (100 < pairs.length) }

/-- The claims and the disagreements of an entity. -/
def addPayload (st : PacketState) (n : MetNode) : Access PacketState := do
  let (claims, next) ← indexPage store project { category := .claims, subject := some n.id } 20 0
  let (taken, bytes, cut) := takeWithin req.outputBytes claims st.bytes
  let anchor ← anchorOf n.shown
  pure (addDisagreements differ store project req anchor
    { st with
      claims := st.claims ++ taken
      bytes := bytes
      isPartial := st.isPartial || next.isSome || cut })

/-- The answer before it is trimmed. -/
def fullAnswer (st : GraphState) : Access GraphAnswer :=
  let nodes := st.nodes.map MetNode.shown
  let edges := st.edges.map MetEdge.shown
  if req.packet then do
    let p ← st.nodes.foldlM (addPayload differ store project req)
      { bytes := st.bytes, isPartial := st.isPartial }
    pure ⟨nodes, edges, p.claims, p.disagreements, p.isPartial⟩
  else pure { nodes := nodes, edges := edges, isPartial := st.isPartial }

def GraphDirection.text : GraphDirection → Text
  | .both => "both"
  | .incoming => "in"
  | .outgoing => "out"

def interpretation : Text :=
  ("Normalized references connect native discoveries; traversal is not a " ++
    "feasibility, equivalence or causation proof").toList

def omissions : Json :=
  .arr [.str "native payloads: use evidence IDs and JSON pointers",
    .str "unknown control/dataflow endpoints remain unknown",
    .str "nonselected neighborhoods and runtime windows",
    .str "no model-generated summary"]

variable (answer : GraphAnswer)

/-- The answer as it is sent. -/
def GraphAnswer.json : Json :=
  if req.packet then
    .obj [("claims", .arr answer.claims), ("depth", .int req.depth),
      ("direction", .str req.direction.text),
      ("disagreements", .arr answer.disagreements),
      ("interpretation", .str interpretation), ("nodes", .arr answer.nodes),
      ("omissions", omissions), ("partial", .bool answer.isPartial),
      ("relationships", .arr answer.edges),
      ("schema", .str "indago.evidence-packet.v1")]
  else
    .obj [("depth", .int req.depth), ("direction", .str req.direction.text),
      ("interpretation", .str interpretation), ("nodes", .arr answer.nodes),
      ("partial", .bool answer.isPartial), ("relationships", .arr answer.edges),
      ("schema", .str "indago.graph.v1")]

/-- The length of an answer. -/
def GraphAnswer.bytes : Nat := utf8Length (answer.json req).dump

/-- How many records an answer has. -/
def GraphAnswer.size : Nat :=
  answer.nodes.length + answer.edges.length + answer.claims.length + answer.disagreements.length

/-- One round of the last loop. -/
def GraphAnswer.dropLast (answer : GraphAnswer) : GraphAnswer :=
  if answer.disagreements ≠ [] then
    { answer with disagreements := answer.disagreements.dropLast, isPartial := true }
  else if answer.claims ≠ [] then
    { answer with claims := answer.claims.dropLast, isPartial := true }
  else if answer.edges ≠ [] then
    { answer with edges := answer.edges.dropLast, isPartial := true }
  else { answer with nodes := answer.nodes.dropLast, isPartial := true }

/-- The last loop: a record is dropped for as long as the answer is too long. -/
def GraphAnswer.trim : Nat → GraphAnswer → GraphAnswer
  | 0, answer =>
    if req.outputBytes < answer.bytes req then { answer with isPartial := true } else answer
  | rounds + 1, answer =>
    if req.outputBytes < answer.bytes req then GraphAnswer.trim rounds answer.dropLast
    else answer

/-- `graph`, a neighborhood or a packet. -/
def graph : Access GraphAnswer :=
  if project ∉ store.projects then .error "unknown project"
  else do
    req.check
    let st ← searchGraph store project req
    let answer ← fullAnswer differ store project req st
    pure (answer.trim req answer.size)

end Answers

end Indago
