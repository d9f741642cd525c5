import IndagoRev.Workbench.PacketFrameRefs

/-!
# Streams of a capture

`project_packet_streams` takes the stream numbers of a dissection as they are.  A packet cites
the streams that its layers name, and a stream lists the packets that cite it.
-/

namespace Indago

open StdText JsonValues Transactions JsonPointers

structure StreamRef where
  id : Text
  transport : Text
  nativeOrdinal : Text
  nativePointer : Text

def StreamRef.json (ref : StreamRef) : Json :=
  .obj [("id", .str ref.id), ("native_ordinal", .str ref.nativeOrdinal),
    ("native_pointer", .str ref.nativePointer), ("transport", .str ref.transport)]

structure PacketStream where
  id : Text
  transport : Text
  nativeOrdinal : Text
  packetIds : List Json

def PacketStream.json (profile : Text) (s : PacketStream) : Json :=
  .obj [("complete", .bool false), ("id", .str s.id),
    ("identity_scope", .str ("capture and dissection profile; upstream stream index, " ++
      "not a proven connection incarnation").toList),
    ("membership_scope", .str "returned page only"),
    ("name", .str (s.transport ++ " stream " ++ s.nativeOrdinal)),
    ("native_ordinal", .str s.nativeOrdinal), ("packet_ids", .arr s.packetIds),
    ("process_attribution", .bool false), ("profile_id", .str profile),
    ("transport", .str s.transport)]

/-- What is projected of one packet. The id is read when a stream is cited. -/
structure PacketProjection where
  packet : List (Text × Json)
  id : Json
  frames : FrameVisit
  streamRefs : List StreamRef
  streamPartial : Bool

def PacketProjection.json (hash : Text) (p : PacketProjection) : Json :=
  .obj (Json.insertField "stream_projection_partial" (.bool p.streamPartial)
    (Json.insertField "stream_refs" (.arr (p.streamRefs.map StreamRef.json))
      (Json.insertField "frame_reference_projection_partial" (.bool p.frames.isPartial)
        (Json.insertField "frame_refs" (.arr (p.frames.refs.map (FrameRef.json hash))) p.packet))))

section Projection

variable (sha256 : Text → Text)

/-- The id of a capture and the profile of its dissection. -/
def captureProfile (artifact provenance : Json) : Text :=
  sha256 (Json.arr [.str "indago.wireshark-stream-profile.v1", artifact, provenance,
    .str "one-pass offline dissection; name resolution disabled; upstream defaults"]).dump

/-- The id of a stream in a capture and a dissection profile. -/
def streamId (profile transport number : Text) : Text :=
  "stream_" ++ sha256 (Json.arr [.str profile, .str transport, .str number]).dump

/-- The pointer to the layers of a packet. -/
def layersPointer (i : Nat) : Text :=
  "/native_packets/" ++ decimal i ++ "/_source/layers"

/-- The stream of one transport that the layers name, and whether one is left out. -/
def readStreamRef (profile : Text) (i : Nat) (layers : Json) (transport : Text) :
    Option StreamRef × Bool :=
  match layers.get? transport with
  | none => (none, false)
  | some (.obj layer) =>
    let field := transport ++ ".stream"
    match (Json.obj layer).get? field with
    | none => (none, false)
    | some (.str number) =>
      match canonical32 number with
      | some _ =>
        (some ⟨streamId sha256 profile transport number, transport, number,
          layersPointer i ++ '/' :: transport ++ '/' :: field⟩, false)
      | none => (none, true)
    | some _ => (none, true)
  | some _ => (none, true)

/-- A packet joins the stream that it cites. A stream is made where there is none. -/
def joinStream (packetId : Json) (ref : StreamRef) : List PacketStream → List PacketStream
  | [] => [⟨ref.id, ref.transport, ref.nativeOrdinal, [packetId]⟩]
  | s :: rest =>
    if s.id = ref.id then { s with packetIds := s.packetIds ++ [packetId] } :: rest
    else s :: joinStream packetId ref rest

variable (result : Json)

/-- The layers of a packet in the native document. -/
def layersOf (i : Nat) : Access Json := do
  let natives ← result.at? "native_packets"
  match natives with
  | .arr items =>
    match items[i]? with
    | some native => do
      let source ← native.at? "_source"
      source.at? "layers"
    | none => .error "out_of_range.401"
  | _ => .error "type_error.304"

/-- The id of a packet, where it cites a stream. -/
def citingId (fields : List (Text × Json)) (refs : List StreamRef) : Access Json :=
  if refs = [] then .ok .null else (Json.obj fields).at? "id"

/-- One packet. The hash of the capture has to be a text. -/
def projectPacket (profile : Text) (i : Nat) (packet : Json) : Access PacketProjection :=
  match packet with
  | .obj fields => do
    let layers ← layersOf result i
    let hash ← result.at? "artifact_sha256"
    let _ ← hash.asText
    let tcp := readStreamRef sha256 profile i layers "tcp"
    let udp := readStreamRef sha256 profile i layers "udp"
    let refs := tcp.1.toList ++ udp.1.toList
    let id ← citingId fields refs
    pure ⟨fields, id, projectFrames layers (layersPointer i), refs, tcp.2 || udp.2⟩
  | _ => .error "type_error.305"

/-- A packet joins its streams, one after the other. -/
def PacketProjection.join (streams : List PacketStream) (p : PacketProjection) : List PacketStream :=
  p.streamRefs.foldl (fun streams ref => joinStream p.id ref streams) streams

/-- The loop over the packets. -/
def projectPackets (result : Json) (profile : Text) : List Json → Nat → List PacketStream →
    Access (List PacketProjection × List PacketStream)
  | [], _, streams => .ok ([], streams)
  | packet :: rest, i, streams => do
    let p ← projectPacket sha256 result profile i packet
    let (more, streams) ← projectPackets result profile rest (i + 1) (p.join streams)
    pure (p :: more, streams)

structure StreamProjection where
  profile : Text
  captureHash : Text
  packets : List PacketProjection
  streams : List PacketStream

/-- What a loop over the indices of `packets` goes through. -/
def packetList : Json → Access (List Json)
  | .arr packets => .ok packets
  | .null | .obj [] => .ok []
  | _ => .error "type_error.305"

/-- `project_packet_streams`. -/
def projectPacketStreams : Access StreamProjection := do
  let artifact ← result.at? "artifact_sha256"
  let provenance ← result.at? "provenance"
  let profile := captureProfile sha256 artifact provenance
  let packets ← result.at? "packets"
  let packets ← packetList packets
  let (packets, streams) ← projectPackets sha256 result profile packets 0 []
  pure ⟨profile, artifact.asText.toOption.getD [], packets, streams⟩

end Projection

/-- The result with what is projected. -/
def StreamProjection.json (p : StreamProjection) : Json → Json
  | .obj fields =>
    .obj (Json.insertField "packets" (.arr (p.packets.map (PacketProjection.json p.captureHash)))
      (Json.insertField "streams" (.arr (p.streams.map (PacketStream.json p.profile)))
        (Json.insertField "stream_profile_id" (.str p.profile) fields)))
  | j => j

end Indago
