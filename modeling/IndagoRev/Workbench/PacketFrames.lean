import IndagoRev.JsonPointers

/-!
# Frame references of a packet

`project_packet_frame_references` goes through the dissected layers of a packet and cites the
fields that name other frames.  It stops at a number of visits, at a depth, and at a number of
references, and says so.
-/

namespace Indago

open StdText JsonValues JsonPointers

/-- The number of a canonical decimal text, where it has 32 bits. -/
def canonical32 (number : Text) : Option Nat :=
  if number ≠ [] ∧ number.all Char.isDigit = true ∧ ofDecimal number < 2 ^ 32 ∧
      decimal (ofDecimal number) = number then
    some (ofDecimal number)
  else none

/-- The fields that name frames, with the kinds of their references. -/
def frameField (key : Text) : Option Text :=
  if key = "tcp.segment" then some "native_tcp_segment_source"
  else if key = "tcp.reassembled_in" then some "native_tcp_reassembled_in"
  else if key = "tcp.analysis.acks_frame" then some "native_tcp_ack"
  else none

/-- `ends_with("_raw")`. -/
def isRaw (key : Text) : Bool := "_raw".toList.isSuffixOf key

structure FrameRef where
  kind : Text
  frame : Nat
  nativePointer : Text
  nativeFrameNumber : Text

/-- The JSON text of a reference, with the packet that it names in its capture. -/
def FrameRef.json (captureHash : Text) (ref : FrameRef) : Json :=
  .obj [("assertion",
      .str "upstream frame relationship; not independent delivery or reassembly validation"),
    ("kind", .str ref.kind),
    ("native_frame_number", .str ref.nativeFrameNumber),
    ("native_pointer", .str ref.nativePointer),
    ("target_location", .obj [("address", .int ref.frame),
      ("address_space", .str "capture_frame")]),
    ("target_packet_id", .str (captureHash ++ ':' :: ref.nativeFrameNumber))]

/-- The counter of visits, and what the packet has of references. -/
structure FrameVisit where
  visited : Nat
  refs : List FrameRef
  isPartial : Bool

namespace FrameVisit

variable (s : FrameVisit)

def stopped : FrameVisit := { s with isPartial := true }

def counted : FrameVisit := { s with visited := s.visited + 1 }

/-- `add`. -/
def add (raw : Json) (pointer kind : Text) : FrameVisit :=
  if 64 ≤ s.refs.length then s.stopped
  else
    match raw with
    | .str number =>
      match canonical32 number with
      | some frame =>
        if frame = 0 then s.stopped
        else { s with refs := s.refs ++ [⟨kind, frame, pointer, number⟩] }
      | none => s.stopped
    | _ => s.stopped

/-- The first items of a tracked array. -/
def addItems (pointer kind : Text) : List Json → Nat → FrameVisit → FrameVisit
  | [], _, s => s
  | raw :: rest, i, s => addItems pointer kind rest (i + 1) (s.add raw (pointer ++ '/' :: decimal i) kind)

/-- A tracked field. -/
def addField (pointer kind : Text) (v : Json) (s : FrameVisit) : FrameVisit :=
  match v with
  | .arr items =>
    let s := addItems pointer kind (items.take 64) 0 s
    if 64 < items.length then s.stopped else s
  | v => s.add v pointer kind

end FrameVisit

mutual

/-- `visit`. -/
def visitFrames : Json → Text → Nat → FrameVisit → FrameVisit
  | node, pointer, depth, s =>
    if 1024 < s.visited + 1 ∨ 12 < depth then s.counted.stopped
    else
      match node with
      | .obj fields => visitFields fields pointer depth s.counted
      | .arr items => visitItems items 0 pointer depth s.counted
      | _ => s.counted

/-- The loop over the fields of an object. -/
def visitFields : List (Text × Json) → Text → Nat → FrameVisit → FrameVisit
  | [], _, _, s => s
  | (key, v) :: rest, pointer, depth, s =>
    if 1024 ≤ s.visited then s.stopped
    else
      let child := pointer ++ '/' :: escapeToken key
      match frameField key with
      | some kind => visitFields rest pointer depth (s.counted.addField child kind v)
      | none =>
        if isRaw key then visitFields rest pointer depth s.counted
        else visitFields rest pointer depth (visitFrames v child (depth + 1) s)

/-- The loop over the items of an array. -/
def visitItems : List Json → Nat → Text → Nat → FrameVisit → FrameVisit
  | [], _, _, _, s => s
  | v :: rest, i, pointer, depth, s =>
    if 1024 ≤ s.visited then s.stopped
    else
      visitItems rest (i + 1) pointer depth
        (visitFrames v (pointer ++ '/' :: decimal i) (depth + 1) s)

end

/-- `project_packet_frame_references`. -/
def projectFrames (layers : Json) (pointer : Text) : FrameVisit :=
  visitFrames layers pointer 0 ⟨0, [], false⟩

end Indago
