import IndagoRev.JsonValues

/-!
# Model responses

`decode_model_response` turns the answer of a chat provider into one bounded
decision. The answer is one JSON object or a stream of events, which is joined to
such an object first. JSON texts and digests are parameters.
-/

namespace Indago

open StdText Transactions JsonValues

/-- The texts of JSON values and the digest. -/
structure TextCodec where
  parse : Text → Access Json
  dump : Json → Text
  sha256 : Text → Text

/-- What the decoder reads of a pinned profile. -/
structure ModelProfile where
  model : Text
  provider : Text
  responseMode : Text
  toolPayloadEncoding : Text
  reasoningEffort : Bool

structure DecodedResponse where
  decision : Json
  message : Json
  usage : Json
  model : Json
  servedProvider : Json
  finishReason : Json

/-- What the decoder returns. -/
structure ModelAnswer extends DecodedResponse where
  responseSha256 : Text

/-- The one tool call that a stream builds. -/
structure StreamCall where
  id : Text
  name : Text
  arguments : Text

/-- The parts that a stream was joined to so far. -/
structure StreamState where
  content : Text
  call : Option StreamCall
  usage : Json
  finish : Text
  model : Text
  provider : Text
  done : Bool

def StreamState.start : StreamState := ⟨[], none, .null, [], [], [], false⟩

variable (old : Text)

/-- A field that is appended where it is there. -/
def appendField (j : Json) (key : Text) : Access Text :=
  match j.get? key with
  | some v => do
    let more ← v.asText
    return old ++ more
  | none => return old

/-- One entry of `tool_calls` in a delta. -/
def readCall (call : Option StreamCall) (t : Json) : Access (Option StreamCall) := do
  let index ← t.at? "index"
  if !index.isZero then
    throw "parallel model tool calls forbidden"
  let out := call.getD ⟨[], [], []⟩
  let id ← appendField out.id t "id"
  match t.get? "function" with
  | some f =>
    let name ← appendField out.name f "name"
    let arguments ← appendField out.arguments f "arguments"
    return some ⟨id, name, arguments⟩
  | none => return some { out with id := id }

/-- The elements that a range-for over a value visits. -/
def elements : Json → List Json
  | .null => []
  | .arr items => items
  | .obj fields => fields.map Prod.snd
  | j => [j]

/-- The finish reason after a choice, which may leave it out. -/
def declaredFinish (c : Json) : Access Text :=
  match c.get? "finish_reason" with
  | some .null => .ok old
  | some v => v.asText
  | none => .ok old

/-- The content after a delta, which may have none. -/
def appendContent (delta : Json) : Text :=
  match delta.get? "content" with
  | some (.str t) => old ++ t
  | _ => old

variable (st : StreamState)

/-- The one choice of an event. -/
def readChoice (c : Json) : Access StreamState := do
  let finish ← declaredFinish st.finish c
  let delta ← c.value "delta" (.obj [])
  let calls ← delta.value "tool_calls" (.arr [])
  let call ← (elements calls).foldlM readCall st.call
  return { st with finish := finish, content := appendContent st.content delta, call := call }

/-- The model that an event names must be the pinned one. -/
def declaredModel (profile : ModelProfile) (old : Text) (event : Json) : Access Text :=
  match event.get? "model" with
  | some v => do
    let declared ← v.asText
    if declared = profile.model then .ok declared
    else .error "provider stream model identity mismatch"
  | none => .ok old

def declaredProvider (event : Json) : Access Text :=
  match event.get? "provider" with
  | some v => v.asText
  | none => .ok old

def declaredUsage (old : Json) (event : Json) : Json :=
  match event.get? "usage" with
  | some (.obj fields) => .obj fields
  | _ => old

/-- The choices of an event, which may have none. -/
def readChoices (event : Json) : Access StreamState :=
  match event.get? "choices" with
  | none => .ok st
  | some choices =>
    if (elements choices).isEmpty then .ok st
    else if choices.size ≠ 1 then .error "multiple model choices forbidden"
    else match choices with
      | .arr (c :: _) => readChoice st c
      | _ => .error "type_error.305"

/-- One event of a stream. -/
def readEvent (profile : ModelProfile) (st : StreamState) (event : Json) : Access StreamState :=
  if event.contains "error" then
    .error "provider returned stream error"
  else do
    let model ← declaredModel profile st.model event
    let provider ← declaredProvider st.provider event
    readChoices { st with
      model := model, provider := provider, usage := declaredUsage st.usage event } event

/-- A line without the carriage return at its end. -/
def stripReturn (line : Text) : Text :=
  if line.getLast? = some '\r' then line.dropLast else line

/-- What follows `data:` in a line that begins with it. -/
def dataOf (line : Text) : Option Text :=
  if startsWith "data:" (stripReturn line) then
    some (((stripReturn line).drop 5).dropWhile (fun c => c = ' '))
  else
    none

/-- The lines of a stream up to the one that ends it. -/
def readLines (codec : TextCodec) (profile : ModelProfile) (st : StreamState) :
    List Text → Access StreamState
  | [] => .ok st
  | line :: rest =>
    match dataOf line with
    | none => readLines codec profile st rest
    | some payload =>
      if payload = "[DONE]" then
        .ok { st with done := true }
      else do
        let event ← codec.parse payload
        let st ← readEvent profile st event
        readLines codec profile st rest

/-- The call as it stands in a message. -/
def StreamCall.json (call : StreamCall) : Json :=
  .obj [("function", .obj [("arguments", .str call.arguments), ("name", .str call.name)]),
    ("id", .str call.id), ("type", .str "function")]

def StreamState.message : Json :=
  .obj [("content", .str st.content), ("role", .str "assistant"),
    ("tool_calls", .arr (st.call.toList.map StreamCall.json))]

/-- The response that a stream stands for. -/
def StreamState.response : Json :=
  .obj [("choices", .arr [.obj [("finish_reason", .str st.finish), ("message", st.message)]]),
    ("model", .str st.model), ("provider", .str st.provider),
    ("usage", st.usage)]

/-- The lines of a text. -/
def lines : Text → List Text
  | [] => []
  | c :: rest =>
    if c = '\n' then [] :: lines rest
    else match lines rest with
      | [] => [[c]]
      | line :: more => (c :: line) :: more

variable (codec : TextCodec)

def readStream (profile : ModelProfile) (wire : Text) : Access Json := do
  let st ← readLines codec profile .start (lines wire)
  if !st.done || st.finish.isEmpty then
    throw "incomplete provider stream; no decision executed"
  return st.response

/-- `keys`: only these fields. -/
def onlyKeys (j : Json) (allowed : List Text) : Access Unit :=
  match j with
  | .obj fields =>
    match fields.find? (fun f => !allowed.contains f.1) with
    | some f => .error (String.ofList ("unknown field: " ++ f.1))
    | none => .ok ()
  | _ => .error "expected an object"

def decisionKinds : List Text :=
  ["analyze", "function", "acceptance", "reason", "retrieve", "record", "checkpoint", "plan",
    "state", "finish"].map String.toList

/-- The message of a structured response: its content becomes the call. -/
def structuredMessage (choice message : Json) : Access Json := do
  let finish ← choice.at? "finish_reason"
  let occupied := match message.get? "tool_calls" with
    | some calls => !(elements calls).isEmpty
    | none => false
  if !finish.isText "stop" || occupied then
    throw "Structured response requires completed content without tool calls"
  let content ← message.at? "content"
  let content ← content.asText
  if content.length > 32768 then
    throw "Structured response exceeds decision budget"
  let parsed ← codec.parse content
  return .obj [("content", .null), ("role", .str "assistant"),
    ("tool_calls", .arr [(StreamCall.mk ("schema_" ++ codec.sha256 content)
      "investigate" (codec.dump parsed)).json])]

/-- The one call of a message, with its identity checked. -/
def soleCall (message : Json) : Access Json := do
  let calls ← message.at? "tool_calls"
  match calls with
  | .arr [call] =>
    let kind ← call.at? "type"
    if !kind.isText "function" then
      throw "model must emit exactly one investigate tool call"
    let function ← call.entry "function"
    let name ← function.entry "name"
    if !name.isText "investigate" then
      throw "model must emit exactly one investigate tool call"
    let callid ← call.at? "id"
    let callid ← callid.asText
    if callid.isEmpty || callid.length > 256 then
      throw "invalid model tool call identity"
    return call
  | _ => throw "model must emit exactly one investigate tool call"

/-- The decision in the arguments of a call. -/
def readDecision (profile : ModelProfile) (call : Json) : Access Json := do
  let function ← call.entry "function"
  let arguments ← function.entry "arguments"
  let arguments ← arguments.asText
  let decision ← codec.parse arguments
  onlyKeys decision ["kind", "payload"]
  let payload ← decision.at? "payload"
  let decision ← if profile.toolPayloadEncoding = "json_string" then do
      match payload with
      | .str t =>
        let inner ← codec.parse t
        decision.put "payload" inner
      | _ => throw "Pinned json_string profile requires a JSON-encoded payload string"
    else pure decision
  let payload ← decision.at? "payload"
  if !payload.isObject then
    throw "investigate payload must be a JSON object, not a quoted or escaped JSON string"
  let kind ← decision.at? "kind"
  let kind ← kind.asText
  if !decisionKinds.contains kind then
    throw "invalid investigation decision"
  return decision

def ModelProfile.messageLimit (profile : ModelProfile) : Nat :=
  if profile.provider = "openrouter" ∧ profile.reasoningEffort = true then 262144 else 32768

/-- The path that both forms of a response share. -/
def decodeJoined (profile : ModelProfile) (response : Json) : Access DecodedResponse := do
  if response.contains "error" then
    throw "provider returned error"
  let model ← response.valueText "model" []
  if model ≠ profile.model then
    throw "provider model identity mismatch; no model fallback allowed"
  let choices ← response.at? "choices"
  match choices with
  | .arr [choice] =>
    let finish ← choice.at? "finish_reason"
    if !finish.isText "tool_calls" && !finish.isText "stop" then
      throw "truncated or blocked model generation; no decision executed"
    let message ← choice.at? "message"
    let message ← if profile.responseMode = "json_schema" then
        structuredMessage codec choice message
      else pure message
    let call ← soleCall message
    let decision ← readDecision codec profile call
    if (codec.dump message).length > profile.messageLimit ∨
        (codec.dump decision).length > 32768 then
      throw "model decision exceeds durable state byte budget"
    let usage ← response.value "usage" .null
    let served ← response.value "provider" .null
    return ⟨decision, message, usage, .str model, served, finish⟩
  | _ => throw "expected one model choice"

def isBlank (c : Char) : Bool := c = ' ' || c = '\t' || c = '\r' || c = '\n'

/-- `decode_model_response`. -/
def decodeModelResponse (profile : ModelProfile) (wire : Text) : Access ModelAnswer :=
  if wire.isEmpty ∨ wire.length > 1048576 then
    .error "model response byte budget exceeded"
  else
    match wire.dropWhile isBlank with
    | [] => .error "empty provider response"
    | c :: rest => do
      let response ← if c = '\x7b' then codec.parse (c :: rest)
        else readStream codec profile (c :: rest)
      let decoded ← decodeJoined codec profile response
      return ⟨decoded, codec.sha256 wire⟩

end Indago
