import IndagoRev.Text

/-!
# The question queue

A long investigation works through a queue of questions that is one file. Every
operation reads the file, checks its arguments, and writes the file again, which may
fail. Strings are those of JavaScript, as lists of UTF-16 code units, and an array has
`none` where it has a hole.
-/

namespace Agent

open StdText

/-- A string of JavaScript. -/
abbrev JsText := List UInt16

/-- An ASCII word as a string. -/
def js (word : Text) : JsText := word.map (fun c => UInt16.ofNat c.toNat)

/-- The white space and line terminators of the language. -/
def jsSpace (u : UInt16) : Bool :=
  u.toNat ∈ [0x9, 0xa, 0xb, 0xc, 0xd, 0x20, 0xa0, 0x1680, 0x2028, 0x2029, 0x202f, 0x205f, 0x3000,
    0xfeff] || (0x2000 ≤ u.toNat && u.toNat ≤ 0x200a)

/-- `String.prototype.trim`. -/
def trim (t : JsText) : JsText := ((t.dropWhile jsSpace).reverse.dropWhile jsSpace).reverse

/-- A path without links: its volume and its segments. -/
structure AbsolutePath where
  volume : JsText
  segments : List JsText

/-- What `path.relative` gives. -/
inductive RelativePath where
  | absolute (file : AbsolutePath)
  | segments (segments : List JsText)

/-- The steps from one directory to a file: up to what both share, then down. -/
def stepsFrom : List JsText → List JsText → List JsText
  | a :: from_, b :: to_ =>
    if a = b then stepsFrom from_ to_
    else List.replicate (from_.length + 1) (js "..") ++ b :: to_
  | from_, to_ => List.replicate from_.length (js "..") ++ to_

/-- `path.relative`. -/
def pathRelative (root file : AbsolutePath) : RelativePath :=
  if root.volume = file.volume then .segments (stepsFrom root.segments file.segments)
  else .absolute file

/-- What a file shows of itself. -/
structure FileInfo where
  isFile : Bool
  size : Nat
  sha256 : JsText

inductive QuestionStatus where
  | pending | active | partialAnswer | answered | blocked | decomposed
  deriving DecidableEq

/-- A cited file, by its segments below the directory. -/
structure Receipt where
  path : List JsText
  sha256 : JsText
  deriving DecidableEq

/-- A question. The file has null where an array had a hole. -/
structure Question where
  id : JsText
  question : JsText
  parent : Option JsText
  dependencies : List (Option JsText)
  status : QuestionStatus
  attempts : Nat
  summary : JsText
  evidence : List (Option Receipt)
  failedApproaches : List (Option JsText)
  nextAction : JsText
  independentlyVerified : Option Bool
  deriving DecidableEq

structure QueueData where
  artifact : JsText
  brief : JsText
  briefHash : JsText
  revision : Nat
  questions : List Question

/-- The file system as one call finds it: the directory of the investigation, where
references lead from there, what is stored, and what `atomic` throws for the data that it
is given. -/
structure Disk where
  root : AbsolutePath
  realpath : JsText → Option AbsolutePath
  stat : AbsolutePath → Option FileInfo
  digest : List JsText → Option JsText
  refuses : QueueData → Option String

/-- An operation on the file. What was saved stays, also when an error is thrown
afterwards. -/
abbrev QueueM (α : Type) := ExceptT String (StateM (Option QueueData)) α

def queueThrow {α : Type} (e : String) : QueueM α := throw e

/-- `read`. -/
def readQueue : QueueM QueueData := do
  match ← get with
  | some d => return d
  | none => queueThrow "ENOENT: no such file or directory"

/-- `atomic`: the file is written beside the old one and then renamed. -/
def atomic (disk : Disk) (d : QueueData) : QueueM QueueData :=
  match disk.refuses d with
  | some e => queueThrow e
  | none => do
    set (some d)
    return d

/-- `save`. -/
def saveQueue (disk : Disk) (d : QueueData) : QueueM QueueData :=
  atomic disk { d with revision := d.revision + 1 }

/-- A check that may refuse, before anything is saved. -/
def check {α : Type} : Except String α → QueueM α
  | .ok a => return a
  | .error e => queueThrow e

/-- An argument that should be a string: one, or another value as it is shown. -/
inductive Argument where
  | text (t : JsText)
  | other (shown : JsText)

/-- The text that `+` makes of a value. -/
def Argument.shown : Argument → JsText
  | .text t => t
  | .other shown => shown

/-- An argument that should be an array, perhaps with holes. -/
inductive ArrayArgument (α : Type) where
  | absent
  | other
  | items (items : List (Option α))

/-- The array, where absent ones are empty. -/
def ArrayArgument.list? {α : Type} : ArrayArgument α → Option (List (Option α))
  | .absent => some []
  | .other => none
  | .items l => some l

/-- `bounded`. -/
def bounded (label : String) (max : Nat) : Argument → Except String JsText
  | .text t =>
    if trim t = [] ∨ max < t.length then .error ("Invalid " ++ label) else .ok t
  | .other _ => .error ("Invalid " ++ label)

structure NewQuestion where
  question : Argument
  dependencies : ArrayArgument Argument

inductive CheckpointStatus where
  | partialAnswer | answered | blocked | other

def CheckpointStatus.status? : CheckpointStatus → Option QuestionStatus
  | .partialAnswer => some .partialAnswer
  | .answered => some .answered
  | .blocked => some .blocked
  | .other => none

structure Checkpoint where
  status : CheckpointStatus
  summary : Argument
  evidence : ArrayArgument Argument
  failedApproaches : ArrayArgument Argument
  nextAction : Argument

/-- The id of the question at a place, counted from one. -/
def questionId (n : Nat) : JsText := js ('q' :: decimal n)

/-- A question that may still be worked on. -/
def Question.isOpen (q : Question) : Bool :=
  q.status = .pending || q.status = .partialAnswer

variable (questions : List Question)

def questionAt (id : JsText) : Option Question :=
  questions.find? (fun q => q.id = id)

/-- A change of the first question with an id. -/
def changeQuestion (id : JsText) (change : Question → Question) : List Question :=
  questions.modify (questions.findIdx (fun q => q.id = id)) change

section Queue

-- `toLowerCase`, the hash of a text, and the review of a checkpoint's text
variable (lower sha256 : JsText → JsText) (checkpointWarnings : JsText → List String)

variable (disk : Disk)

def firstQuestion (brief : JsText) : Question :=
  ⟨questionId 1, brief.take 4000, none, [], .pending, 0, [], [], [],
    js "Decompose the original brief into bounded questions if needed.", none⟩

/-- `initialize`. -/
def initializeQueue (brief : Argument) (artifact : JsText) : QueueM QueueData := do
  let text ← check (bounded "brief" 65536 brief)
  match ← get with
  | some d =>
    if d.briefHash ≠ sha256 text ∨ d.artifact ≠ artifact then
      queueThrow "Investigation brief or artifact changed; use a new investigation"
    else return d
  | none =>
    atomic disk ⟨artifact, text, sha256 text, 0, [firstQuestion text]⟩

/-- What questions are compared by. -/
def normalized (t : JsText) : JsText := lower (trim t)

variable (parent : JsText)

/-- A dependency names an earlier question other than the parent. -/
def namesEarlier (questions : List Question) : Argument → Except String JsText
  | .text id =>
    if id = parent ∨ (questions.any (fun q => q.id = id)) = false then
      .error "Dependencies must name earlier questions other than the parent"
    else .ok id
  | .other _ => .error "Dependencies must name earlier questions other than the parent"

/-- The dependencies of a new question. `some` passes over holes. -/
def checkDependencies (questions : List Question)
    (dependencies : ArrayArgument Argument) : Except String (List (Option JsText)) :=
  match dependencies.list? with
  | none => .error "Dependencies must name earlier questions other than the parent"
  | some deps =>
    if 16 < deps.length then
      .error "Dependencies must name earlier questions other than the parent"
    else deps.mapM (Option.mapM (namesEarlier parent questions))

/-- One item of `add`, after the ones before it. A hole has no fields. -/
def addItem (state : List JsText × List Question) :
    Option NewQuestion → Except String (List JsText × List Question)
  | none => throw "Cannot read properties of undefined (reading 'question')"
  | some item => do
    let question ← bounded "question" 4000 item.question
    if normalized lower question ∈ state.1 then throw "Duplicate question"
    else do
      let deps ← checkDependencies parent state.2 item.dependencies
      return (state.1 ++ [normalized lower question],
        state.2 ++ [⟨questionId (state.2.length + 1), question, some parent, deps.eraseDups, .pending,
          0, [], [], [], [], none⟩])

def decompose (q : Question) : Question := { q with status := .decomposed }

/-- `add`. -/
def addQuestions (items : ArrayArgument NewQuestion) (parent : JsText) : QueueM QueueData := do
  let d ← readQueue
  match questionAt d.questions parent with
  | none => queueThrow "Parent must be an open question"
  | some p =>
    if p.status ≠ .active ∧ p.isOpen = false then queueThrow "Parent must be an open question"
    else
      match items with
      | .items items =>
        if items = [] ∨ 12 < items.length ∨ 128 < d.questions.length + items.length then
          queueThrow "Question capacity exceeded"
        else do
          let added ← check (items.foldlM (addItem lower parent)
            (d.questions.map (fun q => normalized lower q.question), d.questions))
          saveQueue disk { d with questions := changeQuestion added.2 parent decompose }
      | _ => queueThrow "Question capacity exceeded"

/-- `startsWith('..')` of the joined segments. -/
def startsWithUp : List JsText → Bool
  | segment :: _ => (js "..").isPrefixOf segment
  | [] => false

/-- The receipt of one cited file. -/
def receiptOf (ref : Argument) : Except String Receipt := do
  let text ← bounded "evidence path" 2048 ref
  match disk.realpath text with
  | none => throw "ENOENT: no such file or directory"
  | some file =>
    match pathRelative disk.root file with
    | .absolute _ => throw "Evidence must be a bounded file within this investigation"
    | .segments segments =>
      if startsWithUp segments then
        throw "Evidence must be a bounded file within this investigation"
      else
        match disk.stat file with
        | none => throw "ENOENT: no such file or directory"
        | some info =>
          if info.isFile = false ∨ 33554432 < info.size then
            throw "Evidence must be a bounded file within this investigation"
          else if segments.any (fun s =>
              s = js "receipts" ∨ s = js "tool-results") then
            return ⟨segments, info.sha256⟩
          else throw "Use a native receipt or tool-result file"

def checkFailedApproaches (failed : List (Option Argument)) :
    Except String (List (Option JsText)) :=
  failed.mapM (Option.mapM (bounded "failed approach" 1000))

/-- The checks of a checkpoint, with the change that it makes. -/
def checkpointChange (c : Checkpoint) : Except String (Question → Question) := do
  match c.status.status? with
  | none => throw "Invalid checkpoint status"
  | some status => do
    let summary ← bounded "summary" 6000 c.summary
    if checkpointWarnings (summary ++ js "\n" ++ c.nextAction.shown) ≠ [] then
      throw "Checkpoint requires correction"
    else
      match c.evidence.list?, c.failedApproaches.list?, c.nextAction with
      | some evidence, some failed, .text action =>
        if 12 < evidence.length ∨ 12 < failed.length ∨ 2000 < action.length then
          throw "Checkpoint bounds exceeded"
        else do
          let receipts ← evidence.mapM (Option.mapM (receiptOf disk))
          if status = .answered ∧ receipts = [] then
            throw "Answered requires source evidence; it is still a model assessment, not independent verification"
          else do
            let failed ← checkFailedApproaches failed
            return fun q => { q with
              status := status, summary := summary, evidence := receipts,
              failedApproaches := failed, nextAction := action,
              independentlyVerified := some false }
      | _, _, _ => throw "Checkpoint bounds exceeded"

/-- `checkpoint`. -/
def checkpointQuestion (id : JsText) (c : Checkpoint) : QueueM QueueData := do
  let d ← readQueue
  match questionAt d.questions id with
  | none => queueThrow "Only the active question can be checkpointed"
  | some q =>
    if q.status ≠ .active then queueThrow "Only the active question can be checkpointed"
    else do
      let change ← check (checkpointChange checkpointWarnings disk c)
      saveQueue disk { d with questions := changeQuestion d.questions id change }

/-- The cited evidence is not what it was. Reading a null fails. -/
def Question.refuted (q : Question) : Bool :=
  q.status = .answered && q.evidence.any (fun e => match e with
    | some e => disk.digest e.path ≠ some e.sha256
    | none => true)

def revalidate (q : Question) : Question :=
  if q.refuted disk then
    { q with
      status := .blocked
      nextAction := js "Cited evidence changed or disappeared; operator review required." }
  else q

def validateEvidence : QueueM QueueData := do
  let d ← readQueue
  if d.questions.any (Question.refuted disk) then
    saveQueue disk { d with questions := d.questions.map (revalidate disk) }
  else return d

/-- An active question was interrupted. -/
def reopen (q : Question) : Question :=
  if q.status = .active then
    { q with
      status := .partialAnswer
      nextAction :=
        (js "Previous batch interrupted; inspect saved receipts before continuing.") }
  else q

/-- Any value of `maxAttempts`, by what comparing a count with it gives or throws. -/
structure AttemptLimit where
  reached : Nat → Bool
  refuses : Nat → Option String

/-- A number that is finite. -/
def AttemptLimit.number (x : Rat) : AttemptLimit := ⟨fun n => x ≤ n, fun _ => none⟩

variable (limit : AttemptLimit)

def exhaust (q : Question) : Question :=
  if q.isOpen ∧ limit.reached q.attempts = true then { q with status := .blocked } else q

/-- The comparison for one question. -/
def refusal (q : Question) : Option String := if q.isOpen then limit.refuses q.attempts else none

/-- All dependencies of an open question are answered. -/
def Question.ready (q : Question) : Bool :=
  q.isOpen && q.dependencies.all (fun dep =>
    (dep.bind (questionAt questions)).map Question.status = some .answered)

def activate (q : Question) : Question := { q with status := .active, attempts := q.attempts + 1 }

/-- The questions as `next` looks at them. -/
def prepareNext (questions : List Question) : List Question :=
  (questions.map reopen).map (exhaust limit)

def next : QueueM (Option Question) := do
  let d ← validateEvidence disk
  match (d.questions.map reopen).findSome? (refusal limit) with
  | some e => queueThrow e
  | none => do
    let questions := prepareNext limit d.questions
    match questions.findIdx? (Question.ready questions) with
    | some i => do
      let d ← saveQueue disk { d with questions := questions.modify i activate }
      return d.questions[i]?
    | none => do
      let _ ← saveQueue disk { d with questions := questions }
      return none

/-- A call with its arguments. -/
inductive QueueCall where
  | create (brief : Argument) (artifact : JsText)
  | add (items : ArrayArgument NewQuestion) (parent : JsText)
  | checkpoint (id : JsText) (checkpoint : Checkpoint)
  | validateEvidence
  | next (maxAttempts : AttemptLimit)

/-- What a call answers: the question that was activated. -/
def QueueCall.exec : QueueCall → QueueM (Option Question)
  | .create brief artifact => do
    let _ ← initializeQueue sha256 disk brief artifact
    return none
  | .add items parent => do
    let _ ← addQuestions lower disk items parent
    return none
  | .checkpoint id c => do
    let _ ← checkpointQuestion checkpointWarnings disk id c
    return none
  | .validateEvidence => do
    let _ ← Agent.validateEvidence disk
    return none
  | .next maxAttempts => Agent.next disk maxAttempts

variable (file : Option QueueData)

/-- One call on the file, with the disk as it is then. -/
def queueStep (call : QueueCall × Disk) : Option QueueData :=
  (call.1.exec lower sha256 checkpointWarnings call.2 file).2

/-- The file after a run of calls. -/
def queueRun (calls : List (QueueCall × Disk)) : Option QueueData :=
  calls.foldl (queueStep lower sha256 checkpointWarnings) file

/-- The question that a call activates. -/
def activated (call : QueueCall × Disk) : Option Question :=
  match call.1.exec lower sha256 checkpointWarnings call.2 file with
  | (.ok q, _) => q
  | (.error _, _) => none

end Queue

end Agent
