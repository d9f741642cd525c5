import IndagoRev.SequencedLogs

/-!
# The collector of executed blocks

A client inside the traced program logs blocks, the memory that instructions read and write,
the transfers between blocks and the modules that come and go.  All callbacks share a count of
the numbered records, which a budget limits.
-/

namespace Indago.Collector

open SequencedLogs

inductive TransferKind where
  | call | ret | indirectJump
  deriving DecidableEq

inductive Record where
  | module (loaded : Bool) (start finish : Nat) (path : List UInt8) (pathTruncated : Bool)
  | memoryEffect (sequence timestamp thread pc address size : Nat) (write : Bool)
      (before : List UInt8)
  | memoryEffectCompleted (sequence attempt thread pc address size : Nat) (after : List UInt8)
      (confirmed : Bool)
  | controlTransfer (kind : TransferKind) (sequence timestamp thread pc target : Nat)
  | controlTransferTaken (sequence attempt thread pc target : Nat)
  | basicBlock (sequence thread pc : Nat) (rva : Option Nat) (size : Nat) (bytes : List UInt8)
      (priorWrite priorConfirmed : Nat)
  | collectionLimit

def Record.sequence : Record → Option Nat
  | memoryEffect n _ _ _ _ _ _ _ => some n
  | memoryEffectCompleted n _ _ _ _ _ _ _ => some n
  | controlTransfer _ n _ _ _ _ => some n
  | controlTransferTaken n _ _ _ _ => some n
  | basicBlock n _ _ _ _ _ _ _ => some n
  | _ => none

inductive Operand where
  | register
  | memory (address size : Nat)

/-- A decoded instruction, with the addresses that its operands have when it is reached. -/
structure Instruction where
  isMovStore : Bool
  sources : List Operand
  destinations : List Operand

structure PendingWrite where
  pc : Nat
  address : Nat
  size : Nat
  attempt : Nat
  unconditional : Bool

structure ThreadWrites where
  writes : List PendingWrite := []
  source : Nat := 0
  target : Nat := 0
  transfer : Nat := 0

/-- An entry of `written_pages`, `write_sequences` and `completed_sequences`. -/
structure PageEntry where
  page : Nat
  written : Nat
  completed : Nat

def PageEntry.write (n : Nat) (e : PageEntry) : PageEntry := { e with written := n }

def PageEntry.complete (n : Nat) (e : PageEntry) : PageEntry := { e with completed := n }

structure Config where
  budget : Nat
  effects : Bool
  imageStart : Nat
  imageEnd : Nat

structure State where
  count : Nat := 0
  capped : Bool := false
  pages : List PageEntry := []
  threads : Nat → ThreadWrites := fun _ => {}
  moduleEvents : Nat := 0
  output : List Record := []

/-- What calls the collector.  `read` are the bytes that can be read from an address, up to a
number of them; an instruction is not `decoded` if its bytes cannot be read either. -/
inductive Callback where
  | moduleEvent (loaded : Bool) (start finish : Nat) (path : List UInt8)
  | writesCompleted (thread : Nat) (read : Nat → Nat → List UInt8)
  | transferKind (thread pc target : Nat) (kind : TransferKind) (timestamp : Nat)
  | memoryEffects (thread pc : Nat) (instruction : Instruction) (decoded : Bool)
      (read : Nat → Nat → List UInt8) (timestamp : Nat)
  | record (thread pc size : Nat) (read : Nat → Nat → List UInt8)

/-- `++count` and a line of the output. -/
def State.emit (s : State) (r : Nat → Record) : State :=
  { s with count := s.count + 1, output := s.output ++ [r (s.count + 1)] }

def State.setThread (s : State) (thread : Nat) (t : ThreadWrites) : State :=
  { s with threads := fun i => if i = thread then t else s.threads i }

/-- A thread waits for the completion of eight writes at most. -/
def State.pushWrite (s : State) (thread : Nat) (w : PendingWrite) : State :=
  let t := s.threads thread
  if t.writes.length < 8 then s.setThread thread { t with writes := t.writes ++ [w] } else s

/-- The number of the page of an address of 64 bits. -/
def pageOf (address : Nat) : Nat := address % 2 ^ 64 / 4096

def setPage (page : Nat) (f : PageEntry → PageEntry) : List PageEntry → List PageEntry
  | [] => [f ⟨page, 0, 0⟩]
  | e :: rest => if e.page = page then f e :: rest else e :: setPage page f rest

def State.mark (s : State) (page : Nat) (f : PageEntry → PageEntry) : State :=
  let pages := setPage page f s.pages
  if pages.length ≤ 4096 then { s with pages } else { s with capped := true }

variable (page : Nat) (pages : List PageEntry)

/-- The loop over the table, which leaves the last entry of a page. -/
def found : PageEntry :=
  pages.foldl (fun last e => if e.page = page then e else last) ⟨page, 0, 0⟩

section Callbacks

variable (cfg : Config)

def moduleEvent (loaded : Bool) (start finish : Nat) (path : List UInt8) (s : State) : State :=
  let s' := { s with moduleEvents := (s.moduleEvents + 1) % 2 ^ 32 }
  if s.moduleEvents < 256 then
    { s' with
      output := s.output ++ [.module loaded start finish (path.take 2048) (2048 < path.length)] }
  else { s' with capped := true }

/-- The loop over the pages of a completed write, of which there are no more than bytes. -/
def markPages (last sequence : Nat) : Nat → Nat → State → State
  | 0, _, s => s
  | fuel + 1, page, s =>
    let s := s.mark page (PageEntry.complete sequence)
    if page = last then s else markPages last sequence fuel ((page + 1) % 2 ^ 52) s

def completeWrite (thread : Nat) (read : Nat → Nat → List UInt8) (w : PendingWrite)
    (s : State) : State :=
  let s := s.emit (.memoryEffectCompleted · w.attempt thread w.pc w.address w.size
    (read w.address (min w.size 16)) w.unconditional)
  if w.unconditional ∧ 0 < w.size ∧ w.size ≤ 4096 then
    markPages (pageOf (w.address + w.size - 1)) s.count w.size (pageOf w.address) s
  else s

def completeWrites (thread : Nat) (read : Nat → Nat → List UInt8) :
    List PendingWrite → State → State
  | [], s => s
  | w :: rest, s =>
    if cfg.budget ≤ s.count then { s with capped := true }
    else completeWrites thread read rest (completeWrite thread read w s)

def writesCompleted (thread : Nat) (read : Nat → Nat → List UInt8) (s : State) : State :=
  let s' := completeWrites cfg thread read (s.threads thread).writes s
  s'.setThread thread { s'.threads thread with writes := [] }

def transferKind (thread pc target : Nat) (kind : TransferKind) (timestamp : Nat) (s : State) :
    State :=
  let s' := if s.count < cfg.budget then s.emit (.controlTransfer kind · timestamp thread pc target)
    else { s with capped := true }
  if s'.count < cfg.budget then
    s'.setThread thread { s'.threads thread with source := pc, target, transfer := s'.count }
  else s'

/-- The body of the loops over the operands. -/
def memoryEffect (thread pc : Nat) (isMovStore write : Bool) (read : Nat → Nat → List UInt8)
    (timestamp : Nat) (s : State) : Operand → State
  | .register => s
  | .memory address size =>
    let s := s.emit (.memoryEffect · timestamp thread pc address size write
      (read address (min size 16)))
    if write then
      (s.mark (pageOf address) (PageEntry.write s.count)).pushWrite thread
        ⟨pc, address, size, s.count, isMovStore⟩
    else s

def effectLoop (thread pc : Nat) (isMovStore write : Bool) (read : Nat → Nat → List UInt8)
    (timestamp : Nat) : List Operand → State → State
  | [], s => s
  | operand :: rest, s =>
    if s.count < cfg.budget then
      effectLoop thread pc isMovStore write read timestamp rest
        (memoryEffect thread pc isMovStore write read timestamp s operand)
    else s

variable (thread pc : Nat)

def memoryEffects (instruction : Instruction) (decoded : Bool)
    (read : Nat → Nat → List UInt8) (timestamp : Nat) (s : State) : State :=
  let s := s.setThread thread { s.threads thread with writes := [] }
  if cfg.budget ≤ s.count then { s with capped := true }
  else if decoded then
    effectLoop cfg thread pc instruction.isMovStore true read timestamp instruction.destinations
      (effectLoop cfg thread pc instruction.isMovStore false read timestamp instruction.sources s)
  else s

/-- The transfer of a thread ends with the next block that it enters. -/
def takeTransfer (s : State) : State :=
  let t := s.threads thread
  if t.transfer = 0 then s
  else
    let s' := if t.target = pc then
      s.emit (.controlTransferTaken · t.transfer thread t.source pc) else s
    s'.setThread thread { t with transfer := 0 }

def record (thread pc size : Nat) (read : Nat → Nat → List UInt8) (s : State) : State :=
  if s.count < cfg.budget then
    let s := takeTransfer thread pc s
    if cfg.budget ≤ s.count then { s with capped := true }
    else
      s.emit (.basicBlock · thread pc
        (if cfg.imageStart ≤ pc ∧ pc < cfg.imageEnd then some (pc - cfg.imageStart) else none)
        size (if cfg.effects then read pc (min size 32) else [])
        (if cfg.effects then (found (pageOf pc) s.pages).written else 0)
        (found (pageOf pc) s.pages).completed)
  else if s.capped then s
  else { s with capped := true, output := s.output ++ [.collectionLimit] }

def step (s : State) : Callback → State
  | .moduleEvent loaded start finish path => moduleEvent loaded start finish path s
  | .writesCompleted thread read => writesCompleted cfg thread read s
  | .transferKind thread pc target kind timestamp =>
    transferKind cfg thread pc target kind timestamp s
  | .memoryEffects thread pc instruction decoded read timestamp =>
    memoryEffects cfg thread pc instruction decoded read timestamp s
  | .record thread pc size read => record cfg thread pc size read s

/-- `instrument` has these called only where effects are asked for. -/
def Inserted : Callback → Prop
  | .moduleEvent .. | .record .. => True
  | _ => cfg.effects = true

/-- Of `collection_end`: the events, and whether they are partial. -/
def finished (s : State) : Nat × Bool := (s.count, s.capped)

end Callbacks

/-- A write of so many bytes changes a byte of the page. -/
def touches (address size page : Nat) : Prop :=
  ∃ i < size, pageOf (address + i) = page

instance {address size page : Nat} : Decidable (touches address size page) :=
  inferInstanceAs (Decidable (∃ i < size, pageOf (address + i) = page))

/-- The number of an attempted write of the page. -/
def attempted : Record → Option Nat
  | .memoryEffect n _ _ _ address size true _ =>
    if touches address size page then some n else none
  | _ => none

def confirmed : Record → Option Nat
  | .memoryEffectCompleted n _ _ _ address size _ true =>
    if touches address size page then some n else none
  | _ => none

/-- What is right about a record behind those before it. -/
def Accounted (before : List Record) : Record → Prop
  | .basicBlock _ _ pc _ _ _ priorWrite priorConfirmed =>
    priorConfirmed = latest (confirmed (pageOf pc)) before ∧
      priorWrite = latest (attempted (pageOf pc)) before
  | .memoryEffectCompleted _ _ _ _ address size _ true =>
    ∀ page, touches address size page → ∃ r ∈ before, attempted page r ≠ none
  | _ => True

/-- What is to be recorded of the callbacks. -/
inductive Content where
  | module (loaded : Bool) (start finish : Nat)
  | effect (thread pc address size : Nat) (write : Bool)
  | completion (thread pc address size : Nat)
  | transfer (thread pc target : Nat) (kind : TransferKind)
  deriving DecidableEq

def Record.content : Record → Option Content
  | module loaded start finish _ _ => some (.module loaded start finish)
  | memoryEffect _ _ thread pc address size write _ => some (.effect thread pc address size write)
  | memoryEffectCompleted _ _ thread pc address size _ _ =>
    some (.completion thread pc address size)
  | controlTransfer kind _ _ thread pc target => some (.transfer thread pc target kind)
  | _ => none

def memoryOf (operands : List Operand) : List (Nat × Nat) :=
  operands.filterMap fun
    | .register => none
    | .memory address size => some (address, size)

/-- The pc, address and size of what the last instruction of a thread writes. -/
abbrev Attempts := Nat → List (Nat × Nat × Nat)

def attempts (a : Attempts) : Callback → Attempts
  | .memoryEffects thread pc i _ _ _ => fun j =>
    if j = thread then (memoryOf i.destinations).map (fun w => (pc, w)) else a j
  | .writesCompleted thread _ => fun j => if j = thread then [] else a j
  | _ => a

def owed (a : Attempts) : Callback → List Content
  | .moduleEvent loaded start finish _ => [.module loaded start finish]
  | .writesCompleted thread _ => (a thread).map (fun w => .completion thread w.1 w.2.1 w.2.2)
  | .transferKind thread pc target kind _ => [.transfer thread pc target kind]
  | .memoryEffects thread pc i _ _ _ =>
    (memoryOf i.sources).map (fun w => .effect thread pc w.1 w.2 false) ++
      (memoryOf i.destinations).map (fun w => .effect thread pc w.1 w.2 true)
  | .record .. => []

def due : List Callback → Attempts → List Content
  | [], _ => []
  | c :: rest, a => owed a c ++ due rest (attempts a c)

variable (cfg : Config)

def run (callbacks : List Callback) : State := callbacks.foldl (step cfg) {}

structure Accounting (callbacks : List Callback) : Prop where
  numbered : Numbered Record.sequence (run cfg callbacks).output (run cfg callbacks).count
  bounded : (run cfg callbacks).count ≤ cfg.budget
  complete : (finished (run cfg callbacks)).2 = false →
    (run cfg callbacks).output.filterMap Record.content = due callbacks (fun _ => [])
  accounted : ∀ before r after, (run cfg callbacks).output = before ++ r :: after →
    Accounted before r

/-- Both sources of an instruction are owed, and one of them fits. -/
theorem operand_lost : ¬ ∀ cfg callbacks, (∀ c ∈ callbacks, Inserted cfg c) →
    Accounting cfg callbacks := by
  intro h
  have hlost := (h ⟨1, true, 0, 0⟩
    [.memoryEffects 1 16 ⟨false, [.memory 4096 8, .memory 8192 8], []⟩ true (fun _ _ => []) 0]
    (List.forall_mem_singleton.mpr rfl)).complete rfl
  exact absurd hlost (by decide)

/-- The bytes are in one page, and there are some. -/
def OnePage (address size : Nat) : Prop :=
  0 < size ∧ ∀ i < size, pageOf (address + i) = pageOf address

/-- The page numbers of a table. -/
def pagesOf : List Nat := pages.map PageEntry.page

/-- The operands of an instruction have room in the budget, in the list of its writes and in
the table of pages, and each write is within a page. -/
def Fits (s : State) : Callback → Prop
  | .memoryEffects _ _ i decoded _ _ => cfg.budget ≤ s.count ∨
    decoded = true ∧
      s.count + (memoryOf i.sources).length + (memoryOf i.destinations).length ≤ cfg.budget ∧
      (memoryOf i.destinations).length ≤ 8 ∧
      (∀ w ∈ memoryOf i.destinations, OnePage w.1 w.2) ∧
      (pagesOf s.pages ++ (memoryOf i.destinations).map (fun w => pageOf w.1)).toFinset.card ≤ 4096
  | _ => True

def Fitting : List Callback → State → Prop
  | [], _ => True
  | c :: rest, s => Inserted cfg c ∧ Fits cfg s c ∧ Fitting rest (step cfg s c)

end Indago.Collector
