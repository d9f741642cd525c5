import IndagoRev.Airece.CompactStatements
import IndagoRev.Airece.SemanticText

/-!
# The compact view emitter

`render_compact` prints a compact view section by section through the budget writer of the
pseudo view, and ends it with the same footer.  A line is built first, together with the
call that it shows, if it shows one.
-/

namespace Airece

open StdText

/-- `confidence_name`. -/
def Confidence.name : Confidence → Text
  | .low => "low"
  | .medium => "medium"
  | .high => "high"
  | .exact => "exact"
  | .unknown => "unknown"

/-- `control_region_kind_name`. -/
def ControlRegionKind.name : ControlRegionKind → Text
  | .sequence => "sequence"
  | .terminalIf => "terminal-if"
  | .ifElse => "if-else"
  | .earlyReturn => "early-return"
  | .whileLoop => "while"
  | .doWhileLoop => "do-while"
  | .switchRegion => "switch"
  | .irreducible => "irreducible"
  | .block => "block"

/-- `control_transfer_kind_name`. -/
def ControlTransferKind.name : ControlTransferKind → Text
  | .fallthrough => "fallthrough"
  | .branchTrue => "true"
  | .branchFalse => "false"
  | .switchCase => "case"
  | .callTarget => "call"
  | .gotoLabel => "goto"
  | .breakLoop => "break"
  | .continueLoop => "continue"
  | .returnFromFunction => "return"
  | .trap => "trap"
  | .fault => "fault"
  | .unresolved => "unresolved"

/-- `statement_line`. -/
def statementLine (s : SemanticStatement) : Text :=
  "  " ++ s.stableId ++ ": " ++ s.text ++
    if s.evidenceId ≠ [] then " [" ++ s.evidenceId ++ [']']
    else if s.address ≠ 0 then " [0x" ++ hexDigits s.address ++ [']']
    else []

/-- A line of the compact view, and the call that it shows. -/
structure CompactLine where
  text : Text
  call : Option Nat := none
  deriving DecidableEq

/-- `render_statement_section`. -/
def statementSection (items : List Material) (title : Text)
    (kinds : List SemanticStatementKind) : List CompactLine :=
  match items.filter (fun m => kinds.contains m.statement.kind) with
  | [] => []
  | first :: rest =>
    { text := title ++ [':'] } ::
      (first :: rest).map (fun m => { text := statementLine m.statement, call := m.call })

/-- The address at which the evidence of a region or a transfer begins. -/
structure ControlEvidence where
  region : ControlRecovery.ControlRegion → Nat := fun _ => 0
  transfer : ControlRecovery.ControlTransfer → Nat := fun _ => 0

/-- The line of a region. -/
def regionLine (begins : ControlEvidence) (r : ControlRecovery.ControlRegion) : Text :=
  "  " ++ r.stableId ++ ": " ++ r.kind.name ++ " header=n" ++
    decimal r.header ++
    (if r.condition ≠ invalidId then " condition=v" ++ decimal r.condition else []) ++
    (if r.join ≠ cfgInvalidId then " join=n" ++ decimal r.join else []) ++
    " [0x" ++ hexDigits (begins.region r) ++ [']']

/-- The line of a transfer. -/
def compactTransferLine (begins : ControlEvidence) (t : ControlRecovery.ControlTransfer) : Text :=
  "  edge" ++ decimal t.edge ++ ": n" ++ decimal t.source ++ " -" ++
    t.kind.name ++ "-> " ++
    (if t.target = cfgInvalidId then "external".toList else 'n' :: decimal t.target) ++
    (if t.condition ≠ invalidId then " condition=v" ++ decimal t.condition else []) ++
    (if t.explicitGoto then " explicit".toList else []) ++
    " [0x" ++ hexDigits (begins.transfer t) ++ [']']

/-- The line of a piece of evidence. -/
def evidenceLine (e : SemanticEvidence) : Text :=
  "  ".toList ++ e.stableId ++ ": 0x".toList ++ hexDigits e.start ++
    (if e.start < e.stop then "-0x" ++ hexDigits e.stop else []) ++
    (if e.operations = [] then []
      else " ops=".toList ++ List.intercalate [','] (e.operations.map decimal)) ++
    " confidence=" ++ e.confidence.name ++
    (if e.synthetic then " synthetic".toList else [])

namespace CompactInput

variable (f : CompactInput) (begins : ControlEvidence) (options : CompactOptions)

/-- The fields of the compact view that the signature and the footer read. -/
def view : CompactFunctionView :=
  { ok := (f.control options).status == .ok
    entry := f.function.entry
    name := f.function.name
    parameters := f.parameters
    returns := f.returns
    statements := (f.stamped options).map Material.statement
    control := { blockOrder := f.blockOrder options, regions := [], transfers := [] }
    omitted := f.omitted options
    totalCalls := (f.walk options).seenCalls
    truncated := f.truncated options }

/-- The lines before the sections. -/
def headLines : List CompactLine :=
  [{ text := functionSignature (f.view options) },
    { text := "range: 0x" ++ hexDigits f.function.rangeStart ++ "-0x" ++
        hexDigits f.function.rangeEnd },
    { text := "coverage: exact=" ++ decimal f.coverage.exactPercent ++
        "% partial-blocks=" ++ decimal f.coverage.partialBlocks ++
        " opaque-blocks=" ++ decimal f.coverage.opaqueBlocks ++
        " exact-instructions=" ++ decimal f.coverage.exactInstructions ++ ['/'] ++
        decimal f.coverage.totalInstructions ++ " unresolved=" ++
        decimal (f.unresolvedOperations options) },
    { text := "completeness: ".toList ++
        if f.complete options then "complete".toList else "partial".toList }]

/-- The section of the calls. -/
def callLines : List CompactLine :=
  statementSection (f.stamped options) "calls" [.call]

/-- The lines after the section of the calls. -/
def tailLines : List CompactLine :=
  { text := "control:" } ::
    ((f.control options).regions.filter (fun r => r.kind != .block)).map
      (fun r => { text := regionLine begins r }) ++
    (f.control options).transfers.map (fun t => { text := compactTransferLine begins t }) ++
    statementSection (f.stamped options) "branches"
      [.branch, .returnValue, .trap, .fault] ++
    statementSection (f.stamped options) "memory" [.memoryRead, .memoryWrite, .effect] ++
    statementSection (f.stamped options) "references"
      [.globalReference, .stringReference, .constant, .importReference, .indirectTarget] ++
    statementSection (f.stamped options) "unresolved" [.unresolved] ++
    { text := "taint: " ++ f.taintStatus } ::
    (if (f.evidence options).isEmpty then [] else [{ text := "evidence:" }]) ++
    (f.evidence options).map (fun e => { text := evidenceLine e })

/-- Every line that `render_compact` passes to its writer. -/
def compactLines : List CompactLine :=
  f.headLines options ++ f.callLines options ++ f.tailLines begins options

/-- `render_compact`. -/
def renderCompact : RenderedSemanticText :=
  if !(f.view options).ok then {}
  else
    let writer := (f.compactLines begins options).foldl (fun w l => w.line l.text)
      ({ limit := options.maxBytes } : BudgetWriter)
    let footer := omittedFooter (f.view options) writer.omitted options.callOffset
    { text := writer.text ++ footer
      truncated := f.truncated options || writer.omitted != 0 || !footer.isEmpty
      omittedLines := writer.omitted }

end CompactInput

/-- Whether a line fits into what is left of the budget. -/
def BudgetWriter.fits (w : BudgetWriter) (value : Text) : Bool :=
  w.limit == 0 || decide (w.text.length + (value.length + 1) ≤ w.limit)

variable {w : BudgetWriter}

theorem BudgetWriter.line_of_fits {value : Text} (h : w.fits value = true) :
    w.line value = { w with text := w.text ++ value ++ ['\n'] } := by
  refine if_neg (fun hno => ?_)
  simp only [BudgetWriter.fits, Bool.or_eq_true, beq_iff_eq, decide_eq_true_eq] at h
  omega

theorem BudgetWriter.line_of_not_fits {value : Text}
    (h : w.fits value = false) : w.line value = { w with omitted := w.omitted + 1 } := by
  refine if_pos ?_
  simp only [BudgetWriter.fits, Bool.or_eq_false_iff, beq_eq_false_iff_ne,
    decide_eq_false_iff_not] at h
  omega

/-- The lines that a writer takes. -/
def BudgetWriter.taken (w : BudgetWriter) : List CompactLine → List CompactLine
  | [] => []
  | l :: rest =>
    if w.fits l.text then l :: (w.line l.text).taken rest else (w.line l.text).taken rest

theorem BudgetWriter.text_foldl (w : BudgetWriter) (lines : List CompactLine) :
    (lines.foldl (fun w l => w.line l.text) w).text =
      w.text ++ (w.taken lines).flatMap (fun l => l.text ++ ['\n']) := by
  induction lines generalizing w with
  | nil => simp [BudgetWriter.taken]
  | cons l rest ih =>
    rw [List.foldl_cons, ih, BudgetWriter.taken]
    cases h : w.fits l.text with
    | true => simp [BudgetWriter.line_of_fits h]
    | false => simp [BudgetWriter.line_of_not_fits h]

theorem BudgetWriter.taken_append (w : BudgetWriter) (first rest : List CompactLine) :
    w.taken (first ++ rest) =
      w.taken first ++ (first.foldl (fun w l => w.line l.text) w).taken rest := by
  induction first generalizing w with
  | nil => rfl
  | cons l first ih =>
    rw [List.cons_append, BudgetWriter.taken, BudgetWriter.taken, List.foldl_cons, ih]
    cases w.fits l.text <;> rfl

theorem BudgetWriter.taken_sublist (w : BudgetWriter) (lines : List CompactLine) :
    (w.taken lines).Sublist lines := by
  induction lines generalizing w with
  | nil => exact List.Sublist.refl _
  | cons l rest ih =>
    rw [BudgetWriter.taken]
    split
    · exact (ih _).cons_cons l
    · exact (ih _).cons l

@[simp] theorem BudgetWriter.line_limit (w : BudgetWriter) (value : Text) :
    (w.line value).limit = w.limit := by
  unfold BudgetWriter.line
  split <;> rfl

/-- The bytes of some lines, each with its line break. -/
def lineBytes (lines : List CompactLine) : Nat := (lines.map (fun l => l.text.length + 1)).sum

/-- Lines are all taken if and only if there is room for all of them. -/
theorem BudgetWriter.taken_eq_self_iff (w : BudgetWriter) (lines : List CompactLine) :
    w.taken lines = lines ↔
      lines = [] ∨ w.limit = 0 ∨ w.text.length + lineBytes lines ≤ w.limit := by
  induction lines generalizing w with
  | nil => simp [BudgetWriter.taken]
  | cons l rest ih =>
    rw [BudgetWriter.taken]
    have hbytes : lineBytes (l :: rest) = l.text.length + 1 + lineBytes rest := rfl
    cases h : w.fits l.text with
    | true =>
      rw [if_pos rfl, List.cons_inj_right, ih, BudgetWriter.line_limit, BudgetWriter.line_of_fits h]
      simp only [BudgetWriter.fits, Bool.or_eq_true, beq_iff_eq, decide_eq_true_eq] at h
      simp only [List.length_append, List.length_cons, List.length_nil, hbytes, reduceCtorEq,
        false_or]
      constructor
      · rintro (rfl | h' | h')
        · have : lineBytes [] = 0 := rfl
          omega
        · exact Or.inl h'
        · exact Or.inr (by omega)
      · rintro (h' | h')
        · exact Or.inr (Or.inl h')
        · exact Or.inr (Or.inr (by omega))
    | false =>
      rw [if_neg (by simp)]
      simp only [BudgetWriter.fits, Bool.or_eq_false_iff, beq_eq_false_iff_ne,
        decide_eq_false_iff_not] at h
      refine iff_of_false (fun heq => ?_) (by rw [hbytes]; simp; omega)
      have hlen := (BudgetWriter.taken_sublist (w.line l.text) rest).length_le
      rw [heq, List.length_cons] at hlen
      omega

@[simp] theorem BudgetWriter.limit_foldl (w : BudgetWriter) (lines : List CompactLine) :
    (lines.foldl (fun w l => w.line l.text) w).limit = w.limit := by
  induction lines generalizing w with
  | nil => rfl
  | cons l rest ih => rw [List.foldl_cons, ih, BudgetWriter.line_limit]

/-- Lines of calls that are all there as calls are all there as lines. -/
theorem BudgetWriter.taken_of_calls {lines : List CompactLine}
    (h : lines.length ≤ ((w.taken lines).filterMap CompactLine.call).length) :
    w.taken lines = lines :=
  (w.taken_sublist lines).eq_of_length_le
    (Nat.le_trans h (List.length_filterMap_le CompactLine.call (w.taken lines)))

/-- If all lines of a section are taken, so is a heading that is shorter than they are. -/
theorem BudgetWriter.taken_headed {heading first : CompactLine}
    {rest : List CompactLine} (hheading : heading.text.length = 6) (hnone : heading.call = none)
    (hcalls : ∀ l ∈ first :: rest, l.call.isSome = true ∧ 6 ≤ l.text.length)
    (h : ((heading :: first :: rest).filterMap CompactLine.call).length ≤
      ((w.taken (heading :: first :: rest)).filterMap CompactLine.call).length) :
    w.taken (heading :: first :: rest) = heading :: first :: rest := by
  have hall : ((first :: rest).filterMap CompactLine.call).length = (first :: rest).length := by
    rw [List.length_filterMap_eq_countP, List.countP_eq_length]
    exact fun l hl => (hcalls l hl).1
  rw [List.filterMap_cons_none hnone, hall, BudgetWriter.taken] at h
  rw [BudgetWriter.taken]
  cases hfits : w.fits heading.text with
  | true =>
    rw [hfits, if_pos rfl, List.filterMap_cons_none hnone] at h
    rw [if_pos rfl, BudgetWriter.taken_of_calls h]
  | false =>
    rw [hfits, if_neg (by simp), BudgetWriter.line_of_not_fits hfits] at h
    have htaken := BudgetWriter.taken_of_calls h
    have hfirst : BudgetWriter.fits { w with omitted := w.omitted + 1 } first.text = true := by
      by_contra hno
      rw [BudgetWriter.taken, if_neg hno] at htaken
      have hlen := (BudgetWriter.taken_sublist
        (BudgetWriter.line { w with omitted := w.omitted + 1 } first.text) rest).length_le
      rw [htaken, List.length_cons] at hlen
      omega
    have hsix := (hcalls first List.mem_cons_self).2
    simp only [BudgetWriter.fits, Bool.or_eq_false_iff, beq_eq_false_iff_ne,
      decide_eq_false_iff_not] at hfits
    simp only [BudgetWriter.fits, Bool.or_eq_true, beq_iff_eq, decide_eq_true_eq] at hfirst
    omega

end Airece
