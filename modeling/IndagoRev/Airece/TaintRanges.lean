import IndagoRev.Airece.TaintSteps

/-!
# Byte ranges inside the source buffer

Offsets of pointers wrap around, and only the end of a range is cut to the length of
the source when something is loaded.  The range of a loaded tag lies inside the source
exactly when the pointer was still inside, and what a load has put inside no merge
takes out again.
-/

namespace Airece

open StdText List

/-- A tag of bytes has its range inside its source. -/
def Tag.Inside (sources : List ResolvedFlowPoint) (t : Tag) : Prop :=
  t.bytes = true → t.pointer = false →
    t.start ≤ t.stop ∧ t.stop < sourceLength sources t.source

variable (c : TaintContext)

/-- The bytes of a source that are tracked. -/
def TaintContext.trackedLength (source : Nat) : Nat :=
  if c.options.maxTaintBytes = 0 then sourceLength c.sources source
  else min (sourceLength c.sources source) c.options.maxTaintBytes

/-- A load takes up a pointer whose offset, when it is known, is inside what is tracked,
and does not read past the end of the address space. -/
def Tag.LoadsInside (width : Nat) (t : Tag) : Prop :=
  t.storage = false → t.pointer = true → t.bytes = true →
    0 < c.trackedLength t.source ∧
      (t.exactOffset = true → t.start < c.trackedLength t.source ∧ t.start + width ≤ 2 ^ 64)

instance (c : TaintContext) (width : Nat) (t : Tag) : Decidable (t.LoadsInside c width) := by
  unfold Tag.LoadsInside
  infer_instance

variable {sources : List ResolvedFlowPoint}

theorem Tag.Inside.appendTransform {t : Tag}
    (h : t.Inside sources) (transform : Text) : (t.appendTransform transform).Inside sources := by
  obtain ⟨transforms, heq⟩ := appendTransform_eq t transform
  rw [heq]
  exact h

theorem sizeSub_sizeAdd {start width : Nat} (hwidth : 0 < width) (h : start + width ≤ 2 ^ 64) :
    sizeSub (sizeAdd start width) 1 = start + width - 1 := by
  unfold sizeSub sizeAdd
  rcases Nat.lt_or_ge (start + width) (2 ^ 64) with hlt | hge
  · rw [Nat.mod_eq_of_lt hlt]
    omega
  · have heq : start + width = 2 ^ 64 := Nat.le_antisymm h hge
    omega

/-- The last byte of a read that wraps around lies before the first. -/
theorem sizeSub_sizeAdd_wraps {start width : Nat} (hstart : start < 2 ^ 64)
    (hwidth : width ≤ 2 ^ 64) (h : 2 ^ 64 < start + width) :
    sizeSub (sizeAdd start width) 1 < start := by
  unfold sizeSub sizeAdd
  omega

theorem sameKey_iff {a b : Tag} : a.sameKey b = true ↔
      a.source = b.source ∧ a.pointer = b.pointer ∧ a.bytes = b.bytes ∧
        a.storage = b.storage ∧ a.storageExact = b.storageExact ∧
        a.storageOffset = b.storageOffset := by
  unfold Tag.sameKey
  simp [and_assoc]

/-- No rule but that of a load takes a range out of its source. -/
theorem inside_law (sources : List ResolvedFlowPoint) : TagLaw (Tag.Inside sources) where
  merge := by
    intro existing incoming hkey hexisting hincoming hbytes hpointer
    obtain ⟨hsource, hpointers, hkinds, -⟩ := sameKey_iff.mp hkey
    have hbytes' : existing.bytes = true := hbytes
    have hpointer' : existing.pointer = false := hpointer
    have hold := hexisting hbytes' hpointer'
    have hnew := hincoming (hkinds ▸ hbytes') (hpointers ▸ hpointer')
    rw [← hsource] at hnew
    constructor
    · exact Nat.le_trans (Nat.min_le_left _ _) (Nat.le_trans hold.1 (Nat.le_max_left _ _))
    · exact Nat.max_lt.mpr ⟨hold.2, hnew.2⟩
  transform := fun transform h => h.appendTransform transform
  cross := fun h => h
  stored := by
    intro t offset h
    unfold Tag.stored
    apply Tag.Inside.appendTransform
    exact h
  moved := by
    intro t delta transform h
    unfold Tag.moved
    split
    · next hpointer =>
        rw [Bool.and_eq_true] at hpointer
        apply Tag.Inside.appendTransform
        intro _ hnot
        exfalso
        revert hnot
        split
        · intro hnot
          exact absurd hpointer.1 (Bool.eq_false_iff.mp hnot)
        split
        · intro hnot
          exact absurd hpointer.1 (Bool.eq_false_iff.mp hnot)
        · intro hnot
          exact absurd hpointer.1 (Bool.eq_false_iff.mp hnot)
    · exact h

/-- The range that a load gives to a pointer lies inside the source exactly when the
pointer does. -/
theorem loadedRange_inside_iff {c : TaintContext} {width : Nat} {t : Tag} (hwidth : 0 < width)
    (hsizes : t.exactOffset = true → t.start < 2 ^ 64 ∧ width ≤ 2 ^ 64) :
    ((t.loadedRange (c.trackedLength t.source) width).1 ≤
          (t.loadedRange (c.trackedLength t.source) width).2 ∧
        (t.loadedRange (c.trackedLength t.source) width).2 < sourceLength c.sources t.source) ↔
      0 < c.trackedLength t.source ∧ (t.exactOffset = true →
          t.start < c.trackedLength t.source ∧ t.start + width ≤ 2 ^ 64) := by
  have htracked : c.trackedLength t.source ≤ sourceLength c.sources t.source := by
    unfold TaintContext.trackedLength
    split
    · exact Nat.le_refl _
    · exact Nat.min_le_left _ _
  have hnone : c.trackedLength t.source = 0 → sourceLength c.sources t.source = 0 := by
    unfold TaintContext.trackedLength
    split <;> omega
  generalize hlength : c.trackedLength t.source = length at htracked hnone ⊢
  unfold Tag.loadedRange
  dsimp only
  cases hexact : t.exactOffset with
  | false =>
    simp only [Bool.false_eq_true, if_false, false_implies, and_true]
    split <;> omega
  | true =>
    obtain ⟨hstart, hbound⟩ := hsizes hexact
    simp only [if_true, true_implies]
    rcases Nat.lt_or_ge (2 ^ 64) (t.start + width) with hwraps | hends
    · have hlast := sizeSub_sizeAdd_wraps hstart hbound hwraps
      constructor
      · intro hinside
        have hle : t.start ≤ sizeSub (sizeAdd t.start width) 1 :=
          Nat.le_trans hinside.1 (Nat.min_le_right _ _)
        omega
      · intro hinside
        omega
    · rw [sizeSub_sizeAdd hwidth hends]
      split <;> omega

/-- A load keeps the ranges inside when it takes up no pointer outside. -/
theorem Tag.Inside.loaded {c : TaintContext} {width : Nat} {t : Tag} (hwidth : 0 < width)
    (hload : t.LoadsInside c width) (h : t.Inside c.sources) :
    (t.loaded c width).Inside c.sources := by
  unfold Tag.loaded
  split
  · apply Tag.Inside.appendTransform
    exact h
  next hstorage =>
    split
    · next hpointer =>
        rw [Bool.and_eq_true] at hpointer
        have hinside := hload (Bool.eq_false_of_not_eq_true hstorage) hpointer.1 hpointer.2
        have hsizes : t.exactOffset = true → t.start < 2 ^ 64 ∧ width ≤ 2 ^ 64 := by
          intro hexact
          have hends := (hinside.2 hexact).2
          omega
        apply Tag.Inside.appendTransform
        intro _ _
        exact (loadedRange_inside_iff hwidth hsizes).mpr hinside
    · exact h

theorem loadWidth_pos (o : XairOp) : 0 < loadWidth c o := by
  unfold loadWidth flowWidth
  split <;> exact Nat.lt_of_lt_of_le Nat.zero_lt_one (Nat.le_max_left _ _)

/-- A step that is a load takes up no pointer outside its source. -/
def StepInside (step : TaintStep) : Prop :=
  ∀ o ∈ c.module.op step.1.operation, o.opcode = .load →
    ∀ t ∈ loadedTags c o step.2.taint.tags, t.LoadsInside c (loadWidth c o)

instance (c : TaintContext) (step : TaintStep) : Decidable (StepInside c step) := by
  unfold StepInside
  infer_instance

theorem StepInside.loadKeeps {c : TaintContext} {step : TaintStep} (h : StepInside c step) :
    LoadKeeps (Tag.Inside c.sources) c step := by
  intro o hop hopcode t ht hinside
  exact hinside.loaded (loadWidth_pos c o) (h o hop hopcode t ht)

variable {point : ResolvedFlowPoint × Nat}

theorem sourceLength_of_mem
    (h : point ∈ sources.zipIdx) : sourceLength sources point.2 = point.1.selector.length := by
  obtain ⟨point, index⟩ := point
  have hget := mem_zipIdx_iff_getElem?.mp h
  unfold sourceLength
  dsimp only
  rw [hget]

/-- The range of a load at a constant address inside a source lies inside it, unless it
runs past the end of the address space. -/
theorem memoryTag_inside {m : XairModule} {operations : List OperationRecord} {address : BitVec 64}
    {result : ValueId} (hmem : point ∈ sources.zipIdx) (hsize : point.1.selector.length < 2 ^ 64)
    (hload : SeededLoad m operations point.1 address result)
    (hends : address.toNat - point.1.selector.memoryAddress +
      flowWidth (m.valueType result).bits ≤ 2 ^ 64) :
    (memoryTag m point.2 point.1.selector address.toNat result).Inside sources := by
  intro _ _
  have habove := hload.above
  have hbelow := hload.below
  have hwidth : 0 < flowWidth (m.valueType result).bits :=
    Nat.lt_of_lt_of_le Nat.zero_lt_one (Nat.le_max_left _ _)
  have hlast : sizeSub point.1.selector.length 1 = point.1.selector.length - 1 := by
    unfold sizeSub
    omega
  unfold memoryTag
  dsimp only
  rw [sourceLength_of_mem hmem, hlast, sizeSub_sizeAdd hwidth hends]
  omega

/-- No load of a run takes up a pointer outside its source, and none reads past the end
of the address space. -/
structure TaintInside (fuel : Nat) (s : FlowSession) (m : XairModule) (w : Watch)
    (o : FlowOptions) (r : DirectedFlowResult) : Prop where
  loads : ∀ step ∈ spreadSteps fuel s m w o r, StepInside (taintContext s m o r.sources) step
  seeds : ∀ point ∈ r.sources, ∀ address result,
    SeededLoad m (collectOperations s.cfg m) point address result →
      address.toNat - point.selector.memoryAddress +
        flowWidth (m.valueType result).bits ≤ 2 ^ 64

variable {o : FlowOptions} {r : DirectedFlowResult} {s : FlowSession}

theorem spreadTaint_inside {fuel : Nat} {m : XairModule} {w : Watch} {t : TaintRun}
    (hsizes : ∀ point ∈ r.sources, point.selector.length < 2 ^ 64)
    (hinside : TaintInside fuel s m w o r) (hrun : spreadTaint fuel s m w o r = some t) :
    t.call.taint.tags.All (Tag.Inside r.sources) := by
  refine spreadTaint_all (inside_law r.sources) ?_ ?_ ?_ hrun
  · intro point _ hbytes hpointer
    have hsame : (sourceTag point.2 point.1).bytes = (sourceTag point.2 point.1).pointer := rfl
    rw [hbytes, hpointer] at hsame
    cases hsame
  · intro point hpoint address result hload
    have hmem : point.1 ∈ r.sources := (mem_zipIdx' hpoint).2 ▸ getElem_mem _
    exact memoryTag_inside hpoint (hsizes _ hmem) hload (hinside.seeds _ hmem _ _ hload)
  · intro step hstep
    exact (hinside.loads step hstep).loadKeeps

/-- Every influence with a range of bytes has a property. -/
def DirectedFlowResult.Ranges (P : FlowInfluence → Prop) (r : DirectedFlowResult) : Prop :=
  ∀ i ∈ r.influences, i.byteRange = true → P i

section Influences

variable {P : FlowInfluence → Prop}

@[simp] theorem stopped_influences (w : Watch) (o : FlowOptions) (r : DirectedFlowResult) :
    (stopped w o r).2.influences = r.influences := by
  unfold stopped
  split
  · rfl
  · split
    · rfl
    · split <;> rfl

theorem DirectedFlowResult.Ranges.addControlInfluence (h : r.Ranges P)
    (cfg : Cfg) (o : FlowOptions) (tags : Tags) (source target : Nat) (path : PathRecord) :
    (addControlInfluence cfg o tags source target path r).Ranges P := by
  unfold Airece.addControlInfluence
  dsimp only
  split
  · split
    · exact h
    intro i hi hrange
    rcases mem_append.mp hi with hold | hnew
    · exact h i hold hrange
    · rw [mem_singleton.mp hnew] at hrange
      cases hrange
  · exact h

theorem considerPaths_ranges {cfg : Cfg} {tags : Tags} {source target : Nat}
    {paths : List PathRecord} {s : Searches} (h : s.result.Ranges P) :
    (considerPaths cfg o tags source target paths s).result.Ranges P := by
  induction paths generalizing s with
  | nil => exact h
  | cons path rest ih =>
    have hadded := h.addControlInfluence cfg o tags source target path
    unfold considerPaths
    dsimp only
    split
    · split
      · exact hadded
      · exact ih hadded
    · exact ih hadded

/-- A search leaves the influences alone. -/
theorem searchLoop_influences {o : SearchOptions} {fuel : Nat} {p p' : PathSearch}
    (h : searchLoop o fuel p = some p') : p'.result.influences = p.result.influences := by
  induction fuel generalizing p with
  | zero => cases h
  | succ n ih =>
    unfold searchLoop at h
    split at h
    · cases h
      rfl
    dsimp only at h
    split at h
    · cases h
      rfl
    split at h
    · cases h
      dsimp only
      split <;> rfl
    split at h
    · split at h
      · cases h
        rfl
      · have hrest := ih h
        exact hrest
    · have hrest := ih h
      exact hrest

theorem findPaths_influences {o : SearchOptions} {fuel : Nat} {start : NodeId}
    {r : DirectedFlowResult} {p : PathSearch} (h : findPaths o fuel start r = some p) :
    p.result.influences = r.influences := by
  unfold findPaths at h
  split at h
  · cases h
    rfl
  rw [Option.map_eq_some_iff] at h
  obtain ⟨p', hloop, rfl⟩ := h
  have hkept := searchLoop_influences hloop
  exact hkept

theorem searchPairs_ranges {cfg : Cfg} {w : Watch} {tags : Tags} {fuel : Nat}
    {pairs : List (Nat × Nat)} {s s' : Searches} (h : s.result.Ranges P)
    (hrun : searchPairs cfg w o tags fuel pairs s = some s') : s'.result.Ranges P := by
  induction pairs generalizing s with
  | nil =>
    cases hrun
    exact h
  | cons pair rest ih =>
    unfold searchPairs at hrun
    split at hrun
    · cases hrun
      exact h
    dsimp only at hrun
    split at hrun
    · cases hrun
    next p hpaths =>
      refine ih (considerPaths_ranges ?_) hrun
      intro i hi
      dsimp only at hi
      rw [findPaths_influences hpaths] at hi
      exact h i hi

/-- The searches of a query add no range of bytes to those of the taint. -/
theorem runSearches_ranges {fuel : Nat} {w : Watch} {tags : Tags} {searches : Searches}
    (hvalues : ∀ i ∈ valueInfluences tags r.targets, i.byteRange = true → P i)
    (h : runSearches fuel s w o tags r = some searches) : searches.result.Ranges P := by
  unfold runSearches at h
  rw [Option.map_eq_some_iff] at h
  obtain ⟨found, hfound, rfl⟩ := h
  have hstart : DirectedFlowResult.Ranges P
      { r with influences := valueInfluences tags r.targets } := hvalues
  have hranges : found.result.Ranges P := by
    refine searchPairs_ranges ?_ hfound
    exact hstart
  unfold withSession
  split
  · exact hranges
  · exact hranges

variable {σ : Type} (e : SymbolicEngine σ) (s : FlowSession) (m : XairModule)

theorem assumeEdge_influences (tags : Tags) (id : EdgeId)
    (a : Assumed σ) : (assumeEdge e s m tags id a).2.result.influences = a.result.influences := by
  unfold assumeEdge
  split
  · rfl
  dsimp only
  split
  · rfl
  · split
    · rfl
    · split <;> rfl

theorem assumePath_influences (tags : Tags) (edges : List EdgeId) (a : Assumed σ) :
    (assumePath e s m tags edges a).2.result.influences = a.result.influences := by
  induction edges generalizing a with
  | nil => rfl
  | cons id rest ih =>
    have hedge := assumeEdge_influences e s m tags id a
    unfold assumePath
    split
    · next heq =>
        rw [heq] at hedge
        exact (ih _).trans hedge
    · next heq =>
        rw [heq] at hedge
        exact hedge

theorem recordAnswer_influences (records : List SymbolRecord) (answer : SymStatus × SymSat)
    (r : DirectedFlowResult) (x : σ) :
    (recordAnswer e records answer r x).1.influences = r.influences := by
  unfold recordAnswer
  dsimp only
  split
  · rfl
  · split
    · rfl
    · split <;> rfl

theorem checkPath_influences (tags : Tags) (path : PathRecord)
    (symbols : Symbols σ) (r : DirectedFlowResult) :
    (checkPath e s m tags path symbols r).result.influences = r.influences := by
  have hpath := assumePath_influences e s m tags path.edges
    { translator := { cache := symbols.overrides, engine := symbols.engine }, result := r }
  unfold checkPath
  dsimp only
  split
  · next heq =>
      rw [heq] at hpath
      exact hpath
  · next heq =>
      rw [heq] at hpath
      exact (recordAnswer_influences e _ _ _ _).trans hpath

theorem runSymbolic_influences (o : FlowOptions) (tags : Tags)
    (path : PathRecord) (r : DirectedFlowResult) (x : σ) :
    (runSymbolic e s m o tags path r x).result.influences = r.influences := by
  unfold runSymbolic
  split
  · rfl
  split
  · rfl
  split
  · rfl
  dsimp only
  split
  · rfl
  · exact checkPath_influences e s m tags path _ r

theorem checkCandidates_influences (w : Watch)
    (o : FlowOptions) (tags : Tags) (candidates : List CandidatePath) (c : Checking σ) :
    (checkCandidates e s m w o tags candidates c).result.influences = c.result.influences := by
  induction candidates generalizing c with
  | nil => rfl
  | cons candidate rest ih =>
    have hpoll := stopped_influences w o c.result
    unfold checkCandidates
    split
    · next heq =>
        rw [heq] at hpoll
        exact hpoll
    next r heq =>
      rw [heq] at hpoll
      split
      · exact hpoll
      have hchecked := runSymbolic_influences e s m o tags candidate.path
        (beforeCheck s candidate.path r) c.engine
      dsimp only
      split
      · exact hchecked.trans hpoll
      · exact (ih _).trans (hchecked.trans hpoll)

theorem formVerdict_influences (w : Watch) (o : FlowOptions)
    (tags : Tags) (searches : Searches) (x : σ) :
    (formVerdict e s m w o tags searches x).result.influences = searches.result.influences := by
  unfold formVerdict
  dsimp only
  split
  · rfl
  split
  · rfl
  · split
    · split <;> rfl
    · exact checkCandidates_influences e s m w o tags _ _

end Influences

theorem resolveCall_selector (m : XairModule) (point : ResolvedFlowPoint)
    (operations : List (OpId × XairOp)) :
    (resolveCall m point operations).selector = point.selector := by
  induction operations generalizing point with
  | nil => rfl
  | cons first rest ih =>
    unfold resolveCall
    split
    · dsimp only
      split
      · rfl
      · exact ih _
    · exact ih _

/-- A register that is looked for keeps the selector of the point. -/
theorem resolveRegister_selector (m : XairModule) (point : ResolvedFlowPoint)
    (operations : List (OpId × XairOp)) :
    (resolveRegister m point operations).selector = point.selector := by
  unfold resolveRegister
  dsimp only
  split
  · rfl
  · split
    · rfl
    · split <;> rfl

theorem resolvePoint_selector (s : FlowSession) (selector : FlowPointSelector) :
    (resolvePoint s selector).selector = selector := by
  unfold resolvePoint
  split
  · rfl
  split
  · unfold resolveValue
    split <;> rfl
  dsimp only
  split
  · rfl
  split
  · rfl
  · unfold resolveArgument
    split
    · rfl
    · split <;> rfl
  split
  · rfl
  split
  · exact resolveCall_selector _ _ _
  · exact resolveCall_selector _ _ _
  · exact resolveRegister_selector _ _ _
  · exact resolveRegister_selector _ _ _
  · unfold resolveMemoryWrite
    split <;> rfl
  · unfold resolveMemory
    dsimp only
    split <;> rfl
  · rfl

variable (sources : List FlowPointSelector)

/-- The length of a source as it is selected. -/
def selectorLength (source : Nat) : Nat :=
  match sources[source]? with
  | some selector => selector.length
  | none => 0

theorem sourceLength_resolved (s : FlowSession) (sources : List FlowPointSelector) (source : Nat) :
    sourceLength (sources.map (resolvePoint s)) source = selectorLength sources source := by
  unfold sourceLength selectorLength
  rw [getElem?_map]
  cases sources[source]? with
  | none => rfl
  | some selector =>
    dsimp only [Option.map_some]
    rw [resolvePoint_selector]

/-- An influence has its range inside its source. -/
def FlowInfluence.Inside (i : FlowInfluence) : Prop :=
  i.offsetBegin ≤ i.offsetEnd ∧ i.offsetEnd < selectorLength sources i.source

/-- The influences on the values of the targets have the ranges of their tags. -/
theorem valueInfluences_inside {sources : List FlowPointSelector} {tags : Tags}
    {targets : List ResolvedFlowPoint} (h : tags.All (Tag.Inside (sources.map (resolvePoint s)))) :
    ∀ i ∈ valueInfluences tags targets, i.byteRange = true → i.Inside sources := by
  intro i hi hrange
  unfold valueInfluences at hi
  rw [mem_flatMap] at hi
  obtain ⟨⟨point, target⟩, _, hi⟩ := hi
  dsimp only at hi
  split at hi
  · cases hi
  rw [mem_flatMap] at hi
  obtain ⟨v, _, hi⟩ := hi
  obtain ⟨t, ht, rfl⟩ := mem_map.mp hi
  have hkinds : t.bytes = true ∧ t.pointer = false := by
    have hboth : (t.bytes && !t.pointer) = true := hrange
    simpa using hboth
  have hinside := h v t ht hkinds.1 hkinds.2
  rw [sourceLength_resolved] at hinside
  exact hinside

variable {σ : Type} (e : SymbolicEngine σ)

/-- In a run whose loads take up no pointer outside its source, and read nothing past the
end of the address space, the ranges of all influences are inside, and so are those of
the tags that the symbolic checks are given. -/
theorem byteRanges_inside {fuel : Nat} {s : FlowSession} {w : Watch}
    {sources targets : List FlowPointSelector} {o : FlowOptions} {x : σ} {run : FlowRun σ}
    (hsizes : ∀ selector ∈ sources, selector.length < 2 ^ 64) (hinside : ∀ m, s.module = some m →
      TaintInside fuel s m w o (resolvePoints s o sources targets))
    (hrun : directedFlow e fuel s w sources targets o x = some run) :
    (∀ i ∈ run.result.influences, i.byteRange = true → i.Inside sources) ∧
      ∀ m t, s.module = some m →
        spreadTaint fuel s m w o (resolvePoints s o sources targets) = some t →
          ∀ v, ∀ tag ∈ t.call.taint.tags.of v, tag.bytes = true → tag.pointer = false →
            tag.start ≤ tag.stop ∧ tag.stop < selectorLength sources tag.source := by
  have htags : ∀ m t, s.module = some m →
      spreadTaint fuel s m w o (resolvePoints s o sources targets) = some t →
        t.call.taint.tags.All (Tag.Inside (sources.map (resolvePoint s))) := by
    intro m t hmodule hspread
    refine spreadTaint_inside ?_ (hinside m hmodule) hspread
    intro point hpoint
    obtain ⟨selector, hselector, rfl⟩ := mem_map.mp hpoint
    rw [resolvePoint_selector]
    exact hsizes selector hselector
  constructor
  · unfold directedFlow at hrun
    split at hrun
    · cases hrun
      intro i hi
      cases hi
    next m hmodule =>
      have hsome : s.module = some m := by
        split at hmodule
        · cases hmodule
        · exact hmodule
      dsimp only at hrun
      split at hrun
      · cases hrun
        intro i hi
        cases hi
      rw [Option.bind_eq_some_iff] at hrun
      obtain ⟨t, htaint, hrun⟩ := hrun
      rw [Option.map_eq_some_iff] at hrun
      obtain ⟨searches, hsearches, rfl⟩ := hrun
      have hranges : searches.result.Ranges (FlowInfluence.Inside sources) :=
        runSearches_ranges (valueInfluences_inside (htags m t hsome htaint)) hsearches
      intro i hi
      dsimp only at hi
      rw [formVerdict_influences] at hi
      exact hranges i hi
  · intro m t hmodule hspread v tag htag hbytes hpointer
    have hrange := htags m t hmodule hspread v tag htag hbytes hpointer
    rw [sourceLength_resolved] at hrange
    exact hrange

/-- A solver that knows the values of constants and of their comparisons, and takes every
other expression for a free symbol.  Its state is the expressions made, with their values,
and what is assumed. -/
def constantEngine : SymbolicEngine (List (Option Nat) × List ExprId) where
  context x := (none, x)
  setOptions _ x := x
  symbol _ _ x := (some x.1.length, (x.1 ++ [none], x.2))
  constWide bits low _ x := (some x.1.length, (x.1 ++ [some (low % 2 ^ bits)], x.2))
  unary _ _ _ _ x := ((.ok, x.1.length), (x.1 ++ [none], x.2))
  binary opcode _ a b x :=
    let value :=
      match x.1[a]?.join, x.1[b]?.join with
      | some va, some vb =>
        if opcode = .eq then some (if va = vb then 1 else 0) else none
      | _, _ => none
    ((.ok, x.1.length), (x.1 ++ [value], x.2))
  select _ _ _ x := (some x.1.length, (x.1 ++ [none], x.2))
  stateCreate _ x := (true, (x.1, []))
  assume condition x := (true, (x.1, x.2 ++ [condition]))
  check x := ((.ok, if x.2.any (fun c => x.1[c]?.join == some 0) then .unsat else .sat), x)
  modelWord _ x := (some 0, x)
  modelBytes bytes x := (some (bytes.map (fun _ => 0)), x)
  stateDestroy x := (x.1, [])
  solverInitialized _ := true
  statusName _ := []

/-- No cancellation, and no time that passes. -/
def quietWatch : Watch := { canceled := fun _ => false, elapsed := fun _ => 0 }

variable (distance : Nat)

/-- A block that loads a byte at some distance from a register. -/
def distanceModule : XairModule where
  values :=
    [{ type := { kind := .int, bits := 64 }, name := "rax" },
     { type := { kind := .int, bits := 64 }, definition := some 0 },
     { type := { kind := .int, bits := 64 }, definition := some 1 },
     { type := { kind := .mem } },
     { type := { kind := .int, bits := 8 }, definition := some 2 }]
  ops :=
    [{ opcode := .constU64, results := [1], immediateLow := distance },
     { opcode := .add, inputs := [0, 1], results := [2] },
     { opcode := .load, inputs := [3, 2], results := [4] }]
  blocks := [{ ops := [0, 1, 2], params := [0, 3], terminator := { kind := .ret } }]
  opcodeName := fun _ => []

/-- The block as a function. -/
def distanceSession : FlowSession where
  module := some (distanceModule distance)
  cfg :=
    { nodes := [{ start := 0x10, irBlock := 0, edgeOffset := 0, edgeCount := 0 }]
      edges := []
      functionNodes := [[0]]
      owners := fun _ => [0]
      nodeContaining := fun _ => 0
      edgeKindName := fun _ => [] }
  functions := [{ entry := 0x10 }]
  variableView := fun _ => []
  expressionText := fun _ => []
  instructions := fun _ => [0x10]
  isComplete := true

/-- The four bytes that the register points to. -/
def fourByteBuffer : FlowPointSelector :=
  { kind := .buffer, registerName := "rax", address := 0x10, length := 4 }

/-- From the buffer to the byte that is loaded. -/
def distanceQuery : Option (FlowRun (List (Option Nat) × List ExprId)) :=
  directedFlow constantEngine 8 (distanceSession distance) quietWatch [fourByteBuffer]
    [{ kind := .xairValue, value := 4 }] {} ([], [])

/-- The byte eight places behind the start of the buffer has a range that begins behind
the last byte and ends before it begins. -/
theorem byteRange_outside : ∃ run, distanceQuery 8 = some run ∧
      ∃ i ∈ run.result.influences, i.byteRange = true ∧ ¬ i.Inside [fourByteBuffer] := by
  refine ⟨_, rfl, _, mem_cons_self, rfl, ?_⟩
  intro hinside
  exact absurd hinside.1 (by decide)

/-- The points of the query. -/
def distancePoints : DirectedFlowResult :=
  resolvePoints (distanceSession distance) {} [fourByteBuffer]
    [{ kind := .xairValue, value := 4 }]

theorem distance_two_inside :
    TaintInside 8 (distanceSession 2) (distanceModule 2) quietWatch {} (distancePoints 2) where
  loads := by decide
  seeds := by
    intro point hpoint address result hload
    have hkinds : ∀ point ∈ (distancePoints 2).sources, point.selector.kind ≠ .memory := by
      decide
    exact absurd hload.kind (hkinds point hpoint)

/-- The byte two places behind the start has its range inside. -/
theorem byteRange_two : ∃ run, distanceQuery 2 = some run ∧
      ∀ i ∈ run.result.influences, i.byteRange = true → i.Inside [fourByteBuffer] := by
  have hsome : (distanceQuery 2).isSome = true := by rfl
  obtain ⟨run, hrun⟩ := Option.isSome_iff_exists.mp hsome
  refine ⟨run, hrun, (byteRanges_inside constantEngine ?_ ?_ hrun).1⟩
  · decide
  · intro m hmodule
    cases hmodule
    exact distance_two_inside

end Airece
