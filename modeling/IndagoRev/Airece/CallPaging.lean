import IndagoRev.Paging
import IndagoRev.Airece.CompactText
import IndagoRev.Airece.ControlAccounting

/-!
# Paging over calls

The footer of a compact view names an offset with which the listing of calls can be
continued.  The pages that one reaches from the first one by following the footer are
pages over the calls of the function in block order.  A page passes over the calls that
stay in its view, and the offset counts these; whether their lines are printed is up to the
byte budget, and whether there are any is up to the statements that stand before them.
-/

namespace Airece

open StdText List

namespace CompactInput

variable (f : CompactInput) (begins : ControlEvidence) (options : CompactOptions)

/-- The options of the page at an offset. -/
def pageOptions (options : CompactOptions) (offset : Nat) : CompactOptions :=
  { options with callOffset := offset }

/-- The CALL operations of the function. -/
def callCount : Nat := (f.visited options).countP (fun m => m.statement.kind == .call)

variable (offset : Nat)

/-- `visible_calls`, by which the footer moves the offset on. -/
def visibleCalls : Nat :=
  (f.view (pageOptions options offset)).totalCalls -
    (f.view (pageOptions options offset)).omitted.calls

/-- The offset of a page: the first one begins at 0, and every other where the footer of
the one before it says. -/
def pageOffset (i : Nat) : Nat := Paging.start (f.visibleCalls options) i

/-- Whether the footer of a page reports calls. -/
def ReportsCalls : Prop :=
  (f.view (pageOptions options offset)).omitted.calls ≠ 0

/-- The lines that are printed on a page. -/
def printedLines : List CompactLine :=
  if (f.view (pageOptions options offset)).ok then
    BudgetWriter.taken { limit := options.maxBytes }
      (f.compactLines begins (pageOptions options offset))
  else []

/-- The calls whose lines are printed on a page. -/
def printedCalls : List Nat :=
  (f.printedLines begins options offset).filterMap CompactLine.call

/-- The calls numbered from some number on. -/
def numberCalls : Nat → List Material → List Material
  | _, [] => []
  | n, m :: rest =>
    if m.statement.kind = .call then { m with call := some n } :: numberCalls (n + 1) rest
    else m :: numberCalls n rest

/-- Whether a statement is in the window of a page. -/
def inWindow (options : CompactOptions) (m : Material) : Bool :=
  match m.call with
  | some index => showsCall options index
  | none => true

/-- Everything that could be shown, with all calls. -/
def everything : List Material :=
  numberCalls 0 (f.visited options) ++ f.cfg.indirects.filterMap (f.indirectMaterial options)

/-- Everything in presentation order. -/
def presented : List Material :=
  (f.everything options).insertionSort (fun a b => f.place options a ≤ f.place options b)

/-- The statements that stand before a call and are no calls. -/
def statementsBefore (k : Nat) : Nat := Paging.othersBefore Material.call (f.presented options) k

/-- The end of the window of a page. -/
def windowEnd : Nat :=
  if options.maxCalls = 0 then f.callCount options else offset + options.maxCalls

/-- How many statements a page keeps. -/
def statementLimit : Nat :=
  if options.maxStatements = 0 then (f.presented options).length else options.maxStatements

variable {f begins options} {m : Material}

theorem call_nodeMaterial {node : NodeId} (h : m ∈ f.nodeMaterial options node) :
    m.call = none ∧ m.statement.node = node := by
  unfold nodeMaterial at h
  split at h
  · exact absurd h not_mem_nil
  · obtain rfl := mem_singleton.mp h
    exact ⟨rfl, rfl⟩
  rcases mem_append.mp h with h | h
  · obtain ⟨p, -, hp⟩ := mem_filterMap.mp h
    unfold operationMaterial at hp
    obtain ⟨o, -, ho⟩ := Option.bind_eq_some_iff.mp hp
    obtain ⟨s, -, rfl⟩ := Option.map_eq_some_iff.mp ho
    exact ⟨rfl, rfl⟩
  · obtain ⟨s, -, rfl⟩ := Option.map_eq_some_iff.mp (Option.mem_toList.mp h)
    exact ⟨rfl, rfl⟩

theorem call_visited (h : m ∈ f.visited options) : m.call = none := by
  obtain ⟨node, -, hm⟩ := mem_flatMap.mp h
  exact (call_nodeMaterial hm).1

theorem indirectMaterial_spec {i : ControlRecovery.IndirectResolution}
    (h : f.indirectMaterial options i = some m) : m.call = none ∧ m.statement.kind ≠ .call := by
  unfold indirectMaterial at h
  split at h
  · cases h
  split at h
  · obtain rfl := Option.some.inj h
    refine ⟨rfl, ?_⟩
    dsimp only [material]
    split <;> simp
  · cases h

theorem numberCalls_statement (n : Nat) (ms : List Material) :
    (numberCalls n ms).map Material.statement = ms.map Material.statement := by
  induction ms generalizing n with
  | nil => rfl
  | cons m rest ih =>
    unfold numberCalls
    split
    · rw [map_cons, ih, map_cons]
    · rw [map_cons, ih, map_cons]

variable {ms : List Material}

theorem numberCalls_call (h : ∀ m ∈ ms, m.call = none) (n : Nat) :
    (numberCalls n ms).filterMap Material.call =
      List.range' n (ms.countP (fun m => m.statement.kind == .call)) := by
  induction ms generalizing n with
  | nil => rfl
  | cons m rest ih =>
    have hrest : ∀ m ∈ rest, m.call = none := fun m hm => h m (mem_cons_of_mem _ hm)
    unfold numberCalls
    by_cases hm : m.statement.kind = .call
    · have hcall : Material.call { m with call := some n } = some n := rfl
      rw [if_pos hm, filterMap_cons_some hcall, ih hrest,
        countP_cons_of_pos (by simp [hm]), range'_succ]
    · rw [if_neg hm, filterMap_cons_none (h m mem_cons_self), ih hrest,
        countP_cons_of_neg (by simp [hm])]

theorem numberCalls_isSome (h : ∀ m ∈ ms, m.call = none) {n : Nat}
    (hm : m ∈ numberCalls n ms) : m.call.isSome = (m.statement.kind == .call) := by
  induction ms generalizing n with
  | nil => exact absurd hm not_mem_nil
  | cons m' rest ih =>
    have hrest : ∀ m ∈ rest, m.call = none := fun m hm => h m (mem_cons_of_mem _ hm)
    unfold numberCalls at hm
    by_cases hkind : m'.statement.kind = .call
    · rw [if_pos hkind] at hm
      rcases mem_cons.mp hm with rfl | hm
      · simp [hkind]
      · exact ih hrest hm
    rw [if_neg hkind] at hm
    rcases mem_cons.mp hm with rfl | hm
    · simp [hkind, h m mem_cons_self]
    · exact ih hrest hm

theorem everything_isSome (hm : m ∈ f.everything options) :
    m.call.isSome = (m.statement.kind == .call) := by
  rcases mem_append.mp hm with hm | hm
  · exact numberCalls_isSome (fun m hm => call_visited hm) hm
  · obtain ⟨i, -, hi⟩ := mem_filterMap.mp hm
    obtain ⟨hcall, hkind⟩ := indirectMaterial_spec hi
    simp [hcall, hkind]

theorem filterMap_indirect :
    (f.cfg.indirects.filterMap (f.indirectMaterial options)).filterMap Material.call = [] := by
  refine filterMap_eq_nil_iff.mpr (fun m hm => ?_)
  obtain ⟨i, -, hi⟩ := mem_filterMap.mp hm
  exact (indirectMaterial_spec hi).1

theorem everything_call :
    (f.everything options).filterMap Material.call = List.range (f.callCount options) := by
  unfold everything
  rw [filterMap_append, numberCalls_call (fun m hm => call_visited hm), filterMap_indirect,
    append_nil, range_eq_range']
  rfl

theorem walk_foldl (h : ∀ m ∈ ms, m.call = none) (w : Walk) : ms.foldl (Walk.add options) w =
      { material := w.material ++ (numberCalls w.seenCalls ms).filter (inWindow options)
        seenCalls := w.seenCalls + ms.countP (fun m => m.statement.kind == .call)
        omittedCalls := w.omittedCalls +
          ((numberCalls w.seenCalls ms).filterMap Material.call).countP
            (fun k => !showsCall options k) } := by
  induction ms generalizing w with
  | nil => simp [numberCalls]
  | cons m rest ih =>
    have hrest : ∀ m ∈ rest, m.call = none := fun m hm => h m (mem_cons_of_mem _ hm)
    have hm := h m mem_cons_self
    rw [foldl_cons, ih hrest]
    unfold Walk.add
    rw [numberCalls]
    by_cases hkind : m.statement.kind = .call
    · have hcall : Material.call { m with call := some w.seenCalls } = some w.seenCalls := rfl
      rw [if_pos hkind, if_pos hkind, countP_cons_of_pos (by simp [hkind]),
        filterMap_cons_some hcall, countP_cons, filter_cons]
      cases hshown : showsCall options w.seenCalls with
      | true => simp [inWindow, hshown]; omega
      | false => simp [inWindow, hshown]; omega
    · rw [if_neg hkind, if_neg hkind, countP_cons_of_neg (by simp [hkind]),
        filterMap_cons_none hm, filter_cons_of_pos (by simp [inWindow, hm])]
      simp

theorem walk_eq : f.walk options =
      { material := (numberCalls 0 (f.visited options)).filter (inWindow options)
        seenCalls := f.callCount options
        omittedCalls :=
          (List.range (f.callCount options)).countP (fun k => !showsCall options k) } := by
  unfold walk
  rw [walk_foldl (fun m hm => call_visited hm), numberCalls_call (fun m hm => call_visited hm),
    ← range_eq_range']
  simp [callCount]

theorem gathered_eq : f.gathered options = (f.everything options).filter (inWindow options) := by
  unfold gathered everything
  rw [walk_eq, filter_append]
  congr 1
  refine (filter_eq_self.mpr (fun m hm => ?_)).symm
  obtain ⟨i, -, hi⟩ := mem_filterMap.mp hm
  simp [inWindow, (indirectMaterial_spec hi).1]

instance : Std.Total (fun a b : Material => f.place options a ≤ f.place options b) :=
  ⟨fun _ _ => Nat.le_total _ _⟩

instance : IsTrans Material (fun a b => f.place options a ≤ f.place options b) :=
  ⟨fun _ _ _ => Nat.le_trans⟩

theorem nodup_order (hfits : ControlRecovery.AnalysisFits f.cfg f.function.id) :
    (f.blockOrder options).Nodup := by
  unfold blockOrder
  split
  · exact ControlRecovery.nodup_blockOrder _ _ _ _ hfits
  · exact nodup_nil

theorem visited_sorted (hnodup : (f.blockOrder options).Nodup) :
    (f.visited options).Pairwise (fun a b =>
      (f.blockOrder options).idxOf a.statement.node ≤
        (f.blockOrder options).idxOf b.statement.node) := by
  refine pairwise_flatMap.mpr ⟨fun node _ => ?_, ?_⟩
  · refine pairwise_of_forall_mem_list (fun a ha b hb => ?_)
    rw [(call_nodeMaterial ha).2, (call_nodeMaterial hb).2]
  · refine (Paging.pairwise_idxOf hnodup).imp (fun hle a ha b hb => ?_)
    rwa [(call_nodeMaterial ha).2, (call_nodeMaterial hb).2]

theorem calls_sorted (hnodup : (f.blockOrder options).Nodup) :
    ((f.everything options).filter (fun m => m.call.isSome)).Pairwise
      (fun a b => f.place options a ≤ f.place options b) := by
  have hnumbered : (numberCalls 0 (f.visited options)).Pairwise (fun a b =>
      (f.blockOrder options).idxOf a.statement.node ≤
        (f.blockOrder options).idxOf b.statement.node) := by
    have hmap : ((f.visited options).map Material.statement).Pairwise (fun a b =>
        (f.blockOrder options).idxOf a.node ≤ (f.blockOrder options).idxOf b.node) :=
      pairwise_map.mpr (visited_sorted hnodup)
    rw [← numberCalls_statement 0, pairwise_map] at hmap
    exact hmap
  have hfilter : (f.everything options).filter (fun m => m.call.isSome) =
      (numberCalls 0 (f.visited options)).filter (fun m => m.call.isSome) := by
    unfold everything
    rw [filter_append]
    have hnone : (f.cfg.indirects.filterMap (f.indirectMaterial options)).filter
        (fun m => m.call.isSome) = [] := by
      refine filter_eq_nil_iff.mpr (fun m hm => ?_)
      obtain ⟨i, -, hi⟩ := mem_filterMap.mp hm
      simp [(indirectMaterial_spec hi).1]
    rw [hnone, append_nil]
  rw [hfilter]
  have hplace : ∀ m ∈ (numberCalls 0 (f.visited options)).filter (fun m => m.call.isSome),
      f.place options m = 2 * (f.blockOrder options).idxOf m.statement.node := by
    intro m hm
    obtain ⟨hmem, hsome⟩ := mem_filter.mp hm
    rw [numberCalls_isSome (fun m hm => call_visited hm) hmem, beq_iff_eq] at hsome
    simp [place, hsome, terminalStatement]
  refine (hnumbered.filter _).imp_of_mem (fun ha hb hle => ?_)
  rw [hplace _ ha, hplace _ hb]
  omega

theorem filterMap_filter_isSome (l : List Material) :
    (l.filter (fun m => m.call.isSome)).filterMap Material.call = l.filterMap Material.call := by
  rw [filterMap_filter]
  refine filterMap_congr (fun m _ => ?_)
  cases m.call <;> rfl

/-- In presentation order the calls are numbered as in block order. -/
theorem presented_call (hnodup : (f.blockOrder options).Nodup) :
    (f.presented options).filterMap Material.call = List.range (f.callCount options) := by
  unfold presented
  rw [← filterMap_filter_isSome, Paging.filter_insertionSort_of_sorted _ (calls_sorted hnodup),
    filterMap_filter_isSome, everything_call]

theorem presented_isSome (hm : m ∈ f.presented options) :
    m.call.isSome = (m.statement.kind == .call) :=
  everything_isSome (mem_insertionSort _ |>.mp hm)

theorem ordered_page : f.ordered (pageOptions options offset) =
      (f.presented options).filter (inWindow (pageOptions options offset)) := by
  unfold ordered presented
  rw [gathered_eq]
  exact (Paging.filter_insertionSort (fun a b => f.place options a ≤ f.place options b)
    (inWindow (pageOptions options offset)) (f.everything options)).symm

/-- The numbers that a page keeps. -/
def keptCalls (f : CompactInput) (options : CompactOptions) (offset : Nat) : List Nat :=
  Paging.shownNumbers Material.call offset (f.windowEnd options offset)
    (f.statementLimit options) (f.presented options)

theorem kept_page : f.kept (pageOptions options offset) =
      ((f.presented options).filter (inWindow (pageOptions options offset))).take
        (f.statementLimit options) := by
  unfold kept keep statementLimit
  rw [ordered_page]
  change List.take (if options.maxStatements = 0 then _ else min _ options.maxStatements) _ = _
  by_cases hzero : options.maxStatements = 0
  · rw [if_pos hzero, if_pos hzero, take_length,
      take_of_length_le (length_filter_le _ _)]
  rw [if_neg hzero, if_neg hzero]
  rcases Nat.le_total ((f.presented options).filter
      (inWindow (pageOptions options offset))).length options.maxStatements with h | h
  · rw [Nat.min_eq_left h, take_length, take_of_length_le h]
  · rw [Nat.min_eq_right h]

theorem showsCall_spec (options : CompactOptions) (k : Nat) :
    showsCall options k = true ↔ options.callOffset ≤ k ∧
      (options.maxCalls = 0 ∨ k < options.callOffset + options.maxCalls) := by
  unfold showsCall
  rw [Bool.not_eq_true', Bool.or_eq_false_iff, Bool.and_eq_false_iff, decide_eq_false_iff_not,
    decide_eq_false_iff_not, bne_eq_false_iff_eq]
  omega

variable {offset k : Nat}

theorem showsCall_iff (hk : k < f.callCount options) :
    showsCall (pageOptions options offset) k = true ↔
      offset ≤ k ∧ k < f.windowEnd options offset := by
  have h : showsCall (pageOptions options offset) k = true ↔ offset ≤ k ∧
      (options.maxCalls = 0 ∨ k < offset + options.maxCalls) := showsCall_spec _ k
  rw [h]
  unfold windowEnd
  split <;> omega

theorem kept_call (hnodup : (f.blockOrder options).Nodup) (offset : Nat) :
    (f.kept (pageOptions options offset)).filterMap Material.call = f.keptCalls options offset := by
  rw [kept_page]
  unfold keptCalls Paging.shownNumbers
  congr 2
  refine filter_congr (fun m hm => ?_)
  unfold inWindow Paging.onPage
  cases hcall : m.call with
  | none => rfl
  | some k =>
    have hk : k ∈ (f.presented options).filterMap Material.call :=
      mem_filterMap.mpr ⟨m, hm, hcall⟩
    rw [presented_call hnodup, mem_range] at hk
    exact Bool.eq_iff_iff.mpr (by rw [showsCall_iff hk, decide_eq_true_iff])

theorem omitted_calls (hnodup : (f.blockOrder options).Nodup) (offset : Nat) :
    (f.omitted (pageOptions options offset)).calls + (f.keptCalls options offset).length =
      f.callCount options := by
  have hordered : (f.ordered (pageOptions options offset)).filterMap Material.call =
      (List.range (f.callCount options)).filter (showsCall (pageOptions options offset)) := by
    rw [ordered_page, ← presented_call hnodup, filter_filterMap, filterMap_filter]
    refine filterMap_congr (fun m _ => ?_)
    unfold inWindow
    cases m.call <;> simp [Option.filter]
  have hsplit := congrArg (fun l => (l.filterMap Material.call).length)
    (take_append_drop (f.keep (pageOptions options offset))
      (f.ordered (pageOptions options offset)))
  simp only [filterMap_append, length_append] at hsplit
  have hcut : (f.cut (pageOptions options offset)).countP (fun m => m.statement.kind == .call) =
      ((f.cut (pageOptions options offset)).filterMap Material.call).length := by
    rw [length_filterMap_eq_countP]
    refine countP_congr (fun m hm => ?_)
    have hmem : m ∈ f.presented options := by
      have := mem_of_mem_drop hm
      rw [ordered_page] at this
      exact mem_of_mem_filter this
    rw [presented_isSome hmem]
  have htotal : (List.range (f.callCount options)).length =
      (List.range (f.callCount options)).countP (showsCall (pageOptions options offset)) +
        (List.range (f.callCount options)).countP
          (fun k => decide ¬showsCall (pageOptions options offset) k = true) :=
    length_eq_countP_add_countP _
  rw [length_range, countP_eq_length_filter, ← hordered, ← hsplit] at htotal
  have hcalls : (f.omitted (pageOptions options offset)).calls =
      (List.range (f.callCount options)).countP
        (fun k => !showsCall (pageOptions options offset) k) +
        (f.cut (pageOptions options offset)).countP (fun m => m.statement.kind == .call) := by
    unfold omitted
    rw [walk_eq]
    rfl
  rw [hcalls, hcut, ← kept_call hnodup]
  unfold kept cut at *
  simp only [Bool.not_eq_true] at htotal
  have hnot : (List.range (f.callCount options)).countP
      (fun k => !showsCall (pageOptions options offset) k) =
      (List.range (f.callCount options)).countP
        (fun k => decide (showsCall (pageOptions options offset) k = false)) :=
    countP_congr (fun k _ => by simp)
  omega

theorem visibleCalls_eq (hnodup : (f.blockOrder options).Nodup) (offset : Nat) :
    f.visibleCalls options offset = (f.keptCalls options offset).length := by
  have h := omitted_calls hnodup offset
  have hseen : (f.view (pageOptions options offset)).totalCalls = f.callCount options := by
    unfold view
    rw [walk_eq]
    rfl
  have homitted : (f.view (pageOptions options offset)).omitted.calls =
      (f.omitted (pageOptions options offset)).calls := rfl
  unfold visibleCalls
  omega

theorem reportsCalls_iff (hnodup : (f.blockOrder options).Nodup) (offset : Nat) :
    f.ReportsCalls options offset ↔ (f.keptCalls options offset).length < f.callCount options := by
  have h := omitted_calls hnodup offset
  have homitted : (f.view (pageOptions options offset)).omitted.calls =
      (f.omitted (pageOptions options offset)).calls := rfl
  unfold ReportsCalls
  omega

theorem statementSection_call (items : List Material) (title : Text)
    (kinds : List SemanticStatementKind) :
    (statementSection items title kinds).filterMap CompactLine.call =
      (items.filter (fun m => kinds.contains m.statement.kind)).filterMap Material.call := by
  unfold statementSection
  split
  · rename_i h
    rw [h]
    rfl
  rename_i first rest h
  have hheading : CompactLine.call { text := title ++ [':'] } = none := rfl
  rw [h, filterMap_cons_none hheading, filterMap_map]
  rfl

theorem length_statementLine (s : SemanticStatement) :
    s.stableId.length + 4 ≤ (statementLine s).length := by
  have htwo : "  ".toList.length = 2 := rfl
  have hcolon : ": ".toList.length = 2 := rfl
  unfold statementLine
  simp only [length_append, htwo, hcolon]
  omega

theorem stamp_spec (p : Material × Nat) : (f.stamp options p).call = p.1.call ∧
      (f.stamp options p).statement.kind = p.1.statement.kind ∧
      6 ≤ (statementLine (f.stamp options p).statement).length := by
  have hid : 2 ≤ (f.stamp options p).statement.stableId.length := by
    have hmark : ":S:".toList.length = 3 := rfl
    unfold stamp
    split <;> simp only [length_append, length_cons, hmark] <;> omega
  have hline := length_statementLine (f.stamp options p).statement
  refine ⟨?_, ?_, by omega⟩
  · unfold stamp
    split <;> rfl
  · unfold stamp
    split <;> rfl

theorem stamped_isSome (hm : m ∈ f.stamped options) :
    m.call.isSome = (m.statement.kind == .call) ∧ 6 ≤ (statementLine m.statement).length := by
  obtain ⟨p, hp, rfl⟩ := mem_map.mp hm
  obtain ⟨hcall, hkind, hlen⟩ := @stamp_spec f options p
  have hkept : p.1 ∈ f.kept options := fst_mem_of_mem_zipIdx hp
  have hgathered : p.1 ∈ f.gathered options :=
    (mem_insertionSort _).mp (mem_of_mem_take hkept)
  rw [gathered_eq] at hgathered
  rw [hcall, hkind]
  exact ⟨everything_isSome (mem_of_mem_filter hgathered), hlen⟩

theorem stamped_call :
    (f.stamped options).filterMap Material.call = (f.kept options).filterMap Material.call := by
  unfold stamped
  rw [filterMap_map]
  have hfst : Material.call ∘ f.stamp options = Material.call ∘ Prod.fst :=
    funext (fun p => (stamp_spec p).1)
  rw [hfst, ← filterMap_map, zipIdx_map_fst]

theorem callLines_call : (f.callLines options).filterMap CompactLine.call =
      (f.kept options).filterMap Material.call := by
  unfold callLines
  rw [statementSection_call, ← stamped_call, ← filterMap_filter_isSome (f.stamped options)]
  refine congrArg (List.filterMap Material.call) (filter_congr (fun m hm => ?_))
  rw [(stamped_isSome hm).1, contains_cons, contains_nil, Bool.or_false]

/-- The section of the calls is empty, or has a heading that is shorter than any of its
lines. -/
theorem callLines_cases : f.callLines options = [] ∨ ∃ heading first rest,
      f.callLines options = heading :: first :: rest ∧ heading.text.length = 6 ∧
        heading.call = none ∧ ∀ l ∈ first :: rest, l.call.isSome = true ∧ 6 ≤ l.text.length := by
  unfold callLines statementSection
  split
  · exact Or.inl rfl
  rename_i first rest h
  refine Or.inr ⟨_, _, _, rfl, rfl, rfl, fun l hl => ?_⟩
  obtain ⟨m, hm, rfl⟩ := mem_map.mp (show l ∈ (first :: rest).map (fun m =>
    ({ text := statementLine m.statement, call := m.call } : CompactLine)) from hl)
  rw [← h] at hm
  obtain ⟨hmem, hkind⟩ := mem_filter.mp hm
  obtain ⟨hcall, hlen⟩ := stamped_isSome hmem
  refine ⟨?_, hlen⟩
  rw [hcall]
  simpa using hkind

theorem statementSection_none {title : Text} {kinds : List SemanticStatementKind}
    (hkinds : .call ∉ kinds) {l : CompactLine}
    (hl : l ∈ statementSection (f.stamped options) title kinds) : l.call = none := by
  unfold statementSection at hl
  split at hl
  · exact absurd hl not_mem_nil
  rename_i first rest h
  rcases mem_cons.mp hl with rfl | hl
  · rfl
  obtain ⟨m, hm, rfl⟩ := mem_map.mp hl
  rw [← h] at hm
  obtain ⟨hmem, hkind⟩ := mem_filter.mp hm
  have hnot : m.statement.kind ≠ .call := by
    intro hcall
    rw [hcall] at hkind
    exact hkinds (contains_iff_mem.mp hkind)
  have := (stamped_isSome hmem).1
  rw [beq_eq_false_iff_ne.mpr hnot] at this
  simpa using this

theorem tailLines_none : ∀ l ∈ f.tailLines begins options, l.call = none := by
  unfold tailLines
  simp only [forall_mem_append, forall_mem_cons, forall_mem_map, and_assoc]
  refine ⟨trivial, fun _ _ => trivial, fun _ _ => trivial, fun l hl => ?_, fun l hl => ?_,
    fun l hl => ?_, fun l hl => ?_, trivial, fun l hl => ?_, fun _ _ => trivial⟩
  · exact statementSection_none (by decide) hl
  · exact statementSection_none (by decide) hl
  · exact statementSection_none (by decide) hl
  · exact statementSection_none (by decide) hl
  · split at hl
    · exact absurd hl not_mem_nil
    · rw [mem_singleton.mp hl]

theorem headLines_none : ∀ l ∈ f.headLines options, l.call = none := by
  unfold headLines
  simp only [forall_mem_cons]
  exact ⟨trivial, trivial, trivial, trivial, fun l hl => absurd hl not_mem_nil⟩

theorem taken_none {lines : List CompactLine} (h : ∀ l ∈ lines, l.call = none)
    (w : BudgetWriter) : (w.taken lines).filterMap CompactLine.call = [] :=
  filterMap_eq_nil_iff.mpr (fun l hl => h l ((w.taken_sublist lines).subset hl))

/-- The writer after the head of a text. -/
def headWriter (f : CompactInput) (options : CompactOptions) : BudgetWriter :=
  (f.headLines options).foldl (fun w l => w.line l.text) { limit := options.maxBytes }

/-- A page prints the calls whose lines are taken behind its head. -/
theorem printedCalls_eq {offset : Nat} (hok : (f.view (pageOptions options offset)).ok = true) :
    f.printedCalls begins options offset = ((f.headWriter (pageOptions options offset)).taken
        (f.callLines (pageOptions options offset))).filterMap CompactLine.call := by
  unfold printedCalls printedLines compactLines
  rw [if_pos hok, BudgetWriter.taken_append, BudgetWriter.taken_append, filterMap_append,
    filterMap_append, taken_none headLines_none, taken_none tailLines_none, append_nil,
    nil_append]
  rfl

theorem callCount_of_not_ok {offset : Nat}
    (h : (f.view (pageOptions options offset)).ok = false) : f.callCount options = 0 := by
  have hstatus : (f.control options).status ≠ .ok := by
    have hview : ((f.control options).status == .ok) = false := h
    simpa using hview
  unfold callCount visited blockOrder
  rw [if_neg hstatus]
  rfl

theorem mem_keptCalls (hnodup : (f.blockOrder options).Nodup) :
    k ∈ f.keptCalls options offset ↔ offset ≤ k ∧ k < offset + f.visibleCalls options offset := by
  rw [visibleCalls_eq hnodup]
  exact Paging.mem_shownNumbers_iff (presented_call hnodup)

theorem printedCalls_sublist (hnodup : (f.blockOrder options).Nodup) (offset : Nat) :
    (f.printedCalls begins options offset).Sublist (f.keptCalls options offset) := by
  cases hok : (f.view (pageOptions options offset)).ok with
  | true =>
    rw [printedCalls_eq hok, ← kept_call hnodup, ← callLines_call]
    exact (BudgetWriter.taken_sublist _ _).filterMap _
  | false =>
    unfold printedCalls printedLines
    rw [hok]
    exact nil_sublist _

/-- Whether the lines of the calls fit behind the head of a page. -/
def CallsFit (f : CompactInput) (options : CompactOptions) (offset : Nat) : Prop :=
  f.callLines (pageOptions options offset) = [] ∨ options.maxBytes = 0 ∨
    lineBytes (BudgetWriter.taken { limit := options.maxBytes }
        (f.headLines (pageOptions options offset))) +
      lineBytes (f.callLines (pageOptions options offset)) ≤ options.maxBytes

theorem callsFit_iff : f.CallsFit options offset ↔ (f.headWriter (pageOptions options offset)).taken
        (f.callLines (pageOptions options offset)) = f.callLines (pageOptions options offset) := by
  rw [BudgetWriter.taken_eq_self_iff]
  unfold headWriter
  rw [BudgetWriter.text_foldl, BudgetWriter.limit_foldl]
  have hbytes : ∀ lines : List CompactLine,
      (([] : Text) ++ lines.flatMap (fun l => l.text ++ ['\n'])).length = lineBytes lines := by
    intro lines
    simp [lineBytes, length_flatMap]
  rw [hbytes]
  rfl

instance (f : CompactInput) (options : CompactOptions) (offset : Nat) :
    Decidable (f.CallsFit options offset) := inferInstanceAs (Decidable (_ ∨ _ ∨ _))

/-- A page prints all calls that it keeps if and only if their lines fit. -/
theorem all_printed_iff (hnodup : (f.blockOrder options).Nodup) (offset : Nat) :
    (∀ k ∈ f.keptCalls options offset, k ∈ f.printedCalls begins options offset) ↔
      f.CallsFit options offset := by
  rw [callsFit_iff, ← kept_call hnodup, ← callLines_call]
  cases hok : (f.view (pageOptions options offset)).ok with
  | true =>
    rw [printedCalls_eq hok]
    refine ⟨fun hall => ?_, fun htaken k hk => by rwa [htaken]⟩
    have hcount : ((f.callLines (pageOptions options offset)).filterMap
        CompactLine.call).Nodup := by
      rw [callLines_call, kept_call hnodup]
      exact Paging.nodup_shownNumbers (presented_call hnodup) _ _ _
    have hlen := (subperm_of_subset hcount hall).length_le
    rcases @callLines_cases f (pageOptions options offset) with
      hnil | ⟨heading, first, rest, hlines, hheading, hnone, hcalls⟩
    · rw [hnil]
      rfl
    · rw [hlines] at hlen ⊢
      exact BudgetWriter.taken_headed hheading hnone hcalls hlen
  | false =>
    have hnone : (f.callLines (pageOptions options offset)).filterMap CompactLine.call = [] := by
      rw [callLines_call, kept_call hnodup]
      refine eq_nil_iff_forall_not_mem.mpr (fun k hk => ?_)
      have := ((Paging.mem_shownNumbers (presented_call hnodup)).mp hk).2.1
      rw [callCount_of_not_ok hok] at this
      exact Nat.not_lt_zero k this
    rw [hnone]
    refine iff_of_true (fun k hk => absurd hk not_mem_nil) ?_
    rcases @callLines_cases f (pageOptions options offset) with
      hnil | ⟨heading, first, rest, hlines, -, -, hcalls⟩
    · rw [hnil]
      rfl
    obtain ⟨k, hk⟩ := Option.isSome_iff_exists.mp (hcalls first mem_cons_self).1
    have hmem : k ∈ (f.callLines (pageOptions options offset)).filterMap CompactLine.call := by
      rw [hlines]
      exact mem_filterMap.mpr ⟨first, by simp, hk⟩
    rw [hnone] at hmem
    exact absurd hmem not_mem_nil

theorem visibleCalls_le (hnodup : (f.blockOrder options).Nodup) (offset : Nat)
    (h : offset ≤ f.callCount options) :
    offset + f.visibleCalls options offset ≤ f.callCount options := by
  rw [visibleCalls_eq hnodup]
  exact Paging.length_shownNumbers_le (presented_call hnodup) h

theorem printedCalls_within (hnodup : (f.blockOrder options).Nodup) (offset k : Nat)
    (h : k ∈ f.printedCalls begins options offset) :
    offset ≤ k ∧ k < offset + f.visibleCalls options offset :=
  (mem_keptCalls hnodup).mp ((printedCalls_sublist hnodup offset).subset h)

/-- A page keeps a call if it is in the window and the statements before it leave room. -/
theorem mem_keptCalls_iff (hnodup : (f.blockOrder options).Nodup)
    (hk : k < f.callCount options) : k ∈ f.keptCalls options offset ↔
      (offset ≤ k ∧ k < f.windowEnd options offset) ∧ (options.maxStatements = 0 ∨
          f.statementsBefore options k + (k - offset) < options.maxStatements) := by
  have hlt := Paging.othersBefore_lt (presented_call hnodup) hk
  unfold keptCalls
  rw [Paging.mem_shownNumbers (presented_call hnodup)]
  unfold statementsBefore statementLimit
  split
  · omega
  · omega

/-- Fewer statements than a page holds stand before the last call and are no calls. -/
def LeavesRoom (f : CompactInput) (options : CompactOptions) : Prop :=
  f.callCount options = 0 ∨ options.maxStatements = 0 ∨
    f.statementsBefore options (f.callCount options - 1) < options.maxStatements

instance (f : CompactInput) (options : CompactOptions) : Decidable (f.LeavesRoom options) :=
  inferInstanceAs (Decidable (_ ∨ _ ∨ _))

/-- The pages pass over all calls if and only if the statements leave room for the last
one. -/
theorem reaches_iff (hnodup : (f.blockOrder options).Nodup) :
    (∃ i, f.pageOffset options i = f.callCount options) ↔ f.LeavesRoom options := by
  constructor
  · rintro ⟨i, hi⟩
    rcases Nat.eq_zero_or_pos (f.callCount options) with hzero | hpos
    · exact Or.inl hzero
    have hlast : f.callCount options - 1 < Paging.start (f.visibleCalls options) i := by
      unfold pageOffset at hi
      omega
    obtain ⟨j, hj⟩ := Paging.exists_page hlast
    have hkept := (mem_keptCalls_iff hnodup (by omega)).mp ((mem_keptCalls hnodup).mpr hj)
    unfold LeavesRoom
    omega
  · intro hroom
    refine (Paging.advances_iff (visibleCalls_le hnodup)).mp (fun i hi => ?_)
    have hmono := Paging.othersBefore_mono (presented_call hnodup)
      (show Paging.start (f.visibleCalls options) i ≤ f.callCount options - 1 by omega)
      (by omega)
    have hkept : Paging.start (f.visibleCalls options) i ∈
        f.keptCalls options (Paging.start (f.visibleCalls options) i) := by
      refine (mem_keptCalls_iff hnodup hi).mpr ⟨?_, ?_⟩
      · unfold windowEnd
        split <;> omega
      · unfold LeavesRoom statementsBefore at *
        omega
    have := (mem_keptCalls hnodup).mp hkept
    omega

/-- The first page passes over all calls. -/
def OnFirstPage (f : CompactInput) (options : CompactOptions) : Prop :=
  f.callCount options = 0 ∨
    ((options.maxCalls = 0 ∨ f.callCount options ≤ options.maxCalls) ∧ (options.maxStatements = 0 ∨
        f.statementsBefore options (f.callCount options - 1) + f.callCount options ≤
          options.maxStatements))

instance (f : CompactInput) (options : CompactOptions) : Decidable (f.OnFirstPage options) :=
  inferInstanceAs (Decidable (_ ∨ _))

theorem first_page_iff (hnodup : (f.blockOrder options).Nodup) :
    f.visibleCalls options 0 = f.callCount options ↔ f.OnFirstPage options := by
  have hle := visibleCalls_le hnodup 0 (Nat.zero_le _)
  rcases Nat.eq_zero_or_pos (f.callCount options) with hzero | hpos
  · exact iff_of_true (by omega) (Or.inl hzero)
  have hkept : f.visibleCalls options 0 = f.callCount options ↔
      f.callCount options - 1 ∈ f.keptCalls options 0 := by
    rw [mem_keptCalls hnodup]
    omega
  rw [hkept, mem_keptCalls_iff hnodup (by omega)]
  unfold OnFirstPage windowEnd
  split <;> omega

theorem reportsCalls_visible (hnodup : (f.blockOrder options).Nodup) (offset : Nat) :
    f.ReportsCalls options offset ↔ f.visibleCalls options offset < f.callCount options := by
  rw [reportsCalls_iff hnodup, visibleCalls_eq hnodup]

/-- What following the footer promises: it comes to a page that reports no call, the pages
up to there print every call exactly once, and each begins behind the one before it. -/
def Continues (f : CompactInput) (begins : ControlEvidence) (options : CompactOptions) : Prop :=
  ∃ last, ¬f.ReportsCalls options (f.pageOffset options last) ∧
    (∀ i < last, f.ReportsCalls options (f.pageOffset options i)) ∧
    (∀ k < f.callCount options, ∃! i, i ≤ last ∧
      k ∈ f.printedCalls begins options (f.pageOffset options i)) ∧
    ∀ i < last, f.pageOffset options i < f.pageOffset options (i + 1)

/-- The promise without its end: all pages together print every call exactly once, and a
page after which calls are still to be printed is followed by one that begins behind it. -/
def PrintsEachOnce (f : CompactInput) (begins : ControlEvidence) (options : CompactOptions) :
    Prop :=
  (∀ k < f.callCount options, ∃! i, k ∈ f.printedCalls begins options (f.pageOffset options i)) ∧
    ∀ i, (∃ k < f.callCount options, ∀ j ≤ i,
      k ∉ f.printedCalls begins options (f.pageOffset options j)) →
      f.pageOffset options i < f.pageOffset options (i + 1)

/-- A page behind the first call always reports calls, so following the footer ends on the
first page or never. -/
theorem continues_iff (hnodup : (f.blockOrder options).Nodup) :
    f.Continues begins options ↔ f.OnFirstPage options ∧ f.CallsFit options 0 := by
  rw [← first_page_iff hnodup, ← @all_printed_iff f begins options hnodup 0]
  have hzero : f.pageOffset options 0 = 0 := rfl
  constructor
  · rintro ⟨last, hend, hreports, honce, -⟩
    rw [reportsCalls_visible hnodup] at hend
    have hle := visibleCalls_le hnodup _
      (Paging.start_le (visibleCalls_le hnodup) last)
    have hstart : f.pageOffset options last = 0 := by
      unfold pageOffset at *
      omega
    obtain rfl : last = 0 := by
      by_contra hlast
      have hfirst := hreports 0 (Nat.pos_of_ne_zero hlast)
      rw [hzero, reportsCalls_visible hnodup] at hfirst
      rw [hstart] at hend
      exact hend hfirst
    have hall : f.visibleCalls options 0 = f.callCount options := by
      have := visibleCalls_le hnodup 0 (Nat.zero_le _)
      rw [hzero] at hend
      omega
    refine ⟨hall, fun k hk => ?_⟩
    have hcount : k < f.callCount options := by
      have := (mem_keptCalls hnodup).mp hk
      omega
    obtain ⟨i, ⟨hi, hprinted⟩, -⟩ := honce k hcount
    obtain rfl := Nat.le_zero.mp hi
    exact hprinted
  · rintro ⟨hall, hprinted⟩
    refine ⟨0, ?_, fun i hi => absurd hi (Nat.not_lt_zero i), fun k hk => ?_,
      fun i hi => absurd hi (Nat.not_lt_zero i)⟩
    · rw [hzero, reportsCalls_visible hnodup]
      omega
    · have hmem := hprinted k ((mem_keptCalls hnodup).mpr (by omega))
      exact ⟨0, ⟨Nat.le_refl 0, hmem⟩, fun i hi => Nat.le_zero.mp hi.1⟩

/-- Every call is printed on exactly one page if and only if the statements leave room for
the last call and on every page the lines of its calls fit. -/
theorem printsEachOnce_iff (hnodup : (f.blockOrder options).Nodup) :
    f.PrintsEachOnce begins options ↔
      f.LeavesRoom options ∧ ∀ i, f.CallsFit options (f.pageOffset options i) := by
  have honce := Paging.shown_once_iff (visibleCalls_le hnodup)
    (@printedCalls_within f begins options hnodup)
  have hfit : (∀ i k, Paging.start (f.visibleCalls options) i ≤ k →
        k < Paging.start (f.visibleCalls options) i +
          f.visibleCalls options (Paging.start (f.visibleCalls options) i) →
        k ∈ f.printedCalls begins options (Paging.start (f.visibleCalls options) i)) ↔
      ∀ i, f.CallsFit options (f.pageOffset options i) := by
    refine forall_congr' (fun i => ?_)
    rw [← @all_printed_iff f begins options hnodup]
    exact ⟨fun h k hk => h k ((mem_keptCalls hnodup).mp hk).1 ((mem_keptCalls hnodup).mp hk).2,
      fun h k hlow hhigh => h k ((mem_keptCalls hnodup).mpr ⟨hlow, hhigh⟩)⟩
  rw [hfit, show (∃ i, Paging.start (f.visibleCalls options) i = f.callCount options) ↔
    f.LeavesRoom options from reaches_iff hnodup, and_comm] at honce
  refine ⟨fun h => honce.mp h.1, fun h => ⟨honce.mpr h, fun i hi => ?_⟩⟩
  obtain ⟨k, hk, hleft⟩ := hi
  by_contra hstuck
  obtain ⟨j, hj, -⟩ := honce.mpr h k hk
  have hij : i < j := Nat.lt_of_not_le (fun hle => hleft j hle hj)
  have hwidth : f.visibleCalls options (Paging.start (f.visibleCalls options) i) = 0 := by
    have hstep : f.pageOffset options (i + 1) = f.pageOffset options i +
        f.visibleCalls options (f.pageOffset options i) := rfl
    unfold pageOffset at *
    omega
  have hsame : f.pageOffset options j = f.pageOffset options i :=
    Paging.start_stuck hwidth (Nat.le_of_lt hij)
  exact hleft i (Nat.le_refl i) (hsame ▸ hj)

/-- A block that stores a value and then calls two functions. -/
def storeThenCalls : CompactInput where
  function :=
    { id := 0, name := "f", entry := 0x40, rangeStart := 0x40, rangeEnd := 0x60
      sessionComplete := true }
  values :=
    { module :=
        { values := [{ type := { kind := .mem } }, { type := { kind := .int, bits := 64 } }]
          ops := [{ opcode := .store, inputs := [0, 1, 1] },
            { opcode := .call, attributes := { directTarget := 0x100 } },
            { opcode := .call, attributes := { directTarget := 0x200 } }]
          blocks := [{ ops := [0, 1, 2], terminator := { kind := .ret } }]
          opcodeName := fun _ => [] }
      blocks := [0]
      isEntry := fun b => b == 0
      variableNames := fun _ => none
      returnValues := fun _ => false }
  cfg :=
    { nodes := [{ start := 0x40, irBlock := 0 }]
      edges := []
      functions := [{ entry := 0x40, nodes := [0] }] }

theorem storeThenCalls_fits :
    ControlRecovery.AnalysisFits storeThenCalls.cfg storeThenCalls.function.id where
  order := by
    intro a ha
    cases ha
  loops := by
    intro a ha
    cases ha

/-- With one call a page the footer never stops to report a call; with one statement a page
the store takes the place of the calls; and with too few bytes the calls are passed over
without being printed. -/
theorem paging_fails : ¬storeThenCalls.Continues {} { maxCalls := 1 } ∧
      ¬storeThenCalls.PrintsEachOnce {} { maxStatements := 1 } ∧
      ¬storeThenCalls.PrintsEachOnce {} { maxBytes := 160 } := by
  refine ⟨fun h => ?_, fun h => ?_, fun h => ?_⟩
  · have hfirst := ((continues_iff (nodup_order storeThenCalls_fits)).mp h).1
    exact absurd hfirst (by decide)
  · have hroom := ((printsEachOnce_iff (nodup_order storeThenCalls_fits)).mp h).1
    exact absurd hroom (by decide)
  · have hfit : storeThenCalls.CallsFit { maxBytes := 160 } 0 :=
      ((printsEachOnce_iff (nodup_order storeThenCalls_fits)).mp h).2 0
    exact absurd hfit (by set_option maxRecDepth 100000 in decide)

/-- Following the footer ends, with every call printed once, if and only if the first page
holds all calls and their lines fit.  Even if the end is left aside, every call is printed
on exactly one page if and only if the statements before the last call leave room for it
and the lines of the calls fit on every page that is reached. -/
theorem call_paging (f : CompactInput) (begins : ControlEvidence) (options : CompactOptions)
    (hfits : ControlRecovery.AnalysisFits f.cfg f.function.id) :
    (f.Continues begins options ↔ f.OnFirstPage options ∧ f.CallsFit options 0) ∧
      (f.PrintsEachOnce begins options ↔
        f.LeavesRoom options ∧ ∀ i, f.CallsFit options (f.pageOffset options i)) :=
  ⟨continues_iff (nodup_order hfits), printsEachOnce_iff (nodup_order hfits)⟩

/-- One page of the usual size holds both calls. -/
theorem both_calls_printed : storeThenCalls.Continues {} {} :=
  (call_paging storeThenCalls {} {} storeThenCalls_fits).1.mpr
    ⟨by decide, by set_option maxRecDepth 100000 in decide⟩

end CompactInput

end Airece
