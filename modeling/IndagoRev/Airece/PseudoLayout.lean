import IndagoRev.Airece.SemanticText

/-!
# The layout of the pseudo view

The loop of `render_pseudo` is a layout decision followed by printing.  The
layout is the list of blocks that keep their label, `printedHeads`: a block of
the order is a head unless an earlier head absorbed it.  Each head then prints
its own lines, which depend on the view and the head alone.

The decision can be told from the regions and the block order without the walk:
`LeadsAt` says when a place of the order leads, and `mem_printedHeads` that the
leading blocks are the heads.  `renderBlock_cases` lists the forms of a head.
-/

namespace Airece

open StdText List

/-- The blocks of the region that is certified at a header: the body and the
latch of a loop, the targets of a switch, the arms of a conditional.  A block
without a region stands for itself. -/
def absorbs (view : CompactFunctionView) (node : NodeId) : List NodeId :=
  match structuredLoop view node with
  | some region => node :: ((certifiedSimpleLoop view region).map (fun l => [l.1, l.2])).getD []
  | none =>
    match structuredSwitch view node with
    | some region => node :: switchTargets region
    | none =>
      match structuredIf view node, ifArms view node with
      | some _, some (t, f) => [node, t, f]
      | _, _ => [node]

/-- A place of the block order leads when no earlier leading place takes its
block into a region. -/
def LeadsAt (view : CompactFunctionView) (i : Nat) (node : NodeId) : Prop :=
  view.control.blockOrder[i]? = some node ∧
    ∀ j, ∀ _ : j < i, ∀ h, LeadsAt view j h → node ∉ absorbs view h
  termination_by i

/-- A block that keeps its label, by its regions and the block order. -/
def Leads (view : CompactFunctionView) (node : NodeId) : Prop := ∃ i, LeadsAt view i node

/-- The blocks of an order that are printed with a label, given the blocks that
are consumed before. -/
def headsFrom (view : CompactFunctionView) : List NodeId → List NodeId → List NodeId
  | [], _ => []
  | node :: rest, consumed =>
    if consumed.contains node then headsFrom view rest consumed
    else node :: headsFrom view rest (absorbs view node ++ consumed)

/-- The blocks that keep a label in the pseudo view. -/
def printedHeads (view : CompactFunctionView) : List NodeId :=
  headsFrom view view.control.blockOrder []

/-- Whether a head is printed on its own, with explicit transfers. -/
def isPlain (view : CompactFunctionView) (node : NodeId) : Bool :=
  (structuredLoop view node).isNone && (structuredSwitch view node).isNone &&
    (structuredIf view node).isNone

/-- The blocks whose statements appear in the lines of a head. -/
def renderedNodes (view : CompactFunctionView) (node : NodeId) : List NodeId :=
  match structuredLoop view node with
  | some region => ((certifiedSimpleLoop view region).map (·.1)).toList
  | none =>
    match structuredSwitch view node with
    | some region => node :: switchTargets region
    | none =>
      match structuredIf view node, ifArms view node with
      | some _, some (t, f) => [node, t, f]
      | _, _ => [node]

/-- The blocks laid out by the whole view, once for each time. -/
def laidOut (view : CompactFunctionView) : List NodeId :=
  (printedHeads view).flatMap (renderedNodes view)

variable {view : CompactFunctionView} {node : NodeId} {region : ControlRegion}

theorem structuredLoop_spec (h : structuredLoop view node = some region) :
    region.header = node ∧ ∃ body latch, certifiedSimpleLoop view region = some (body, latch) := by
  have hp := find?_some h
  simp only [Bool.and_eq_true, beq_iff_eq, Option.isSome_iff_exists] at hp
  obtain ⟨hheader, ⟨body, latch⟩, hcert⟩ := hp
  exact ⟨hheader, body, latch, hcert⟩

theorem structuredSwitch_spec (h : structuredSwitch view node = some region) :
    region.header = node ∧ certifiedSwitchRegion view region = true := by
  have hp := find?_some h
  simpa only [Bool.and_eq_true, beq_iff_eq] using hp

theorem structuredIf_spec (h : structuredIf view node = some region) :
    region.header = node ∧ certifiedIfRegion view region = true := by
  have hp := find?_some h
  simpa only [Bool.and_eq_true, beq_iff_eq] using hp

theorem structuredIf_arms (h : structuredIf view node = some region) :
    ∃ t f, ifArms view node = some (t, f) := by
  obtain ⟨rfl, hcert⟩ := structuredIf_spec h
  unfold certifiedIfRegion at hcert
  cases harms : ifArms view region.header with
  | none => simp [harms] at hcert
  | some arms => exact ⟨arms.1, arms.2, rfl⟩

/-- **The four forms of a head.**  What a head prints, what it absorbs and which
blocks its lines contain, for a loop, a switch, a conditional and a plain
block. -/
theorem renderBlock_cases (view : CompactFunctionView) (node : NodeId) :
    (∃ region body latch, structuredLoop view node = some region ∧
      region.header = node ∧ certifiedSimpleLoop view region = some (body, latch) ∧
      renderBlock view node = (renderLoop view region body, [node, body, latch]) ∧
      renderedNodes view node = [body]) ∨
    (∃ region, structuredSwitch view node = some region ∧ structuredLoop view node = none ∧
      region.header = node ∧ certifiedSwitchRegion view region = true ∧
      renderBlock view node = (renderSwitch view region node, node :: switchTargets region) ∧
      renderedNodes view node = node :: switchTargets region) ∨
    (∃ region t f, structuredIf view node = some region ∧ structuredLoop view node = none ∧
      structuredSwitch view node = none ∧ region.header = node ∧
      certifiedIfRegion view region = true ∧ ifArms view node = some (t, f) ∧
      renderBlock view node = (renderIf view region node t f, [node, t, f]) ∧
      renderedNodes view node = [node, t, f]) ∨ (isPlain view node = true ∧
      renderBlock view node = (renderPlain view node, [node]) ∧
      renderedNodes view node = [node]) := by
  cases hloop : structuredLoop view node with
  | some region =>
    obtain ⟨rfl, body, latch, hcert⟩ := structuredLoop_spec hloop
    exact Or.inl ⟨region, body, latch, rfl, rfl, hcert,
      by simp [renderBlock, hloop, hcert], by simp [renderedNodes, hloop, hcert]⟩
  | none =>
    cases hswitch : structuredSwitch view node with
    | some region =>
      obtain ⟨hheader, hcert⟩ := structuredSwitch_spec hswitch
      exact Or.inr (Or.inl ⟨region, rfl, rfl, hheader, hcert,
        by simp [renderBlock, hloop, hswitch], by simp [renderedNodes, hloop, hswitch]⟩)
    | none =>
      cases hif : structuredIf view node with
      | some region =>
        obtain ⟨hheader, hcert⟩ := structuredIf_spec hif
        obtain ⟨t, f, harms⟩ := structuredIf_arms hif
        exact Or.inr (Or.inr (Or.inl ⟨region, t, f, rfl, rfl, rfl, hheader, hcert, harms,
          by simp [renderBlock, hloop, hswitch, hif, harms],
          by simp [renderedNodes, hloop, hswitch, hif, harms]⟩))
      | none =>
        exact Or.inr (Or.inr (Or.inr ⟨by simp [isPlain, hloop, hswitch, hif],
          by simp [renderBlock, hloop, hswitch, hif],
          by simp [renderedNodes, hloop, hswitch, hif]⟩))

/-- What `render_pseudo` marks as consumed with a head is its region. -/
theorem renderBlock_absorbs (view : CompactFunctionView) (node : NodeId) :
    (renderBlock view node).2 = absorbs view node := by
  unfold absorbs renderBlock
  cases hloop : structuredLoop view node with
  | some region =>
    obtain ⟨hheader, body, latch, hcert⟩ := structuredLoop_spec hloop
    simp [hcert, hheader]
  | none =>
    cases structuredSwitch view node with
    | some region => rfl
    | none =>
      cases structuredIf view node with
      | none => rfl
      | some region => cases ifArms view node <;> rfl

theorem mem_absorbs_self (view : CompactFunctionView) (node : NodeId) :
    node ∈ absorbs view node := by
  unfold absorbs
  split
  · exact mem_cons_self
  · split
    · exact mem_cons_self
    · split
      · exact mem_cons_self
      · exact mem_cons_self

/-- The lines that only `render_fallback_transfers` writes. -/
def PseudoLine.isTransfer : PseudoLine → Bool
  | .caseGoto _ _ _ | .defaultGoto _ | .ifGoto _ _ _ | .gotoLabel _ | .leaves _
  | .gotoOneOf _ _ => true
  | _ => false

theorem isTransfer_of_mem_renderFallbackTransfers
    {line : PseudoLine} (h : line ∈ renderFallbackTransfers view node) :
    line.isTransfer = true := by
  unfold renderFallbackTransfers at h
  split at h
  · simp at h
  split at h
  · simp only [mem_append, mem_map, mem_singleton] at h
    rcases h with ⟨item, _, rfl⟩ | rfl <;> rfl
  split at h
  · rw [mem_singleton.mp h]
    rfl
  rcases mem_append.mp h with hplain | hindirect
  · obtain ⟨t, _, rfl⟩ := mem_map.mp hplain
    unfold transferLine
    split <;> rfl
  split at hindirect
  · simp at hindirect
  · rw [mem_singleton.mp hindirect]
    rfl

variable (view : CompactFunctionView) {rest consumed : List NodeId}

theorem headsFrom_skip (h : node ∈ consumed) :
    headsFrom view (node :: rest) consumed = headsFrom view rest consumed := by
  simp [headsFrom, h]

theorem headsFrom_head (h : node ∉ consumed) : headsFrom view (node :: rest) consumed =
      node :: headsFrom view rest (absorbs view node ++ consumed) := by
  simp [headsFrom, h]

variable (order consumed : List NodeId)

/-- The walk over the block order prints exactly its heads, each with the lines
of its own. -/
theorem renderBlocks_eq : renderBlocks view order consumed = (headsFrom view order consumed).flatMap
        (fun node => .label node :: (renderBlock view node).1) := by
  induction order generalizing consumed with
  | nil => rfl
  | cons node rest ih =>
    by_cases hmem : node ∈ consumed
    · rw [headsFrom_skip view hmem, ← ih]
      simp [renderBlocks, hmem]
    · rw [headsFrom_head view hmem, flatMap_cons, ← ih]
      simp [renderBlocks, hmem, renderBlock_absorbs]

theorem pseudoLines_eq : pseudoLines view = .signature :: .openBrace ::
      (printedHeads view).flatMap (fun node => .label node :: (renderBlock view node).1) ++
        [.closeBrace] := by
  rw [pseudoLines, renderBlocks_eq]
  rfl

theorem not_mem_headsFrom_of_consumed {order consumed : List NodeId}
    (h : node ∈ consumed) : node ∉ headsFrom view order consumed := by
  induction order generalizing consumed with
  | nil => simp [headsFrom]
  | cons first rest ih =>
    by_cases hmem : first ∈ consumed
    · rw [headsFrom_skip view hmem]
      exact ih h
    rw [headsFrom_head view hmem]
    intro hhead
    rcases mem_cons.mp hhead with rfl | hrest
    · exact hmem h
    · exact ih (mem_append_right _ h) hrest

theorem headsFrom_nodup : (headsFrom view order consumed).Nodup := by
  induction order generalizing consumed with
  | nil => exact nodup_nil
  | cons node rest ih =>
    by_cases hmem : node ∈ consumed
    · rw [headsFrom_skip view hmem]
      exact ih consumed
    rw [headsFrom_head view hmem]
    have hself : node ∈ absorbs view node ++ consumed :=
      mem_append_left _ (mem_absorbs_self view node)
    exact nodup_cons.mpr ⟨not_mem_headsFrom_of_consumed view hself, ih _⟩

theorem printedHeads_nodup : (printedHeads view).Nodup :=
  headsFrom_nodup view _ _

theorem leadsAt_iff {i : Nat} : LeadsAt view i node ↔ view.control.blockOrder[i]? = some node ∧
    ∀ j, j < i → ∀ h, LeadsAt view j h → node ∉ absorbs view h := by
  rw [LeadsAt]

/-- The heads from a place on are the blocks that lead there, when what is
consumed is what the leading places before take. -/
theorem mem_headsFrom (k : Nat) {order : List NodeId} (horder : view.control.blockOrder.drop k = order)
    (hconsumed : ∀ x, x ∈ consumed ↔ ∃ j, j < k ∧ ∃ h, LeadsAt view j h ∧ x ∈ absorbs view h) :
    node ∈ headsFrom view order consumed ↔ ∃ i, k ≤ i ∧ LeadsAt view i node := by
  induction order generalizing k consumed with
  | nil =>
    have hend : ∀ i, k ≤ i → ¬ LeadsAt view i node := by
      intro i hi hleads
      have hlength := drop_eq_nil_iff.mp horder
      rw [leadsAt_iff, getElem?_eq_none (by omega)] at hleads
      cases hleads.1
    simpa [headsFrom] using hend
  | cons first rest ih =>
    have hfirst : view.control.blockOrder[k]? = some first := by
      have h := congrArg (fun l => l[0]?) horder
      simpa using h
    have hrest : view.control.blockOrder.drop (k + 1) = rest := by
      rw [← drop_drop, horder]
      rfl
    have hplace : ∀ h, LeadsAt view k h → h = first := by
      intro h hleads
      rw [leadsAt_iff, hfirst] at hleads
      exact (Option.some.inj hleads.1).symm
    -- the place itself leads exactly when nothing has consumed its block
    have hleads : LeadsAt view k first ↔ first ∉ consumed := by
      rw [leadsAt_iff, hconsumed]
      constructor
      · rintro ⟨-, hnone⟩ ⟨j, hj, h, hearlier, hmem⟩
        exact hnone j hj h hearlier hmem
      · exact fun hnone => ⟨hfirst, fun j hj h hearlier hmem => hnone ⟨j, hj, h, hearlier, hmem⟩⟩
    have hsplit : ∀ P : Nat → Prop, (∃ i, k ≤ i ∧ P i) ↔ P k ∨ ∃ i, k + 1 ≤ i ∧ P i := by
      intro P
      constructor
      · rintro ⟨i, hi, hp⟩
        rcases Nat.eq_or_lt_of_le hi with rfl | hlt
        · exact Or.inl hp
        · exact Or.inr ⟨i, hlt, hp⟩
      · rintro (hp | ⟨i, hi, hp⟩)
        · exact ⟨k, Nat.le_refl k, hp⟩
        · exact ⟨i, by omega, hp⟩
    rw [hsplit]
    by_cases hmem : first ∈ consumed
    · have hnot : ∀ h, ¬ LeadsAt view k h := by
        intro h hk
        rw [hplace h hk] at hk
        exact hleads.mp hk hmem
      rw [headsFrom_skip view hmem, ih _ (k + 1) hrest]
      · simp [hnot]
      · intro x
        rw [hconsumed]
        constructor
        · rintro ⟨j, hj, hx⟩
          exact ⟨j, by omega, hx⟩
        · rintro ⟨j, hj, h, hx⟩
          rcases Nat.eq_or_lt_of_le (Nat.le_of_lt_succ hj) with rfl | hlt
          · exact absurd hx.1 (hnot h)
          · exact ⟨j, hlt, h, hx⟩
    · have hk := hleads.mpr hmem
      rw [headsFrom_head view hmem, mem_cons, ih _ (k + 1) hrest]
      · refine or_congr ?_ Iff.rfl
        exact ⟨fun h => h ▸ hk, hplace node⟩
      · intro x
        rw [mem_append, hconsumed]
        constructor
        · rintro (hx | ⟨j, hj, hx⟩)
          · exact ⟨k, Nat.lt_succ_self k, first, hk, hx⟩
          · exact ⟨j, by omega, hx⟩
        · rintro ⟨j, hj, h, hx⟩
          rcases Nat.eq_or_lt_of_le (Nat.le_of_lt_succ hj) with rfl | hlt
          · exact Or.inl (hplace h hx.1 ▸ hx.2)
          · exact Or.inr ⟨j, hlt, h, hx⟩

/-- The blocks that lead are those that `render_pseudo` labels. -/
theorem mem_printedHeads : node ∈ printedHeads view ↔ Leads view node := by
  rw [printedHeads, mem_headsFrom view [] 0 drop_zero (by simp)]
  simp [Leads]

end Airece
