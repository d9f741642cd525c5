import IndagoRev.Airece.ControlRecovery

/-!
# Nothing is lost in a control view

Every block of a function is in its order, every edge is a transfer or counted as left
out, and every block that the passes have covered is in a region, as long as no region
was left out.  What the passes cover they also put into a region, so whatever is left
over at the end gets one of its own.
-/

namespace Airece.ControlRecovery

open List

variable {cfg : ControlCfg} {m : XairModule} {options : ControlOptions} {nodeSet : List NodeId}
  {analysis : Option FunctionAnalysis}

theorem nodup_nodeSet (cfg : ControlCfg) (f : ControlFunction) : (cfg.nodeSet f).Nodup := by
  have hfold : ∀ (indirects : List IndirectResolution) (nodes : List NodeId), nodes.Nodup →
      (indirects.foldl cfg.addTargets nodes).Nodup := by
    intro indirects
    induction indirects with
    | nil => exact fun _ h => h
    | cons indirect indirects ih =>
      intro nodes h
      refine ih _ ?_
      unfold ControlCfg.addTargets
      split
      · split
        · split
          · exact List.Nodup.union _ h
          · exact h
        · exact h
      · exact h
  exact hfold _ _ (nodup_dedup _)

variable {f : ControlFunction} {n : NodeId}

/-- A resolved switch among some nodes has a node for a target. -/
def ControlCfg.Reaches (cfg : ControlCfg) (nodes : List NodeId) (indirect : IndirectResolution)
    (n : NodeId) : Prop :=
  indirect.isSwitch = true ∧ (∃ src ∈ nodes,
    (cfg.edges[indirect.edge]?).map ControlEdge.src = some src) ∧ n ∈ cfg.switchTargets indirect

theorem mem_addTargets {nodes : List NodeId} {indirect : IndirectResolution} :
    n ∈ cfg.addTargets nodes indirect ↔ n ∈ nodes ∨ cfg.Reaches nodes indirect n := by
  unfold ControlCfg.addTargets ControlCfg.Reaches
  by_cases hswitch : indirect.isSwitch = true
  · rw [if_pos hswitch]
    cases (cfg.edges[indirect.edge]?).map ControlEdge.src with
    | none => simp
    | some src =>
      by_cases hsrc : src ∈ nodes
      · simp [hswitch, hsrc, or_comm]
      · simp [hsrc]
  · simp [hswitch]

/-- **Nodes of a view.**  They are the nodes of the function, and the targets of the resolved
switches that come to stand among them. -/
theorem mem_nodeSet_iff : n ∈ cfg.nodeSet f ↔ n ∈ f.nodes ∨
    ∃ before indirect after, cfg.indirects = before ++ indirect :: after ∧
      cfg.Reaches (before.foldl cfg.addTargets f.nodes.dedup) indirect n := by
  have hfold : ∀ (indirects : List IndirectResolution) (nodes : List NodeId),
      n ∈ indirects.foldl cfg.addTargets nodes ↔ n ∈ nodes ∨
        ∃ before indirect after, indirects = before ++ indirect :: after ∧
          cfg.Reaches (before.foldl cfg.addTargets nodes) indirect n := by
    intro indirects
    induction indirects with
    | nil => simp
    | cons indirect indirects ih =>
      intro nodes
      rw [foldl_cons, ih, mem_addTargets, or_assoc]
      refine or_congr_right ⟨?_, ?_⟩
      · rintro (hfirst | ⟨before, later, after, rfl, hlater⟩)
        · exact ⟨[], indirect, indirects, rfl, hfirst⟩
        · exact ⟨indirect :: before, later, after, rfl, hlater⟩
      · rintro ⟨before, later, after, hsplit, hlater⟩
        cases before with
        | nil =>
          obtain ⟨rfl, rfl⟩ := List.cons.inj hsplit
          exact Or.inl hlater
        | cons first before =>
          obtain ⟨rfl, rfl⟩ := List.cons.inj hsplit
          exact Or.inr ⟨before, later, after, rfl, hlater⟩
  unfold ControlCfg.nodeSet
  rw [hfold, mem_dedup]

theorem mem_nodeSet (h : n ∈ f.nodes) : n ∈ cfg.nodeSet f := mem_nodeSet_iff.mpr (Or.inl h)

theorem mem_remaining : n ∈ cfg.remaining nodeSet ↔ n ∈ nodeSet :=
  mem_insertionSort _

theorem nodup_remaining (h : nodeSet.Nodup) : (cfg.remaining nodeSet).Nodup :=
  (perm_insertionSort _ _).nodup_iff.mpr h

/-- The number of edge slots of a node. -/
def ControlCfg.edgeCount (cfg : ControlCfg) (n : NodeId) : Nat :=
  ((cfg.nodes[n]?).map ControlNode.edgeCount).getD 0

/-- **Edge slots.**  Where the slots of the nodes lie in the table, the edges that are passed on
are as many as the nodes have slots. -/
theorem length_transferEdges (hinside : ∀ n ∈ nodeSet, ∀ node ∈ cfg.nodes[n]?,
      node.edgeOffset + node.edgeCount ≤ cfg.edges.length) :
    (cfg.transferEdges nodeSet).length = (nodeSet.map cfg.edgeCount).sum := by
  have hnode : ∀ n ∈ nodeSet, (cfg.nodeEdges n).length = cfg.edgeCount n := by
    intro n hn
    unfold ControlCfg.nodeEdges ControlCfg.edgeCount
    cases hnode : cfg.nodes[n]? with
    | none => rfl
    | some node =>
      have hslots : ∀ i ∈ List.range node.edgeCount,
          ((cfg.edges[node.edgeOffset + i]?).map fun e =>
            (⟨node.edgeOffset + i, e⟩ : EdgeRecord)).isSome = true := by
        intro i hi
        have hless : node.edgeOffset + i < cfg.edges.length :=
          Nat.lt_of_lt_of_le (Nat.add_lt_add_left (mem_range.mp hi) _) (hinside n hn node hnode)
        rw [getElem?_eq_getElem hless]
        rfl
      dsimp only [Option.map_some, Option.getD_some]
      rw [length_filterMap_eq_countP, countP_eq_length.mpr hslots, length_range]
  unfold ControlCfg.transferEdges
  rw [length_flatMap]
  have hperm : (cfg.remaining nodeSet).Perm nodeSet := perm_insertionSort _ _
  rw [(hperm.map fun n => (cfg.nodeEdges n).length).sum_eq]
  exact congrArg List.sum (map_congr_left hnode)

/-- Nodes that are missing in an order are put behind it, each once. -/
theorem foldl_append_missing (nodes order : List NodeId) (h : order.Nodup) :
    (nodes.foldl (fun order node => if node ∈ order then order else order ++ [node]) order).Nodup ∧
      ∀ n, n ∈ nodes.foldl (fun order node => if node ∈ order then order else order ++ [node])
        order ↔ n ∈ order ∨ n ∈ nodes := by
  induction nodes generalizing order with
  | nil => exact ⟨h, fun n => by simp⟩
  | cons node nodes ih =>
    rw [foldl_cons]
    by_cases hnode : node ∈ order
    · rw [if_pos hnode]
      obtain ⟨hnodup, hmem⟩ := ih order h
      refine ⟨hnodup, fun n => ?_⟩
      rw [hmem, mem_cons]
      constructor
      · rintro (hn | hn)
        · exact .inl hn
        · exact .inr (.inr hn)
      rintro (hn | rfl | hn)
      · exact .inl hn
      · exact .inl hnode
      · exact .inr hn
    · rw [if_neg hnode]
      have hnext : (order ++ [node]).Nodup := by
        rw [nodup_append]
        refine ⟨h, nodup_singleton node, ?_⟩
        intro a ha b hb hab
        rw [mem_singleton.mp hb] at hab
        exact hnode (hab ▸ ha)
      obtain ⟨hnodup, hmem⟩ := ih _ hnext
      refine ⟨hnodup, fun n => ?_⟩
      rw [hmem, mem_append, mem_singleton, mem_cons, or_assoc]

theorem blockOrder_spec (hrpo : ∀ a ∈ analysis, a.reversePostorder.Nodup) :
    (cfg.blockOrder nodeSet analysis).Nodup ∧
      ∀ n, n ∈ cfg.blockOrder nodeSet analysis ↔ n ∈ nodeSet := by
  have hordered : (((analysis.map FunctionAnalysis.reversePostorder).getD []).filter
      (· ∈ nodeSet)).Nodup := by
    cases analysis with
    | none => exact nodup_nil
    | some a => exact (hrpo a rfl).filter _
  obtain ⟨hnodup, hmem⟩ := foldl_append_missing (cfg.remaining nodeSet) _ hordered
  refine ⟨hnodup, fun n => ?_⟩
  unfold ControlCfg.blockOrder
  rw [hmem, mem_remaining]
  constructor
  · rintro (h | h)
    · simpa using (mem_filter.mp h).2
    · exact h
  · exact Or.inr

/-- A region lies in an order. -/
def Within (order : List NodeId) (region : ControlRegion) : Prop :=
  region.header ∈ order ∧ ∀ n ∈ region.nodes, n ∈ order

/-- What holds of a view while its regions are made: they lie in the order, the blocks that
were covered are in them unless one was left out, and what was left out is counted. -/
structure Accounts (start : ControlView) (covered : List NodeId) (view : ControlView) : Prop where
  blockOrder : view.blockOrder = start.blockOrder
  entry : view.entry = start.entry
  irreducible : view.irreducible = start.irreducible
  transfers : view.transfers = start.transfers
  omittedTransfers : view.omittedTransfers = start.omittedTransfers
  within : ∀ r ∈ view.regions, Within start.blockOrder r
  covers : view.omittedRegions = 0 → ∀ n ∈ covered, ∃ r ∈ view.regions, n ∈ r.nodes
  truncated : view.truncated = true ↔ view.omittedRegions ≠ 0

theorem Accounts.addRegion {start view : ControlView} {covered : List NodeId}
    (h : Accounts start covered view) {region : ControlRegion}
    (hregion : Within start.blockOrder region) :
    Accounts start (covered ++ region.nodes) (addRegion options view region) := by
  unfold ControlRecovery.addRegion
  split
  · exact
      { h with
        covers := fun hnone => absurd hnone (Nat.succ_ne_zero _)
        truncated := ⟨fun _ => Nat.succ_ne_zero _, fun _ => rfl⟩ }
  refine { h with within := ?_, covers := ?_ }
  · intro r hr
    rcases mem_append.mp hr with hr | hr
    · exact h.within r hr
    · rw [mem_singleton.mp hr]
      exact hregion
  · intro hnone n hn
    rcases mem_append.mp hn with hn | hn
    · obtain ⟨r, hr, hin⟩ := h.covers hnone n hn
      exact ⟨r, mem_append_left _ hr, hin⟩
    · exact ⟨_, mem_append_right _ (mem_singleton.mpr rfl), hn⟩

variable {start view : ControlView}

theorem Accounts.mono {covered fewer : List NodeId}
    (h : Accounts start covered view) (hfewer : ∀ n ∈ fewer, n ∈ covered) :
    Accounts start fewer view :=
  { h with covers := fun hnone n hn => h.covers hnone n (hfewer n hn) }

/-- A view in the making accounts for what it covers. -/
def Building.Sound (start : ControlView) (s : Building) : Prop := Accounts start s.covered s.view

theorem Building.Sound.add {start : ControlView} {s : Building} (h : s.Sound start)
    {region : ControlRegion} (hregion : Within start.blockOrder region) :
    (s.add options region).Sound start :=
  Accounts.addRegion h hregion

variable (loop : LoopRecord) (region : ControlRegion)

/-- What the edges of the header and of the latches say leaves header and nodes alone. -/
theorem headerExit_spec : (headerExit cfg nodeSet loop region).1.header = region.header ∧
      (headerExit cfg nodeSet loop region).1.nodes = region.nodes := by
  refine List.foldlRecOn (motive := fun s : ControlRegion × Bool =>
    s.1.header = region.header ∧ s.1.nodes = region.nodes) _ _ ⟨rfl, rfl⟩ ?_
  intro s hs e _
  split <;> exact hs

theorem latchCondition_spec :
    (latchCondition cfg nodeSet analysis loop region).1.header = region.header ∧
      (latchCondition cfg nodeSet analysis loop region).1.nodes = region.nodes := by
  -- over the latches, and for each of them over its edges
  refine List.foldlRecOn (motive := fun s : ControlRegion × Bool =>
    s.1.header = region.header ∧ s.1.nodes = region.nodes) _ _ ⟨rfl, rfl⟩ ?_
  intro s hs back _
  refine List.foldlRecOn (motive := fun s : ControlRegion × Bool =>
    s.1.header = region.header ∧ s.1.nodes = region.nodes) _ _ hs ?_
  intro s hs e _
  split <;> exact hs

theorem loopRegion_spec : (loopRegion cfg m nodeSet analysis loop).header = loop.header ∧
      ∀ n, n ∈ (loopRegion cfg m nodeSet analysis loop).nodes ↔ n ∈ loop.members := by
  let base : ControlRegion :=
    { header := loop.header, conditionNode := loop.header
      nodes := (loop.members.dedup).insertionSort (· ≤ ·) }
  obtain ⟨hexit, hbase⟩ : (headerExit cfg nodeSet loop base).1.header = base.header ∧
      (headerExit cfg nodeSet loop base).1.nodes = base.nodes := headerExit_spec loop base
  obtain ⟨hheader, hlatch⟩ : (loopRegion cfg m nodeSet analysis loop).header =
        (headerExit cfg nodeSet loop base).1.header ∧
      (loopRegion cfg m nodeSet analysis loop).nodes =
        (headerExit cfg nodeSet loop base).1.nodes := latchCondition_spec loop _
  refine ⟨hheader.trans hexit, fun n => ?_⟩
  have hnodes : (loopRegion cfg m nodeSet analysis loop).nodes =
      (loop.members.dedup).insertionSort (· ≤ ·) := hlatch.trans hbase
  rw [hnodes, mem_insertionSort, mem_dedup]

variable {start : ControlView} {s : Building}

theorem sound_loopPass (h : s.Sound start)
    (hloops : ∀ loop ∈ loopsOf analysis, loop.header ∈ start.blockOrder ∧
      ∀ n ∈ loop.members, n ∈ start.blockOrder) :
    (loopPass cfg m options nodeSet analysis s).Sound start := by
  unfold loopPass
  generalize loopsOf analysis = loops at hloops
  induction loops generalizing s with
  | nil => exact h
  | cons loop loops ih =>
    refine ih ?_ (fun other hother => hloops other (by simp [hother]))
    obtain ⟨hheader, hmembers⟩ := hloops loop (by simp)
    have hspec : (loopRegion cfg m nodeSet analysis loop).header = loop.header ∧
        ∀ n, n ∈ (loopRegion cfg m nodeSet analysis loop).nodes ↔ n ∈ loop.members :=
      loopRegion_spec loop
    exact h.add ⟨hspec.1 ▸ hheader, fun n hn => hmembers n ((hspec.2 n).mp hn)⟩

theorem switchRegion_spec (node : NodeId) : (switchRegion cfg nodeSet analysis node).header = node ∧
      (switchRegion cfg nodeSet analysis node).nodes = [node] := by
  unfold switchRegion
  dsimp only
  split <;> exact ⟨rfl, rfl⟩

theorem branchRegion_spec (node : NodeId) (first second : EdgeRecord) :
    (branchRegion cfg m analysis node first second).header = node ∧
      (branchRegion cfg m analysis node first second).nodes = [node] := by
  unfold branchRegion
  dsimp only
  split
  · exact ⟨rfl, rfl⟩
  · split <;> exact ⟨rfl, rfl⟩

variable {order : List NodeId}

theorem within_of_single {region : ControlRegion} {node : NodeId}
    (hnode : node ∈ order) (h : region.header = node ∧ region.nodes = [node]) :
    Within order region := by
  refine ⟨h.1 ▸ hnode, fun n hn => ?_⟩
  rw [h.2, mem_singleton] at hn
  exact hn ▸ hnode

theorem sound_branchAt (h : s.Sound start) {node : NodeId} (hnode : node ∈ start.blockOrder) :
    (branchAt cfg m options nodeSet analysis s node).Sound start := by
  unfold branchAt
  dsimp only
  split
  · exact h
  split
  · exact h.add (within_of_single hnode (switchRegion_spec node))
  split
  · split
    · exact h
    · exact h.add (within_of_single hnode (branchRegion_spec node _ _))
  · exact h

variable {nodes : List NodeId}

theorem sound_branchPass (h : s.Sound start) (hnodes : ∀ n ∈ nodes, n ∈ start.blockOrder) :
    (nodes.foldl (branchAt cfg m options nodeSet analysis) s).Sound start := by
  induction nodes generalizing s with
  | nil => exact h
  | cons node nodes ih =>
    exact ih (sound_branchAt h (hnodes node (by simp)))
      (fun n hn => hnodes n (by simp [hn]))

theorem sequenceFrom_append (covered : List NodeId) (current : NodeId) (rest : List NodeId) :
    (sequenceFrom cfg nodeSet analysis covered current rest).1 ++
      (sequenceFrom cfg nodeSet analysis covered current rest).2 = rest := by
  induction rest generalizing current with
  | nil => rfl
  | cons next rest ih =>
    unfold sequenceFrom
    split
    · exact congrArg (next :: ·) (ih next)
    · rfl

theorem sound_sequencePass (n : Nat) (h : s.Sound start)
    (hnodes : ∀ n ∈ nodes, n ∈ start.blockOrder) :
    (sequencePass cfg options nodeSet analysis n s nodes).Sound start := by
  induction n generalizing s nodes with
  | zero => exact h
  | succ n ih =>
    cases nodes with
    | nil => exact h
    | cons node rest =>
      have hsplit : (sequenceFrom cfg nodeSet analysis s.covered node rest).1 ++
          (sequenceFrom cfg nodeSet analysis s.covered node rest).2 = rest :=
        sequenceFrom_append s.covered node rest
      have hrest : ∀ n ∈ (sequenceFrom cfg nodeSet analysis s.covered node rest).2,
          n ∈ start.blockOrder := by
        intro n hn
        exact hnodes n (mem_cons_of_mem _ (hsplit ▸ mem_append_right _ hn))
      unfold sequencePass
      dsimp only
      split
      · exact ih h hrest
      refine ih (h.add ⟨hnodes node (by simp), ?_⟩) hrest
      intro n hn
      rcases mem_cons.mp hn with rfl | hn
      · exact hnodes _ (by simp)
      · exact hnodes n (mem_cons_of_mem _ (hsplit ▸ mem_append_left _ hn))

theorem accounts_leftovers {covered : List NodeId} (h : Accounts start covered view)
    (hnodes : ∀ n ∈ nodes, n ∈ start.blockOrder) :
    Accounts start (covered ++ nodes) (nodes.foldl (leftoverAt options covered) view) := by
  have hfold : ∀ (nodes done : List NodeId) (view : ControlView),
      (∀ n ∈ nodes, n ∈ start.blockOrder) → Accounts start (covered ++ done) view →
      Accounts start (covered ++ (done ++ nodes))
        (nodes.foldl (leftoverAt options covered) view) := by
    intro nodes
    induction nodes with
    | nil =>
      intro done view _ h
      rwa [append_nil]
    | cons node nodes ih =>
      intro done view hnodes h
      have hnext : Accounts start (covered ++ (done ++ [node]))
          (leftoverAt options covered view node) := by
        unfold leftoverAt
        split
        · rename_i hcovered
          refine h.mono fun n hn => ?_
          rw [← append_assoc, mem_append, mem_singleton] at hn
          rcases hn with hn | rfl
          · exact hn
          · exact mem_append_left _ hcovered
        · have hadded := @Accounts.addRegion options _ _ _ h
            { kind := .sequence, header := node, nodes := [node] }
            (within_of_single (hnodes node (by simp)) ⟨rfl, rfl⟩)
          rw [append_assoc] at hadded
          exact hadded
      have hrest := ih (done ++ [node]) _ (fun n hn => hnodes n (by simp [hn])) hnext
      rwa [append_assoc, singleton_append] at hrest
  have hall := hfold nodes [] view hnodes (by rwa [append_nil])
  rwa [nil_append] at hall

theorem accounts_regionView (hstart : start.regions = [])
    (homitted : start.omittedRegions = 0) (htruncated : start.truncated = false)
    (hentry : start.entry ∈ start.blockOrder)
    (hloops : ∀ loop ∈ loopsOf analysis, loop.header ∈ start.blockOrder ∧
      ∀ n ∈ loop.members, n ∈ start.blockOrder) :
    Accounts start start.blockOrder (regionView cfg m options nodeSet analysis start) := by
  have hfirst : Building.Sound start { view := start } :=
    { blockOrder := rfl, entry := rfl, irreducible := rfl, transfers := rfl
      omittedTransfers := rfl
      within := fun r hr => by rw [hstart] at hr; cases hr
      covers := fun _ n hn => by cases hn
      truncated := by rw [htruncated, homitted]; simp }
  have hloop : (loopPass cfg m options nodeSet analysis { view := start }).Sound start :=
    sound_loopPass hfirst hloops
  have hbranch : (start.blockOrder.foldl (branchAt cfg m options nodeSet analysis)
      (loopPass cfg m options nodeSet analysis { view := start })).Sound start :=
    sound_branchPass hloop (fun _ h => h)
  have hsequence : (sequencePass cfg options nodeSet analysis start.blockOrder.length
      (start.blockOrder.foldl (branchAt cfg m options nodeSet analysis)
        (loopPass cfg m options nodeSet analysis { view := start }))
      start.blockOrder).Sound start :=
    sound_sequencePass start.blockOrder.length hbranch (fun _ h => h)
  unfold regionView
  dsimp only
  refine (accounts_leftovers ?_ (fun _ h => h)).mono (fun n hn => mem_append_right _ hn)
  split
  · have hwhole := @Accounts.addRegion options _ _ _ hsequence
      { kind := .irreducible, header := start.entry, nodes := start.blockOrder }
      ⟨hentry, fun _ h => h⟩
    rw [← hsequence.entry] at hwhole
    have hmono := hwhole.mono (fun n hn => mem_append_left _ hn)
    exact { hmono with }
  · exact hsequence

/-- The flag of a view says whether something was left out. -/
def Flagged (view : ControlView) : Prop :=
  view.truncated = true ↔ view.omittedRegions ≠ 0 ∨ view.omittedTransfers ≠ 0

/-- Some edges have become transfers in their order, or were counted. -/
structure Transferred (view : ControlView) (ids : List EdgeId) (result : ControlView) : Prop where
  blockOrder : result.blockOrder = view.blockOrder
  regions : result.regions = view.regions
  omittedRegions : result.omittedRegions = view.omittedRegions
  counted : result.transfers.length + result.omittedTransfers =
    view.transfers.length + view.omittedTransfers + ids.length
  edges : (result.transfers.map ControlTransfer.edge).Sublist
    (view.transfers.map ControlTransfer.edge ++ ids)
  flagged : Flagged view → Flagged result

theorem Transferred.trans {view middle result : ControlView} {ids more : List EdgeId}
    (h : Transferred view ids middle) (h' : Transferred middle more result) :
    Transferred view (ids ++ more) result where
  blockOrder := h'.blockOrder.trans h.blockOrder
  regions := h'.regions.trans h.regions
  omittedRegions := h'.omittedRegions.trans h.omittedRegions
  counted := by
    rw [h'.counted, h.counted, length_append]
    omega
  edges := by
    rw [← append_assoc]
    exact h'.edges.trans (h.edges.append_right more)
  flagged := fun hview => h'.flagged (h.flagged hview)

theorem transferred_transferAt (view : ControlView) (e : EdgeRecord) :
    Transferred view [e.id] (transferAt options analysis view e) := by
  unfold transferAt
  split
  · exact
      { blockOrder := rfl
        regions := rfl
        omittedRegions := rfl
        counted := (Nat.add_assoc _ _ _).symm
        edges := sublist_append_left _ _
        flagged := fun _ => ⟨fun _ => .inr (Nat.succ_ne_zero _), fun _ => rfl⟩ }
  · exact
      { blockOrder := rfl
        regions := rfl
        omittedRegions := rfl
        counted := by
          rw [length_append, length_singleton, length_singleton]
          dsimp only
          omega
        edges := by
          rw [map_append]
          exact List.Sublist.refl _
        flagged := fun h => h }

theorem transferred_foldl (edges : List EdgeRecord) (view : ControlView) :
    Transferred view (edges.map EdgeRecord.id)
      (edges.foldl (transferAt options analysis) view) := by
  induction edges generalizing view with
  | nil =>
    exact
      { blockOrder := rfl
        regions := rfl
        omittedRegions := rfl
        counted := rfl
        edges := by
          rw [map_nil, append_nil]
          exact List.Sublist.refl _
        flagged := fun h => h }
  | cons e edges ih =>
    exact (transferred_transferAt view e).trans (ih (transferAt options analysis view e))

/-- No edge is in the slots of two nodes. -/
def SlotsApart (cfg : ControlCfg) : Prop :=
  ∀ n n', ∀ e ∈ cfg.nodeEdges n, ∀ e' ∈ cfg.nodeEdges n', e.id = e'.id → n = n'

theorem nodup_nodeEdges (n : NodeId) : ((cfg.nodeEdges n).map EdgeRecord.id).Nodup := by
  unfold ControlCfg.nodeEdges
  split
  · exact nodup_nil
  rename_i node _
  rw [map_filterMap]
  refine List.Nodup.filterMap ?_ nodup_range
  intro i j id hi hj
  simp only [Option.mem_def, Option.map_eq_some_iff] at hi hj
  obtain ⟨_, ⟨_, _, rfl⟩, rfl⟩ := hi
  obtain ⟨_, ⟨_, _, rfl⟩, heq⟩ := hj
  exact (Nat.add_left_cancel heq).symm

theorem nodup_transferEdges (hslots : SlotsApart cfg) (h : nodeSet.Nodup) :
    ((cfg.transferEdges nodeSet).map EdgeRecord.id).Nodup := by
  unfold ControlCfg.transferEdges
  rw [map_flatMap, nodup_flatMap]
  refine ⟨fun n _ => nodup_nodeEdges n, ?_⟩
  refine (nodup_remaining h).imp ?_
  intro n n' hne id hid hid'
  obtain ⟨e, he, rfl⟩ := mem_map.mp hid
  obtain ⟨e', he', heq⟩ := mem_map.mp hid'
  exact hne (hslots n n' e he e' he' heq.symm)

/-- The nodes of a function and of its switches; a function that is missing has none. -/
def functionNodes (cfg : ControlCfg) (function : FunctionId) : List NodeId :=
  match cfg.functions[function]? with
  | some f => if f.nodes.isEmpty then [] else cfg.nodeSet f
  | none => []

/-- What XAIR says about the analysis of a function: its order has no duplicates, and its
loops are made of nodes of the function. -/
structure AnalysisFits (cfg : ControlCfg) (function : FunctionId) : Prop where
  order : ∀ a ∈ cfg.analysis function, a.reversePostorder.Nodup
  loops : ∀ a ∈ cfg.analysis function, ∀ f ∈ cfg.functions[function]?, ∀ loop ∈ a.loops,
    loop.header ∈ f.nodes ∧ ∀ n ∈ loop.members, n ∈ f.nodes

theorem entryNode_mem (hne : order ≠ [])
    (h : ∀ n ∈ f.nodes, n ∈ order) : cfg.entryNode f order ∈ order := by
  unfold ControlCfg.entryNode
  split
  · rename_i id hid
    have hmem := mem_of_getLast? hid
    exact h id (mem_of_mem_filter hmem)
  · cases order with
    | nil => exact absurd rfl hne
    | cons node order => exact mem_cons_self

theorem accounts_function {cfg : ControlCfg} (m : XairModule) (options : ControlOptions)
    {function : FunctionId} (hfits : AnalysisFits cfg function)
    (hf : cfg.functions[function]? = some f) (hempty : ¬f.nodes.isEmpty = true) :
    Accounts (startView cfg (cfg.nodeSet f) (cfg.analysis function) function f)
      (cfg.blockOrder (cfg.nodeSet f) (cfg.analysis function))
      (regionView cfg m options (cfg.nodeSet f) (cfg.analysis function)
        (startView cfg (cfg.nodeSet f) (cfg.analysis function) function f)) := by
  obtain ⟨-, hmem⟩ : (cfg.blockOrder (cfg.nodeSet f) (cfg.analysis function)).Nodup ∧
      ∀ n, n ∈ cfg.blockOrder (cfg.nodeSet f) (cfg.analysis function) ↔
        n ∈ cfg.nodeSet f := blockOrder_spec hfits.order
  have hnodes : ∀ n ∈ f.nodes, n ∈ cfg.blockOrder (cfg.nodeSet f) (cfg.analysis function) :=
    fun n hn => (hmem n).mpr (mem_nodeSet hn)
  have hne : cfg.blockOrder (cfg.nodeSet f) (cfg.analysis function) ≠ [] := by
    obtain ⟨n, hn⟩ := exists_mem_of_ne_nil f.nodes (by simpa using hempty)
    exact ne_nil_of_mem (hnodes n hn)
  have hloops : ∀ loop ∈ loopsOf (cfg.analysis function),
      loop.header ∈ cfg.blockOrder (cfg.nodeSet f) (cfg.analysis function) ∧
        ∀ n ∈ loop.members, n ∈ cfg.blockOrder (cfg.nodeSet f) (cfg.analysis function) := by
    intro loop hloop
    unfold loopsOf at hloop
    cases ha : cfg.analysis function with
    | none =>
      rw [ha] at hloop
      cases hloop
    | some a =>
      rw [ha] at hloop
      obtain ⟨hheader, hmembers⟩ := hfits.loops a ha f hf loop hloop
      rw [← ha]
      exact ⟨hnodes _ hheader, fun n hn => hnodes n (hmembers n hn)⟩
  exact accounts_regionView rfl rfl rfl (entryNode_mem hne hnodes) hloops

theorem nodup_blockOrder (cfg : ControlCfg) (m : XairModule) (options : ControlOptions)
    (function : FunctionId) (hfits : AnalysisFits cfg function) :
    (build cfg m options function).blockOrder.Nodup := by
  unfold build
  cases hf : cfg.functions[function]? with
  | none => exact nodup_nil
  | some f =>
    dsimp only
    by_cases hempty : f.nodes.isEmpty = true
    · rw [if_pos hempty]
      exact nodup_nil
    rw [if_neg hempty, (@transferred_foldl options (cfg.analysis function)
        (cfg.transferEdges (cfg.nodeSet f))
        (regionView cfg m options (cfg.nodeSet f) (cfg.analysis function)
          (startView cfg (cfg.nodeSet f) (cfg.analysis function) function f))).blockOrder,
      (accounts_function m options hfits hf hempty).blockOrder]
    exact (blockOrder_spec hfits.order).1

/-- The accounts of a control view: every node of the function and its switches is in the
order once (`mem_nodeSet_iff`); every edge slot of these nodes (`length_transferEdges`) is a
transfer or counted, and none is two transfers; regions lie in the order and cover it unless one was left out; and the view
says that it is truncated exactly if something was left out. -/
theorem control_view_accounts (cfg : ControlCfg) (m : XairModule) (options : ControlOptions)
    (function : FunctionId) (hfits : AnalysisFits cfg function) (hslots : SlotsApart cfg) :
    let view := build cfg m options function
    view.blockOrder.Nodup ∧
      (∀ n, n ∈ view.blockOrder ↔ n ∈ functionNodes cfg function) ∧
      view.transfers.length + view.omittedTransfers =
        (cfg.transferEdges (functionNodes cfg function)).length ∧
      (view.transfers.map ControlTransfer.edge).Nodup ∧
      (∀ t ∈ view.transfers, ∃ e ∈ cfg.transferEdges (functionNodes cfg function), e.id = t.edge) ∧
      (view.omittedRegions = 0 → ∀ n ∈ view.blockOrder, ∃ r ∈ view.regions, n ∈ r.nodes) ∧
      (∀ r ∈ view.regions, r.header ∈ view.blockOrder ∧ ∀ n ∈ r.nodes, n ∈ view.blockOrder) ∧
      (view.truncated = true ↔ view.omittedRegions ≠ 0 ∨ view.omittedTransfers ≠ 0) := by
  dsimp only
  unfold build functionNodes
  cases hf : cfg.functions[function]? with
  | none => simp [ControlCfg.transferEdges, ControlCfg.remaining]
  | some f =>
    dsimp only
    by_cases hempty : f.nodes.isEmpty = true
    · rw [if_pos hempty, if_pos hempty]
      simp [ControlCfg.transferEdges, ControlCfg.remaining]
    rw [if_neg hempty, if_neg hempty]
    obtain ⟨hnodup, hmem⟩ : (cfg.blockOrder (cfg.nodeSet f) (cfg.analysis function)).Nodup ∧
        ∀ n, n ∈ cfg.blockOrder (cfg.nodeSet f) (cfg.analysis function) ↔
          n ∈ cfg.nodeSet f := blockOrder_spec hfits.order
    have haccounts := accounts_function m options hfits hf hempty
    have htransferred := @transferred_foldl options (cfg.analysis function)
      (cfg.transferEdges (cfg.nodeSet f))
      (regionView cfg m options (cfg.nodeSet f) (cfg.analysis function)
        (startView cfg (cfg.nodeSet f) (cfg.analysis function) function f))
    have hflagged : Flagged (regionView cfg m options (cfg.nodeSet f) (cfg.analysis function)
        (startView cfg (cfg.nodeSet f) (cfg.analysis function) function f)) := by
      unfold Flagged
      rw [haccounts.truncated, haccounts.omittedTransfers]
      simp [startView]
    have horder := htransferred.blockOrder.trans haccounts.blockOrder
    have hsub := htransferred.edges
    rw [haccounts.transfers] at hsub
    have hedges := nodup_transferEdges hslots (nodup_nodeSet cfg f)
    refine ⟨?_, ?_, ?_, hsub.nodup hedges, ?_, ?_, ?_, htransferred.flagged hflagged⟩
    · rw [horder]
      exact hnodup
    · rw [horder]
      exact hmem
    · rw [htransferred.counted, haccounts.transfers, haccounts.omittedTransfers, length_map]
      exact Nat.zero_add _
    · intro t ht
      exact mem_map.mp (hsub.mem (mem_map_of_mem ht))
    · intro hnone n hn
      rw [htransferred.regions]
      rw [htransferred.omittedRegions] at hnone
      rw [horder] at hn
      exact haccounts.covers hnone n hn
    · intro r hr
      rw [htransferred.regions] at hr
      rw [horder]
      exact haccounts.within r hr

/-- A loop of one block, with a block before it and one behind it. -/
def loopCfg : ControlCfg where
  nodes := [{ start := 16, irBlock := 0, edgeOffset := 0, edgeCount := 1 },
    { start := 32, irBlock := 1, edgeOffset := 1, edgeCount := 2 },
    { start := 48, irBlock := 2, edgeOffset := 3, edgeCount := 0 }]
  edges := [{ kind := .fallthrough, src := 0, dst := 1 },
    { kind := .cbranchTrue, src := 1, dst := 1, condition := 6 },
    { kind := .cbranchFalse, src := 1, dst := 2, condition := 6 }]
  functions := [{ entry := 16, nodes := [0, 1, 2] }]
  analysis := fun _ => some {
    reversePostorder := [0, 1, 2]
    backEdges := [(1, 1)]
    loops := [{ header := 1, members := [1] }] }

/-- The code of the loop: `v0` goes on as `2 * v0 + 1`, as long as that is below 10. -/
def loopModule : XairModule where
  values :=
    [{ type := { kind := .int, bits := 64 } },
     { type := { kind := .int, bits := 64 }, definition := some 0 },
     { type := { kind := .int, bits := 64 }, definition := some 1 },
     { type := { kind := .int, bits := 64 }, definition := some 2 },
     { type := { kind := .int, bits := 64 }, definition := some 3 },
     { type := { kind := .int, bits := 64 }, definition := some 4 },
     { type := { kind := .int, bits := 1 }, definition := some 5 },
     { type := { kind := .int, bits := 64 }, definition := some 6 }]
  ops :=
    [{ opcode := .constU64, results := [1], immediateLow := 2 },
     { opcode := .mul, inputs := [0, 1], results := [2] },
     { opcode := .constU64, results := [3], immediateLow := 1 },
     { opcode := .add, inputs := [2, 3], results := [4] },
     { opcode := .constU64, results := [5], immediateLow := 10 },
     { opcode := .ult, inputs := [4, 5], results := [6] },
     { opcode := .constU64, results := [7], immediateLow := 0 }]
  blocks :=
    [{ ops := [6], terminator := { kind := .jump, trueTarget := 1, trueArgs := [7] } },
     { ops := [0, 1, 2, 3, 4, 5], params := [0]
       terminator := {
         kind := .cbranch, condition := 6, trueTarget := 1, trueArgs := [4], falseTarget := 2 } },
     { terminator := { kind := .ret } }]
  opcodeName := fun _ => []

theorem loopCfg_nodeEdges {e : EdgeRecord} (h : e ∈ loopCfg.nodeEdges n) :
    n < 3 ∧ n = if e.id = 0 then 0 else 1 := by
  by_cases hn : n < 3
  · have hall : ∀ n < 3, ∀ e ∈ loopCfg.nodeEdges n, n = if e.id = 0 then 0 else 1 := by decide
    exact ⟨hn, hall n hn e h⟩
  · have hnone : loopCfg.nodes[n]? = none := getElem?_eq_none (Nat.le_of_not_lt hn)
    simp [ControlCfg.nodeEdges, hnone] at h

/-- The accounts of the loop. -/
theorem loop_accounts : (build loopCfg loopModule {} 0).transfers.length +
      (build loopCfg loopModule {} 0).omittedTransfers =
        (loopCfg.transferEdges (functionNodes loopCfg 0)).length := by
  refine (control_view_accounts loopCfg loopModule {} 0 ⟨?_, ?_⟩ ?_).2.2.1
  · intro a ha
    cases ha
    decide
  · intro a ha f hf loop hloop
    cases ha
    cases hf
    rw [mem_singleton.mp hloop]
    exact ⟨by decide, by decide⟩
  · intro n n' e he e' he' hid
    rw [(loopCfg_nodeEdges he).2, (loopCfg_nodeEdges he').2, hid]

end Airece.ControlRecovery
