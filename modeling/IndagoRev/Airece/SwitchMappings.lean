import IndagoRev.Airece.ControlAccounting

/-!
# What a complete switch mapping says

A mapping is complete when the number of candidates is that of the values between the bounds,
and every candidate is the start of a node of the view.  Its cases are then the values between
the bounds, each with the candidate at its place.  No edge of the switch block is asked for,
and no default.
-/

namespace Airece.ControlRecovery

open StdText List

variable {cfg : ControlCfg} {m : XairModule} {options : ControlOptions} {nodeSet : List NodeId}
  {analysis : Option FunctionAnalysis}

/-- The values of `int64_t`. -/
def IsInt64 (n : Int) : Prop := -2 ^ 63 ≤ n ∧ n < 2 ^ 63

variable (indirect : IndirectResolution)

/-- A resolution with bounds of `int64_t` and a count of `size_t`. -/
def IndirectResolution.Fits : Prop :=
  IsInt64 indirect.lowerBound ∧ IsInt64 indirect.upperBound ∧ indirect.candidates.length < 2 ^ 64

/-- The cases of a region are the values of a resolution, each with its candidate. -/
structure ExactMapping (cfg : ControlCfg) (nodeSet : List NodeId) (indirect : IndirectResolution)
    (region : ControlRegion) : Prop where
  exact : ∀ v, (∃ c ∈ region.switchCases, c.value = v) ↔
    indirect.lowerBound ≤ v ∧ v ≤ indirect.upperBound
  once : (region.switchCases.map ControlSwitchCase.value).Nodup
  selected : ∀ c ∈ region.switchCases,
    indirect.candidates[(c.value - indirect.lowerBound).toNat]? = some c.rawTarget ∧
    c.target = cfg.findNodeStart c.rawTarget ∧ c.target ∈ nodeSet
  represented : ∀ c ∈ region.switchCases, IsInt64 c.value
  span : (BitVec.ofInt 64 indirect.upperBound - BitVec.ofInt 64 indirect.lowerBound + 1).toNat =
    indirect.candidates.length
  default : indirect.hasDefault = true → region.switchDefaultRaw = indirect.defaultTarget ∧
    region.switchDefault = cfg.findNodeStart indirect.defaultTarget ∧ region.switchDefault ∈ nodeSet

/-- A complete mapping is that of a resolution of its header. -/
def FromSwitch (cfg : ControlCfg) (nodeSet : List NodeId) (region : ControlRegion) : Prop :=
  region.switchMappingComplete = true → ∃ indirect ∈ cfg.indirects,
    cfg.indirectSource indirect = some region.header ∧ ExactMapping cfg nodeSet indirect region

theorem mem_switchCasesOf {indirect : IndirectResolution} {c : ControlSwitchCase} :
    c ∈ switchCasesOf cfg indirect ↔ ∃ (i : Nat) (raw : Nat),
      indirect.candidates[i]? = some raw ∧ c = { value := indirect.lowerBound + (i : Int)
                                                 target := cfg.findNodeStart raw
                                                 rawTarget := raw } := by
  unfold switchCasesOf
  rw [mem_map]
  constructor
  · rintro ⟨⟨raw, i⟩, hmem, rfl⟩
    exact ⟨i, raw, mem_zipIdx_iff_getElem?.mp hmem, rfl⟩
  · rintro ⟨i, raw, hi, rfl⟩
    exact ⟨(raw, i), mem_zipIdx_iff_getElem?.mpr hi, rfl⟩

theorem nodup_switchCasesOf : ((switchCasesOf cfg indirect).map ControlSwitchCase.value).Nodup := by
  have hvalues : (switchCasesOf cfg indirect).map ControlSwitchCase.value =
      (List.range indirect.candidates.length).map
        (fun i : Nat => indirect.lowerBound + (i : Int)) := by
    unfold switchCasesOf
    rw [map_map, range_eq_range', ← zipIdx_map_snd 0 indirect.candidates,
      map_map]
    rfl
  rw [hvalues]
  apply List.Nodup.map _ nodup_range
  intro i j hij
  have hsum : indirect.lowerBound + (i : Int) = indirect.lowerBound + (j : Int) := hij
  omega

/-- The number of the values between two bounds, as it is computed. -/
theorem span_toNat {lower upper : Int} {count : Nat} (hcount : count < 2 ^ 64)
    (h : upper - lower + 1 = count) :
    (BitVec.ofInt 64 upper - BitVec.ofInt 64 lower + 1).toNat = count := by
  have hsum : BitVec.ofInt 64 upper - BitVec.ofInt 64 lower + 1 =
      BitVec.ofInt 64 (upper - lower + 1) := by
    rw [BitVec.sub_eq_add_neg, ← BitVec.ofInt_neg, ← BitVec.ofInt_add, ← Int.sub_eq_add_neg,
      BitVec.ofInt_add (upper - lower) 1]
    rfl
  rw [hsum, h, BitVec.ofInt_natCast, BitVec.toNat_ofNat, Nat.mod_eq_of_lt hcount]

theorem fromSwitch_switchRegion (hfits : ∀ indirect ∈ cfg.indirects, indirect.Fits) (node : NodeId) :
    FromSwitch cfg nodeSet (switchRegion cfg nodeSet analysis node) := by
  intro hcomplete
  unfold switchRegion at hcomplete ⊢
  cases hsource : cfg.switchSource nodeSet node with
  | none =>
    rw [hsource] at hcomplete
    cases hcomplete
  | some indirect =>
    rw [hsource] at hcomplete
    dsimp only at hcomplete ⊢
    have hmem : indirect ∈ cfg.indirects := mem_of_find?_eq_some hsource
    have hfound := find?_some hsource
    rw [Bool.and_eq_true, Bool.and_eq_true, beq_iff_eq] at hfound
    rw [Bool.and_eq_true, Bool.and_eq_true, Bool.and_eq_true] at hcomplete
    obtain ⟨⟨⟨hvalues, -⟩, htargets⟩, hdefault⟩ := hcomplete
    unfold valuesComplete at hvalues
    rw [Bool.and_eq_true, Bool.and_eq_true, Bool.and_eq_true, decide_eq_true_eq,
      decide_eq_true_eq] at hvalues
    obtain ⟨⟨-, hbounded⟩, hcount⟩ := hvalues
    obtain ⟨hlower, hupper, hsize⟩ := hfits indirect hmem
    have hin : ∀ c ∈ switchCasesOf cfg indirect,
        indirect.lowerBound ≤ c.value ∧ c.value ≤ indirect.upperBound := by
      intro c hc
      obtain ⟨i, raw, hi, rfl⟩ := mem_switchCasesOf.mp hc
      obtain ⟨hlt, -⟩ := List.getElem?_eq_some_iff.mp hi
      dsimp only
      omega
    refine ⟨indirect, hmem, hfound.1.1, ?_, nodup_switchCasesOf indirect, ?_, ?_,
      span_toNat hsize hcount, ?_⟩
    · intro v
      constructor
      · rintro ⟨c, hc, rfl⟩
        exact hin c hc
      rintro ⟨hle, hge⟩
      have hlt : (v - indirect.lowerBound).toNat < indirect.candidates.length := by omega
      refine ⟨_, mem_switchCasesOf.mpr ⟨_, _, getElem?_eq_getElem hlt, rfl⟩, ?_⟩
      dsimp only
      omega
    · intro c hc
      have htarget := all_eq_true.mp htargets c hc
      obtain ⟨i, raw, hi, rfl⟩ := mem_switchCasesOf.mp hc
      refine ⟨?_, rfl, contains_iff_mem.mp htarget⟩
      have hindex : (indirect.lowerBound + (i : Int) - indirect.lowerBound).toNat = i := by omega
      dsimp only
      rw [hindex]
      exact hi
    · intro c hc
      obtain ⟨hle, hge⟩ := hin c hc
      exact ⟨Int.le_trans hlower.1 hle, Int.lt_of_le_of_lt hge hupper.2⟩
    · intro hhas
      rw [hhas] at hdefault ⊢
      exact ⟨rfl, rfl, contains_iff_mem.mp hdefault⟩

variable {region : ControlRegion}

theorem fromSwitch_addRegion {view : ControlView}
    (hview : ∀ r ∈ view.regions, FromSwitch cfg nodeSet r) (hregion : FromSwitch cfg nodeSet region) :
    ∀ r ∈ (addRegion options view region).regions, FromSwitch cfg nodeSet r := by
  unfold addRegion
  split
  · exact hview
  intro r hr
  rcases mem_append.mp hr with hr | hr
  · exact hview r hr
  rw [mem_singleton.mp hr]
  intro hcomplete
  obtain ⟨indirect, hmem, hsource, hexact⟩ := hregion hcomplete
  exact ⟨indirect, hmem, hsource, hexact.exact, hexact.once, hexact.selected,
    hexact.represented, hexact.span, hexact.default⟩

theorem fromSwitch_plain (h : region.switchMappingComplete = false) :
    FromSwitch cfg nodeSet region := by
  intro hcomplete
  rw [h] at hcomplete
  cases hcomplete

/-- The passes over the edges of a loop leave its mapping alone. -/
theorem fromSwitch_loopRegion (loop : LoopRecord) :
    FromSwitch cfg nodeSet (loopRegion cfg m nodeSet analysis loop) := by
  refine fromSwitch_plain ?_
  show (latchCondition cfg nodeSet analysis loop _).1.switchMappingComplete = false
  refine List.foldlRecOn (motive := fun s : ControlRegion × Bool =>
    s.1.switchMappingComplete = false) _ _ ?_ ?_
  · refine List.foldlRecOn (motive := fun s : ControlRegion × Bool =>
      s.1.switchMappingComplete = false) _ _ rfl ?_
    intro s hs e _
    split
    · exact hs
    · exact hs
  · intro s hs back _
    refine List.foldlRecOn (motive := fun s : ControlRegion × Bool =>
      s.1.switchMappingComplete = false) _ _ hs ?_
    intro s hs e _
    split
    · exact hs
    · exact hs

theorem fromSwitch_branchRegion (node : NodeId) (first second : EdgeRecord) :
    FromSwitch cfg nodeSet (branchRegion cfg m analysis node first second) := by
  refine fromSwitch_plain ?_
  unfold branchRegion
  dsimp only
  split
  · rfl
  · split
    · rfl
    · rfl

theorem fromSwitch_branchAt (hfits : ∀ indirect ∈ cfg.indirects, indirect.Fits) {s : Building}
    (node : NodeId) (hs : ∀ r ∈ s.view.regions, FromSwitch cfg nodeSet r) :
    ∀ r ∈ (branchAt cfg m options nodeSet analysis s node).view.regions, FromSwitch cfg nodeSet r := by
  unfold branchAt
  dsimp only
  split
  · exact hs
  split
  · exact fromSwitch_addRegion hs (fromSwitch_switchRegion hfits node)
  split
  · split
    · exact hs
    · exact fromSwitch_addRegion hs (fromSwitch_branchRegion node _ _)
  · exact hs

theorem fromSwitch_sequencePass (n : Nat) {s : Building} {nodes : List NodeId}
    (hs : ∀ r ∈ s.view.regions, FromSwitch cfg nodeSet r) :
    ∀ r ∈ (sequencePass cfg options nodeSet analysis n s nodes).view.regions,
      FromSwitch cfg nodeSet r := by
  induction n generalizing s nodes with
  | zero => exact hs
  | succ n ih =>
    cases nodes with
    | nil => exact hs
    | cons node rest =>
      unfold sequencePass
      dsimp only
      split
      · exact ih hs
      · exact ih (fromSwitch_addRegion hs (fromSwitch_plain rfl))

theorem fromSwitch_regionView (hfits : ∀ indirect ∈ cfg.indirects, indirect.Fits)
    {start : ControlView} (hstart : start.regions = []) :
    ∀ r ∈ (regionView cfg m options nodeSet analysis start).regions, FromSwitch cfg nodeSet r := by
  have hfirst : ∀ r ∈ start.regions, FromSwitch cfg nodeSet r := by
    rw [hstart]
    exact forall_mem_nil _
  have hloops : ∀ r ∈ (loopPass cfg m options nodeSet analysis { view := start }).view.regions,
      FromSwitch cfg nodeSet r :=
    List.foldlRecOn (motive := fun s : Building => ∀ r ∈ s.view.regions, FromSwitch cfg nodeSet r)
      _ _ hfirst (fun s hs loop _ => fromSwitch_addRegion hs (fromSwitch_loopRegion loop))
  have hbranches := List.foldlRecOn (motive := fun s : Building =>
      ∀ r ∈ s.view.regions, FromSwitch cfg nodeSet r)
    start.blockOrder (branchAt cfg m options nodeSet analysis) hloops
    (fun s hs node _ => fromSwitch_branchAt hfits node hs)
  have hsequences := @fromSwitch_sequencePass cfg options nodeSet analysis
    start.blockOrder.length _ start.blockOrder hbranches
  unfold regionView
  dsimp only
  refine List.foldlRecOn (motive := fun v : ControlView =>
    ∀ r ∈ v.regions, FromSwitch cfg nodeSet r) _ _ ?_ ?_
  · split
    · exact fromSwitch_addRegion hsequences (fromSwitch_plain rfl)
    · exact hsequences
  intro view hview node _
  unfold leftoverAt
  split
  · exact hview
  · exact fromSwitch_addRegion hview (fromSwitch_plain rfl)

/-- A complete mapping of a view is exact: its cases are the values between the bounds of a
resolution of its block, each once and with the candidate at its place. -/
theorem complete_mapping_exact {cfg : ControlCfg} {m : XairModule} {options : ControlOptions}
    {function : FunctionId} {f : ControlFunction} (hf : cfg.functions[function]? = some f)
    (hfits : ∀ indirect ∈ cfg.indirects, indirect.Fits) :
    ∀ region ∈ (build cfg m options function).regions, FromSwitch cfg (cfg.nodeSet f) region := by
  unfold build
  rw [hf]
  dsimp only
  split
  · exact forall_mem_nil _
  · rw [(transferred_foldl _ _).regions]
    exact fromSwitch_regionView hfits rfl

/-- A jump through a table of one entry, which is no edge of its block: the value 5 goes to the
block at 16. -/
def tableCfg : ControlCfg where
  nodes := [{ start := 0, edgeOffset := 0, edgeCount := 1 },
    { start := 16, edgeOffset := 1, edgeCount := 0 }]
  edges := [{ kind := .indirectJump, src := 0, dst := cfgInvalidId }]
  functions := [{ entry := 0, nodes := [0] }]
  indirects := [{
    isSwitch := true, edge := 0, candidates := [16], lowerBound := 5, upperBound := 5 }]
  findNodeStart := fun address => if address = 16 then 1 else cfgInvalidId

def tableModule : XairModule where
  values := []
  ops := []
  blocks := []
  opcodeName := fun _ => []

/-- The mapping of the table is complete, without an edge for its case and without a default. -/
theorem table_without_edge :
    ∃ region ∈ (build tableCfg tableModule {} 0).regions, region.switchMappingComplete = true ∧
      (∃ c ∈ region.switchCases, ∀ e ∈ tableCfg.nodeEdges region.header, e.edge.dst ≠ c.target) ∧
      region.switchDefault = cfgInvalidId := by
  decide

/-- A checked jump through three entries: -1 and 1 go to the block at 16, 0 to that at 32, and
every other value to the default at 48. -/
def checkedCfg : ControlCfg where
  nodes := [{ start := 0, edgeOffset := 0, edgeCount := 3 },
    { start := 16, edgeOffset := 3, edgeCount := 0 }, { start := 32, edgeOffset := 3, edgeCount := 0 },
    { start := 48, edgeOffset := 3, edgeCount := 0 }]
  edges := [{ kind := .indirectJump, src := 0, dst := 1 }, { kind := .indirectJump, src := 0, dst := 2 },
    { kind := .cbranchFalse, src := 0, dst := 3 }]
  functions := [{ entry := 0, nodes := [0, 1, 2, 3] }]
  indirects := [{
    isSwitch := true, edge := 0, candidates := [16, 32, 16], lowerBound := -1, upperBound := 1
    hasDefault := true, defaultTarget := 48 }]
  findNodeStart := fun address => if address % 16 = 0 then address / 16 else cfgInvalidId

/-- The mapping of the table is that of its resolution. -/
theorem table_mapping_exact :
    ∃ region ∈ (build checkedCfg tableModule {} 0).regions, region.switchMappingComplete = true ∧
      region.switchCases.map (fun c => (c.value, c.target)) = [(-1, 1), (0, 2), (1, 1)] ∧
      region.switchDefault = 3 ∧
      FromSwitch checkedCfg (checkedCfg.nodeSet { entry := 0, nodes := [0, 1, 2, 3] }) region := by
  have hcomplete : ∃ region ∈ (build checkedCfg tableModule {} 0).regions,
      region.switchMappingComplete = true ∧
      region.switchCases.map (fun c => (c.value, c.target)) = [(-1, 1), (0, 2), (1, 1)] ∧
      region.switchDefault = 3 := by decide
  obtain ⟨region, hregion, hcomplete, hcases, hdefault⟩ := hcomplete
  refine ⟨region, hregion, hcomplete, hcases, hdefault, complete_mapping_exact rfl ?_ region hregion⟩
  intro indirect hmem
  rw [mem_singleton.mp hmem]
  exact ⟨⟨by decide, by decide⟩, ⟨by decide, by decide⟩, by decide⟩

end Airece.ControlRecovery
