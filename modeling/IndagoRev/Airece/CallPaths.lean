import IndagoRev.Worklists
import IndagoRev.Airece.FlowSearch

/-!
# The paths that the search finds

A path through the graph is replayed with the calls that are open on it: a call opens
one, a return closes the last one and goes on behind it, and a tail call replaces the
function that runs.  `find_paths` returns such paths only, none goes through a node twice
at one call depth, and the search ends whatever its limits are.
-/

namespace Airece

open Worklists List

/-- Where a path stands: the node, the nodes whose calls are open, and the call depth. -/
structure PathState where
  node : NodeId
  openCalls : List NodeId
  depth : Nat

/-- An edge id is one of the edges that leave a node. -/
def Cfg.Leaves (cfg : Cfg) (node : NodeId) (id : EdgeId) (edge : CfgEdge) : Prop :=
  ∃ n, cfg.node node = some n ∧ n.edgeOffset ≤ id ∧ id < n.edgeOffset + n.edgeCount ∧
    cfg.edge id = some edge

/-- Where a call that was made on a node returns to. -/
def Cfg.returnsTo (cfg : Cfg) (caller : NodeId) : NodeId :=
  match cfg.node caller with
  | some n => continuationOf (cfg.nodeEdges n)
  | none => cfgInvalidId

/-- One step of a path, with `bound` for the call depth. -/
inductive CallStep (cfg : Cfg) (bound : Nat) : PathState → EdgeId → PathState → Prop
  | call {node id edge calls depth} : cfg.Leaves node id edge → edge.kind.isCall = true →
      depth < bound →
      CallStep cfg bound ⟨node, calls, depth⟩ id ⟨edge.dst, calls ++ [node], depth + 1⟩
  | tailcall {node id edge calls depth} : cfg.Leaves node id edge → edge.kind = .tailcall →
      depth < bound → CallStep cfg bound ⟨node, calls, depth⟩ id ⟨edge.dst, calls, depth + 1⟩
  | matchedReturn {node id edge calls caller depth} : cfg.Leaves node id edge →
      edge.kind = .ret →
      CallStep cfg bound ⟨node, calls ++ [caller], depth⟩ id
        ⟨cfg.returnsTo caller, calls, depth - 1⟩
  | openReturn {node id edge depth} : cfg.Leaves node id edge → edge.kind = .ret →
      CallStep cfg bound ⟨node, [], depth⟩ id ⟨edge.dst, [], depth⟩
  | along {node id edge calls depth} : cfg.Leaves node id edge → edge.kind.isCall = false →
      edge.kind ≠ .tailcall → edge.kind ≠ .ret →
      CallStep cfg bound ⟨node, calls, depth⟩ id ⟨edge.dst, calls, depth⟩

/-- A walk from a node, with no call open at first. -/
inductive CallWalk (cfg : Cfg) (bound : Nat) (start : NodeId) :
    List PathState → List EdgeId → Prop
  | start : CallWalk cfg bound start [⟨start, [], 0⟩] []
  | step {states edges s s' id} : CallWalk cfg bound start (states ++ [s]) edges →
      CallStep cfg bound s id s' → CallWalk cfg bound start (states ++ [s] ++ [s']) (edges ++ [id])

variable {cfg : Cfg} {bound : Nat} {start : NodeId} {s s' : PathState} {id : EdgeId}
  {states : List PathState} {edges : List EdgeId}

/-- A walk has one more state than edges, and begins at its start. -/
theorem CallWalk.length_eq (h : CallWalk cfg bound start states edges) :
    states.length = edges.length + 1 := by
  induction h with
  | start => rfl
  | step _ _ ih => rw [length_append, ih, length_append]; rfl

theorem CallWalk.head?_eq (h : CallWalk cfg bound start states edges) :
    states.head? = some ⟨start, [], 0⟩ := by
  induction h with
  | start => rfl
  | step _ _ ih => rw [head?_append, ih]; rfl

/-- No more calls are open than the depth counts, and the depth stays within its bound. -/
theorem CallStep.nested (h : CallStep cfg bound s id s')
    (hs : s.openCalls.length ≤ s.depth ∧ s.depth ≤ bound) :
    s'.openCalls.length ≤ s'.depth ∧ s'.depth ≤ bound := by
  cases h with
  | call _ _ hdepth =>
    simp only [length_append, length_cons, length_nil] at hs ⊢
    omega
  | tailcall _ _ hdepth =>
    dsimp only at hs ⊢
    omega
  | matchedReturn =>
    simp only [length_append, length_cons, length_nil] at hs ⊢
    omega
  | openReturn | along => exact hs

theorem CallWalk.nested (h : CallWalk cfg bound start states edges) :
    ∀ s ∈ states, s.openCalls.length ≤ s.depth ∧ s.depth ≤ bound := by
  induction h with
  | start => simp
  | step hwalk hstep ih =>
    intro s hs
    rcases mem_append.mp hs with hs | hs
    · exact ih s hs
    · rw [mem_singleton.mp hs]
      exact hstep.nested (ih _ (by simp))

/-- What a path record says: a walk from the start to the goal that nests within the
bound, takes edges of the nodes it leaves, closes calls in their order, and is at no node
twice at one depth. -/
def ValidPath (cfg : Cfg) (bound : Nat) (start goal : NodeId) (path : PathRecord) : Prop :=
  ∃ states, CallWalk cfg bound start states path.edges ∧
    path.nodes = states.map PathState.node ∧
    path.nodes.head? = some start ∧ path.nodes.getLast? = some goal ∧
    path.nodes.length = path.edges.length + 1 ∧
    (states.map (fun s => (s.depth, s.node))).Nodup ∧
    ∀ s ∈ states, s.openCalls.length ≤ s.depth ∧ s.depth ≤ bound

/-- The number under which a state is kept in the history. -/
def PathState.key (cfg : Cfg) (s : PathState) : Nat := s.depth * cfg.nodes.length + s.node

/-- An item is the end of a walk. -/
structure SearchItem.Ends (cfg : Cfg) (bound : Nat) (start : NodeId) (item : SearchItem)
    (before : List PathState) (s : PathState) : Prop where
  walk : CallWalk cfg bound start (before ++ [s]) item.path.edges
  node : s.node = item.node
  calls : s.openCalls.map cfg.returnsTo = item.returnStack
  depth : s.depth = item.currentDepth
  nodes : item.path.nodes = (before ++ [s]).map PathState.node
  history : item.history = (before ++ [s]).map (PathState.key cfg)
  fresh : item.history.Nodup
  bounded : ∀ key ∈ item.history, key = start ∨ key < (bound + 1) * cfg.nodes.length

/-- An item stands for a walk. -/
def SearchItem.Valid (cfg : Cfg) (bound : Nat) (start : NodeId) (item : SearchItem) : Prop :=
  ∃ before s, item.Ends cfg bound start before s

section Steps

variable {o : SearchOptions} {item next : SearchItem} {before : List PathState}
  {n : CfgNode} {index : Nat} {edge : CfgEdge} {destination : NodeId}

theorem leaves_of_nodeEdges {node : NodeId} (hnode : cfg.node node = some n)
    (hedge : (cfg.nodeEdges n)[index]? = some edge) :
    cfg.Leaves node (n.edgeOffset + index) edge := by
  unfold Cfg.nodeEdges at hedge
  rw [getElem?_take] at hedge
  split at hedge
  · next hlt =>
    rw [getElem?_drop] at hedge
    exact ⟨n, hnode, Nat.le_add_right _ _, Nat.add_lt_add_left hlt _, hedge⟩
  · cases hedge

theorem returnsTo_eq {node : NodeId} (hnode : cfg.node node = some n) :
    cfg.returnsTo node = continuationOf (cfg.nodeEdges n) := by
  rw [Cfg.returnsTo, hnode]

/-- What crossing an edge makes of an item is a step of its walk. -/
theorem crossEdge_step (hends : item.Ends o.cfg o.options.functionDepth start before s)
    (hnode : o.cfg.node item.node = some n)
    (hleaves : o.cfg.Leaves item.node id edge) (hdeep : tooDeep o.options item edge = false)
    (hcross : crossEdge (continuationOf (o.cfg.nodeEdges n)) item edge = (next, destination)) :
    ∃ s', CallStep o.cfg o.options.functionDepth s id s' ∧ s'.node = destination ∧
      s'.openCalls.map o.cfg.returnsTo = next.returnStack ∧ s'.depth = next.currentDepth ∧
      next.history = item.history ∧ next.path.nodes = item.path.nodes ∧
      next.path.edges = item.path.edges := by
  obtain ⟨node, calls, depth⟩ := s
  obtain rfl : node = item.node := hends.node
  have hcalls : calls.map o.cfg.returnsTo = item.returnStack := hends.calls
  obtain rfl : depth = item.currentDepth := hends.depth
  have hbelow : edge.kind.isCall = true ∨ edge.kind = .tailcall →
      item.currentDepth < o.options.functionDepth := by
    intro hkind
    simp only [tooDeep, Bool.and_eq_false_iff, Bool.or_eq_false_iff, beq_eq_false_iff_ne,
      decide_eq_false_iff_not, Nat.not_le] at hdeep
    rcases hdeep with hdeep | hdeep
    · rcases hkind with hkind | hkind
      · rw [hdeep.1] at hkind
        cases hkind
      · exact absurd hkind hdeep.2
    · exact hdeep
  unfold crossEdge at hcross
  by_cases hcall : edge.kind.isCall = true
  · rw [if_pos hcall] at hcross
    cases hcross
    refine ⟨_, .call hleaves hcall (hbelow (.inl hcall)), rfl, ?_, rfl, rfl, rfl, rfl⟩
    rw [map_append, hcalls, map_singleton, returnsTo_eq hnode]
  rw [if_neg hcall] at hcross
  by_cases htail : edge.kind = .tailcall
  · rw [if_pos htail] at hcross
    cases hcross
    exact ⟨_, .tailcall hleaves htail (hbelow (.inr htail)), rfl, hcalls, rfl, rfl, rfl, rfl⟩
  rw [if_neg htail] at hcross
  by_cases hret : edge.kind = .ret
  · rw [if_pos hret] at hcross
    rcases eq_nil_or_concat' calls with rfl | ⟨outer, caller, rfl⟩
    · rw [map_nil] at hcalls
      rw [← hcalls] at hcross
      cases hcross
      exact ⟨_, .openReturn hleaves hret, rfl, hcalls, rfl, rfl, rfl, rfl⟩
    rw [map_append, map_singleton] at hcalls
    rw [← hcalls, getLast?_concat] at hcross
    cases hcross
    refine ⟨_, .matchedReturn hleaves hret, rfl, ?_, rfl, rfl, rfl, rfl⟩
    rw [dropLast_concat]
  · rw [if_neg hret] at hcross
    cases hcross
    exact ⟨_, .along hleaves (Bool.not_eq_true _ ▸ hcall) htail hret, rfl, hcalls, rfl, rfl,
      rfl, rfl⟩

/-- An item that is put into the queue stands for a walk with one more step. -/
theorem stepItem_valid (hvalid : item.Valid o.cfg o.options.functionDepth start)
    (hnode : o.cfg.node item.node = some n) (hleaves : o.cfg.Leaves item.node id edge)
    (hstep : stepItem o (continuationOf (o.cfg.nodeEdges n)) item id edge = some next) :
    next.Valid o.cfg o.options.functionDepth start ∧
      next.history.length = item.history.length + 1 := by
  obtain ⟨before, s, hends⟩ := hvalid
  unfold stepItem at hstep
  split at hstep
  · cases hstep
  next hdeep =>
  rcases hcross : crossEdge (continuationOf (o.cfg.nodeEdges n)) item edge with
    ⟨crossed, destination⟩
  rw [hcross] at hstep
  dsimp only at hstep
  split at hstep
  · cases hstep
  next hrange =>
  split at hstep
  · cases hstep
  next hfresh =>
  cases hstep
  obtain ⟨s', hstep, rfl, hcalls, hdepth, hhistory, hnodes, hedges⟩ :=
    crossEdge_step hends hnode hleaves (by simpa using hdeep) hcross
  have hnested := hstep.nested (hends.walk.nested s (by simp))
  rw [not_or, Nat.not_le] at hrange
  rw [hhistory] at hfresh
  have hkey : crossed.currentDepth * o.cfg.nodes.length + s'.node = s'.key o.cfg := by
    rw [PathState.key, hdepth]
  have hless : s'.key o.cfg < (o.options.functionDepth + 1) * o.cfg.nodes.length := by
    have hle := Nat.mul_le_mul_right o.cfg.nodes.length hnested.2
    rw [PathState.key, Nat.add_mul]
    omega
  rw [hkey] at hfresh
  refine ⟨⟨before ++ [s], s', ?_⟩, by simp [hhistory]⟩
  exact
    { walk := by
        simp only [hedges]
        exact hends.walk.step hstep
      node := rfl
      calls := hcalls
      depth := hdepth
      nodes := by simp [hnodes, hends.nodes]
      history := by simp [hhistory, hkey, hends.history]
      fresh := by
        simp only [hhistory, hkey]
        refine hends.fresh.append (nodup_singleton _) ?_
        intro k hk hk'
        rw [mem_singleton.mp hk'] at hk
        exact hfresh (contains_iff_mem.mpr hk)
      bounded := by
        intro k hk
        simp only [hhistory, hkey, mem_append, mem_singleton] at hk
        rcases hk with hk | rfl
        · exact hends.bounded k hk
        · exact .inr hless }

/-- What an item is replaced with stands for walks, each one step longer. -/
theorem expandItem_valid (hvalid : item.Valid o.cfg o.options.functionDepth start) :
    ∀ next ∈ expandItem o item, next.Valid o.cfg o.options.functionDepth start ∧
      next.history.length = item.history.length + 1 := by
  intro next hnext
  unfold expandItem at hnext
  split at hnext
  · cases hnext
  next n hnode =>
  obtain ⟨⟨edge, index⟩, hmem, hstep⟩ := mem_filterMap.mp hnext
  have hedge := mem_zipIdx_iff_getElem?.mp hmem
  exact stepItem_valid hvalid hnode (leaves_of_nodeEdges hnode hedge) hstep

theorem expandItem_length (o : SearchOptions) (item : SearchItem) :
    (expandItem o item).length ≤ o.cfg.edges.length := by
  unfold expandItem
  split
  · exact Nat.zero_le _
  · refine (length_filterMap_le _ _).trans ?_
    rw [length_zipIdx, Cfg.nodeEdges, length_take, length_drop]
    omega

/-- The path of an item at the goal is one that the search may return. -/
theorem SearchItem.Valid.path {goal : NodeId}
    (hvalid : item.Valid cfg bound start) (hgoal : item.node = goal) :
    ValidPath cfg bound start goal item.path := by
  obtain ⟨before, s, hends⟩ := hvalid
  refine ⟨before ++ [s], hends.walk, hends.nodes, ?_, ?_, ?_, ?_, hends.walk.nested⟩
  · rw [hends.nodes, head?_map, hends.walk.head?_eq]
    rfl
  · rw [hends.nodes, map_append, map_singleton, getLast?_concat, hends.node, hgoal]
  · rw [hends.nodes, length_map, hends.walk.length_eq]
  have hfresh := hends.fresh
  rw [hends.history] at hfresh
  refine List.Nodup.of_map (fun p : Nat × NodeId => p.1 * cfg.nodes.length + p.2) ?_
  rw [map_map]
  exact hfresh

theorem initial_valid (cfg : Cfg) (bound : Nat) (start : NodeId) : SearchItem.Valid cfg bound start
      { node := start, path := { nodes := [start] }, history := [start] } :=
  ⟨[], ⟨start, [], 0⟩,
    { walk := .start
      node := rfl
      calls := rfl
      depth := rfl
      nodes := rfl
      history := by simp [PathState.key]
      fresh := nodup_singleton _
      bounded := fun _ h => .inl (mem_singleton.mp h) }⟩

/-- How many more nodes a path can have. -/
def SearchItem.room (o : SearchOptions) (item : SearchItem) : Nat :=
  (o.options.functionDepth + 1) * o.cfg.nodes.length + 1 - item.history.length

theorem SearchItem.Valid.length_le (hvalid : item.Valid cfg bound start) :
    item.history.length ≤ (bound + 1) * cfg.nodes.length + 1 := by
  obtain ⟨before, s, hends⟩ := hvalid
  have hsub : item.history ⊆ start :: List.range ((bound + 1) * cfg.nodes.length) := by
    intro key hkey
    rcases hends.bounded key hkey with rfl | hlt
    · exact mem_cons_self
    · exact mem_cons_of_mem _ (mem_range.mpr hlt)
  simpa using (subperm_of_subset hends.fresh hsub).length_le

/-- Everything that the state of a search holds stands for a walk. -/
structure PathSearch.Valid (o : SearchOptions) (start : NodeId) (p : PathSearch) : Prop where
  queue : ∀ item ∈ p.queue, item.Valid o.cfg o.options.functionDepth start
  found : ∀ path ∈ p.found, ValidPath o.cfg o.options.functionDepth start o.goal path

variable {p p' : PathSearch}

/-- What is put into the queue has less room than the item that it comes from. -/
theorem expandItem_room (hvalid : item.Valid o.cfg o.options.functionDepth start) :
    ∀ next ∈ expandItem o item, next.room o < item.room o := by
  intro next hnext
  obtain ⟨hnextvalid, hlength⟩ := expandItem_valid hvalid next hnext
  have hle := hnextvalid.length_le
  unfold SearchItem.room
  omega

section Rounds

variable {q : List SearchItem} {found : List PathRecord} {taken taken' : Nat}
  {skipped skipped' : Bool} {r r' : DirectedFlowResult}

theorem PathSearch.Valid.expand
    (hvalid : PathSearch.Valid o start ⟨item :: q, found, taken, skipped, r⟩) :
    PathSearch.Valid o start ⟨q ++ expandItem o item, found, taken', skipped', r'⟩ where
  queue := by
    intro next hnext
    rcases mem_append.mp hnext with hnext | hnext
    · exact hvalid.queue next (mem_cons_of_mem _ hnext)
    · exact (expandItem_valid (hvalid.queue item mem_cons_self) next hnext).1
  found := hvalid.found

theorem PathSearch.Valid.reach
    (hvalid : PathSearch.Valid o start ⟨item :: q, found, taken, skipped, r⟩)
    (hgoal : item.node = o.goal) :
    PathSearch.Valid o start ⟨q, found ++ [item.path], taken', skipped', r'⟩ where
  queue := fun next hnext => hvalid.queue next (mem_cons_of_mem _ hnext)
  found := by
    intro path hpath
    rcases mem_append.mp hpath with hpath | hpath
    · exact hvalid.found path hpath
    · rw [mem_singleton.mp hpath]
      exact (hvalid.queue item mem_cons_self).path hgoal

end Rounds

/-- What is left to do for a queue. -/
def PathSearch.cost (o : SearchOptions) (p : PathSearch) : Nat :=
  total o.cfg.edges.length (SearchItem.room o) p.queue

/-- A round of the loop ends the search or goes on with less to do. -/
theorem searchLoop_round (hvalid : p.Valid o start) :
    (∃ p', p'.Valid o start ∧ ∀ fuel, searchLoop o (fuel + 1) p = some p') ∨
      ∃ next, next.Valid o start ∧ next.cost o < p.cost o ∧
        ∀ fuel, searchLoop o (fuel + 1) p = searchLoop o fuel next := by
  rcases p with ⟨_ | ⟨item, q⟩, found, taken, skipped, result⟩
  · exact .inl ⟨_, hvalid, fun _ => rfl⟩
  by_cases hstop : (o.watch.canceled result.polls ||
      expired o.options (o.watch.elapsed result.polls)) = true
  · refine .inl ⟨{ queue := item :: q, found := found, searchStates := taken
                   skipped := skipped, result := { result with polls := result.polls + 1 } },
      ⟨hvalid.queue, hvalid.found⟩, fun fuel => ?_⟩
    simp only [searchLoop, if_pos hstop]
  by_cases hlimit : o.options.maxStates ≠ 0 ∧ o.options.maxStates ≤ taken
  · refine .inl ⟨⟨item :: q, found, taken, skipped,
      if result.completion = .complete then
        { result with polls := result.polls + 1, completion := .limited }
      else { result with polls := result.polls + 1 }⟩, ⟨hvalid.queue, hvalid.found⟩,
      fun fuel => ?_⟩
    simp only [searchLoop, if_neg hstop, if_pos hlimit]
  by_cases hgoal : item.node = o.goal
  · by_cases hfull : o.pathLimit ≤ (found ++ [item.path]).length
    · refine .inl ⟨⟨q, found ++ [item.path], taken + 1, skipped,
        { result with polls := result.polls + 1 }⟩, hvalid.reach hgoal, fun fuel => ?_⟩
      simp only [searchLoop, if_neg hstop, if_neg hlimit, if_pos hgoal, if_pos hfull]
    refine .inr ⟨⟨q, found ++ [item.path], taken + 1, skipped,
      { result with polls := result.polls + 1 }⟩, hvalid.reach hgoal, total_tail item q,
      fun fuel => ?_⟩
    simp only [searchLoop, if_neg hstop, if_neg hlimit, if_pos hgoal, if_neg hfull]
  · refine .inr ⟨⟨q ++ expandItem o item, found, taken + 1, skipped || skipsEdge o item,
      { result with polls := result.polls + 1 }⟩, hvalid.expand, ?_, fun fuel => ?_⟩
    · exact total_expand (expandItem_length o item)
        (expandItem_room (hvalid.queue item mem_cons_self))
    · simp only [searchLoop, if_neg hstop, if_neg hlimit, if_neg hgoal]

/-- With fuel for all that is left to do the loop ends, and holds walks only. -/
theorem searchLoop_ends (hvalid : p.Valid o start) :
    ∃ p', p'.Valid o start ∧ ∀ fuel, p.cost o < fuel → searchLoop o fuel p = some p' := by
  induction hcost : p.cost o using Nat.strong_induction_on generalizing p with
  | _ cost ih =>
  subst hcost
  rcases searchLoop_round hvalid with ⟨p', hp', hends⟩ | ⟨next, hnext, hless, hgoes⟩
  · refine ⟨p', hp', fun fuel hfuel => ?_⟩
    obtain ⟨fuel, rfl⟩ := Nat.exists_eq_succ_of_ne_zero (Nat.ne_of_gt (Nat.zero_lt_of_lt hfuel))
    exact hends fuel
  obtain ⟨p', hp', hends⟩ := ih _ hless hnext rfl
  refine ⟨p', hp', fun fuel hfuel => ?_⟩
  obtain ⟨fuel, rfl⟩ := Nat.exists_eq_succ_of_ne_zero (Nat.ne_of_gt (Nat.zero_lt_of_lt hfuel))
  rw [hgoes fuel]
  exact hends fuel (by omega)

end Steps

/-- Whatever the graph and the limits are, the search for the paths from a start to a
goal ends, and it returns paths from the start to the goal that match calls and returns. -/
theorem findPaths_valid (o : SearchOptions) (start : NodeId) (r : DirectedFlowResult) :
    ∃ enough p, (∀ fuel, enough < fuel → findPaths o fuel start r = some p) ∧
      ∀ path ∈ p.found, ValidPath o.cfg o.options.functionDepth start o.goal path := by
  by_cases hnone : start = cfgInvalidId ∨ o.goal = cfgInvalidId ∨ o.cfg.nodes = []
  · exact ⟨0, _, fun fuel _ => if_pos hnone, nofun⟩
  let initial : PathSearch :=
    { queue := [{ node := start, path := { nodes := [start] }, history := [start] }]
      result := r }
  have hinitial : initial.Valid o start :=
    ⟨fun item hitem => mem_singleton.mp hitem ▸ initial_valid _ _ start, nofun⟩
  obtain ⟨p', hp', hends⟩ := searchLoop_ends hinitial
  refine ⟨initial.cost o, { p' with
    result :=
      { p'.result with
        deepestCall :=
          p'.found.foldl (fun deepest path => max deepest path.depth) p'.result.deepestCall } },
    fun fuel hfuel => ?_, hp'.found⟩
  rw [findPaths, if_neg hnone, hends fuel hfuel]
  rfl

end Airece
