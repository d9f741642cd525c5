import IndagoRev.Workbench.Pagination
import IndagoRev.Workbench.GraphSteps

/-!
# Neighborhoods are sound, and complete where locations lead

An answer is within its bytes, names no record twice, and shows only what a chain of
relations leads to.  One that is not partial shows all that is reached when an end with a
location is entered by the location alone.  An entity that a relation names by its id, at
a location that is not the entity's own, is not entered.
-/

namespace Indago

open StdText JsonValues JsonValues.Json Cursors Neighborhoods Transactions List

variable {store : ListedStore} {project : Text} {req : GraphRequest}

theorem mem_relationsOf {id anchor : Text} {t : ListedRow} :
    t ∈ relationsOf store project req id anchor ↔
      t ∈ store.index .relations ∧ store.isHead t = true ∧ t.project = project ∧
        asks req.artifact t.artifact = true ∧
        ∃ side ∈ req.entries, matchesSide id anchor t side = true := by
  have hcopies : ∀ u : ListedRow, t ∈ headCopies store u ↔ t = u ∧ store.isHead u = true := by
    intro u
    unfold headCopies ListedStore.isHead
    rw [mem_map, contains_iff_mem]
    constructor
    · rintro ⟨h, hh, rfl⟩
      obtain ⟨hmem, heq⟩ := mem_filter.mp hh
      exact ⟨rfl, of_decide_eq_true heq ▸ hmem⟩
    · rintro ⟨rfl, hmem⟩
      exact ⟨_, mem_filter.mpr ⟨hmem, decide_eq_true rfl⟩, rfl⟩
  unfold relationsOf
  rw [(perm_insertionSort _ _).mem_iff, mem_filter, mem_flatMap]
  simp only [hcopies, Bool.and_eq_true, decide_eq_true_eq, any_eq_true]
  constructor
  · rintro ⟨⟨u, hu, rfl, hhead⟩, ⟨⟨hproject, hartifact⟩, hentry⟩⟩
    exact ⟨hu, hhead, hproject, hartifact, hentry⟩
  · rintro ⟨ht, hhead, hproject, hartifact, hentry⟩
    exact ⟨⟨t, ht, rfl, hhead⟩, ⟨⟨hproject, hartifact⟩, hentry⟩⟩

theorem follows_iff {r t : ListedRow} : Follows store project req r t ↔
    t ∈ relationsOf store project req r.id r.anchor ∧ OfKinds req t := by
  rw [mem_relationsOf]
  constructor
  · intro h
    exact ⟨⟨h.row, h.current, h.project, h.artifact, h.entry⟩, h.kind⟩
  · rintro ⟨⟨hrow, hcurrent, hproject, hartifact, hentry⟩, hkind⟩
    exact ⟨hrow, hcurrent, hproject, hartifact, hkind, hentry⟩

/-- The nodes and relations of a state, with their distances. -/
def GraphState.search (st : GraphState) : Search ListedRow ListedRow where
  met := st.nodes.map (fun n => (n.row, n.distance))
  todo := st.todo.map (fun n => (n.row, n.distance))
  edges := st.edges.map (fun e => (e.row, e.distance))

variable {st st' : GraphState} {n : MetNode}

theorem expandNode_scans (hwritten : store.Written) (h : st.Sound store req)
    (hn : FromRow store n) (hok : expandNode store project req n st = .ok st') :
    ∃ rows, Scanned store project req n.distance rows st st' ∧
      (∀ t ∈ rows, OfKinds req t → Follows store project req n.row t) ∧
      (st'.isPartial = false → ∀ t, Follows store project req n.row t → t ∈ rows) := by
  unfold expandNode at hok
  rw [except_bind_ok] at hok
  obtain ⟨anchor, hanchor, hok⟩ := hok
  have hlocation : n.record.get? "location".toList = n.row.record.get? "location".toList :=
    indexShown_get? hn.record (by decide) (by decide) (by decide) (by decide) (by decide)
  have hsame : anchor = n.row.anchor :=
    anchorOf_eq (hwritten.entities n.row hn.row) hlocation hanchor
  rw [hsame, hn.id] at hok
  have hrows : ∀ t ∈ (relationsOf store project req n.row.id n.row.anchor).take (req.limit + 1),
      t ∈ relationsOf store project req n.row.id n.row.anchor := fun t ht => mem_of_mem_take ht
  obtain ⟨hscanned, hlimit⟩ := scan_scans hwritten
    (fun t ht => (mem_relationsOf.mp (hrows t ht)).1) h hok
  refine ⟨_, hscanned, fun t ht hkinds => follows_iff.mpr ⟨hrows t ht, hkinds⟩, ?_⟩
  intro hcut t hfollows
  have hmem := (follows_iff.mp hfollows).1
  have hshort : (relationsOf store project req n.row.id n.row.anchor).length ≤ req.limit + 1 := by
    rcases hlimit hcut with hnil | hle
    · have hempty := congrArg List.length hnil
      rw [length_take, length_nil] at hempty
      omega
    · rw [length_take] at hle
      omega
  rw [take_of_length_le hshort]
  exact hmem

theorem map_distance {new : List MetNode} {d : Nat} (h : ∀ n ∈ new, n.distance = d) :
    new.map (fun n => (n.row, n.distance)) = (new.map MetNode.row).map (fun r => (r, d)) := by
  rw [map_map]
  refine map_congr_left ?_
  intro n hn
  rw [h n hn]
  rfl

theorem map_edgeDistance {more : List MetEdge} {d : Nat} (h : ∀ e ∈ more, e.distance = d) :
    more.map (fun e => (e.row, e.distance)) = (more.map MetEdge.row).map (fun t => (t, d)) := by
  rw [map_map]
  refine map_congr_left ?_
  intro e he
  rw [h e he]
  rfl

variable {rest : List MetNode}

/-- A node that is expanded and cuts nothing is expanded in the sense of a search. -/
theorem expands_of_scanned {rows : List ListedRow} (htodo : st.todo = n :: rest)
    (hscanned : Scanned store project req n.distance rows { st with todo := rest } st')
    (hall : ∀ t, Follows store project req n.row t → t ∈ rows) (hcut : st'.isPartial = false) :
    Expands (Follows store project req) (Finds store project req) req.depth n.row n.distance
      st.search st'.search := by
  obtain ⟨-, ⟨new, hnodes, hqueue, hnew⟩, ⟨more, hedges, hmore, hmet⟩, -, hedge⟩ := hscanned
  refine ⟨⟨new.map MetNode.row, ?_, ?_⟩, ⟨more.map MetEdge.row, ?_, ?_⟩, ?_⟩
  · show st'.nodes.map _ = _
    rw [hnodes, map_append, map_distance (fun m hm => (hnew m hm).1)]
    rfl
  · show (n.row, n.distance) :: st'.todo.map _ = st.todo.map _ ++ _
    rw [hqueue, htodo, map_append, map_distance (fun m hm => (hnew m hm).1)]
    rfl
  · show st'.edges.map _ = _
    rw [hedges, map_append, map_edgeDistance (fun e he => (hmore e he).1)]
    rfl
  · intro t ht r hfinds
    obtain ⟨e, he, rfl⟩ := mem_map.mp ht
    obtain ⟨m, hm, rfl⟩ := hmet hcut e he r hfinds
    exact ⟨m.distance, mem_map.mpr ⟨m, hm, rfl⟩⟩
  · intro _ t hfollows
    obtain ⟨e, he, rfl⟩ := hedge hcut t (hall t hfollows) hfollows.kind
    exact ⟨e.distance, mem_map.mpr ⟨e, he, rfl⟩⟩

/-- What the search keeps, with so many rounds left. -/
structure Searched (store : ListedStore) (project : Text) (req : GraphRequest) (rounds : Nat)
    (st : GraphState) : Prop where
  sound : st.Sound store req
  todo : ∀ n ∈ st.todo, n ∈ st.nodes
  within : ∀ n ∈ st.nodes, n.distance ≤ req.depth ∧
    Within (IsSeed store project req) (Follows store project req) (Finds store project req)
      n.distance n.row
  touched : ∀ e ∈ st.edges, Touched (IsSeed store project req) (Follows store project req)
    (Finds store project req) req.depth e.row
  rounds : req.limit + st.todo.length ≤ rounds + st.nodes.length
  closed : st.isPartial = false → ∃ now, Closed (IsSeed store project req)
    (Follows store project req) (Finds store project req) req.depth now st.search

variable {rounds : Nat}

theorem Searched.pop (h : Searched store project req (rounds + 1) st) (htodo : st.todo = n :: rest)
    (hdeep : req.depth ≤ n.distance) :
    Searched store project req rounds { st with todo := rest } := by
  refine ⟨⟨h.sound.nodes, h.sound.ids, h.sound.count, h.sound.edges, h.sound.edgeIds,
    h.sound.kept⟩, ?_, h.within, h.touched, ?_, ?_⟩
  · intro m hm
    refine h.todo m ?_
    rw [htodo]
    exact mem_cons_of_mem _ hm
  · have hrounds := h.rounds
    rw [htodo, length_cons] at hrounds
    show req.limit + rest.length ≤ rounds + st.nodes.length
    omega
  intro hcut
  obtain ⟨now, hclosed⟩ := h.closed hcut
  refine ⟨n.distance, @Closed.expand _ _ _ _ _ _ now n.distance n.row
    (rest.map (fun n => (n.row, n.distance))) _ _ hclosed ?_ ?_⟩
  · show st.todo.map _ = _
    rw [htodo]
    rfl
  refine ⟨⟨[], ?_, ?_⟩, ⟨[], ?_, fun r hr => by cases hr⟩, fun hless => by omega⟩
  · exact (append_nil _).symm
  · show _ = st.todo.map _ ++ _
    rw [htodo, map_nil, append_nil]
    rfl
  · exact (append_nil _).symm

theorem Searched.expand {rounds : Nat} {n : MetNode} {rest : List MetNode}
    (hwritten : store.Written) (h : Searched store project req (rounds + 1) st)
    (htodo : st.todo = n :: rest) (hshallow : n.distance < req.depth)
    (hok : expandNode store project req n { st with todo := rest } = .ok st') :
    Searched store project req rounds st' := by
  have hn : n ∈ st.nodes := h.todo n (by rw [htodo]; exact mem_cons_self)
  have hsound : GraphState.Sound store req { st with todo := rest } :=
    ⟨h.sound.nodes, h.sound.ids, h.sound.count, h.sound.edges, h.sound.edgeIds, h.sound.kept⟩
  obtain ⟨rows, hscanned, hfollows, hall⟩ :=
    expandNode_scans hwritten hsound (h.sound.nodes n hn) hok
  have hfull := hscanned
  obtain ⟨hsound', ⟨new, hnodes, hqueue, hnew⟩, ⟨more, hedges, hmore, -⟩, huncut, -⟩ := hscanned
  have hqueue' : st'.todo = rest ++ new := hqueue
  have hnodes' : st'.nodes = st.nodes ++ new := hnodes
  refine ⟨hsound', ?_, ?_, ?_, ?_, ?_⟩
  · intro m hm
    rw [hqueue'] at hm
    rw [hnodes']
    rcases mem_append.mp hm with hold | hlater
    · refine mem_append_left _ (h.todo m ?_)
      rw [htodo]
      exact mem_cons_of_mem _ hold
    · exact mem_append_right _ hlater
  · intro m hm
    rw [hnodes'] at hm
    rcases mem_append.mp hm with hold | hlater
    · exact h.within m hold
    · obtain ⟨hdistance, t, ht, hkinds, hfinds⟩ := hnew m hlater
      rw [hdistance]
      exact ⟨hshallow, Within.step (h.within n hn).2 (hfollows t ht hkinds) hfinds⟩
  · intro e he
    rw [hedges] at he
    rcases mem_append.mp he with hold | hlater
    · exact h.touched e hold
    · obtain ⟨-, hrow, hkinds⟩ := hmore e hlater
      exact ⟨n.distance, n.row, hshallow, (h.within n hn).2, hfollows _ hrow hkinds⟩
  · have hrounds := h.rounds
    rw [htodo, length_cons] at hrounds
    rw [hqueue', hnodes', length_append, length_append]
    omega
  · intro hcut
    obtain ⟨now, hclosed⟩ := h.closed (huncut hcut)
    refine ⟨n.distance, @Closed.expand _ _ _ _ _ _ now n.distance n.row
      (rest.map (fun n => (n.row, n.distance))) _ _ hclosed ?_
      (expands_of_scanned htodo hfull (hall hcut) hcut)⟩
    show st.todo.map _ = _
    rw [htodo]
    rfl

theorem expandAll_searched (hwritten : store.Written) (h : Searched store project req rounds st)
    (hok : expandAll store project req rounds st = .ok st') :
    ∃ left, Searched store project req left st' ∧ st'.todo = [] := by
  induction rounds generalizing st with
  | zero =>
    cases hok
    refine ⟨0, h, ?_⟩
    have hrounds := h.rounds
    have hcount := h.sound.count
    exact eq_nil_of_length_eq_zero (by omega)
  | succ rounds ih =>
    unfold expandAll at hok
    cases htodo : st.todo with
    | nil =>
      rw [htodo] at hok
      cases hok
      exact ⟨_, h, htodo⟩
    | cons n rest =>
      rw [htodo] at hok
      dsimp only at hok
      split at hok
      · next hdeep => exact ih (h.pop htodo hdeep) hok
      next hshallow =>
        rw [except_bind_ok] at hok
        obtain ⟨mid, hexpand, hrest⟩ := hok
        exact ih (h.expand hwritten htodo (Nat.lt_of_not_le hshallow) hexpand) hrest

theorem sound_empty : GraphState.Sound store req {} := by
  refine ⟨?_, ?_, ?_, ?_, ?_, ?_⟩ <;> simp

theorem searched_seeds (hwritten : store.Written)
    (hok : addRecords store project req req.seeds req.limit 0 {} = .ok st) :
    Searched store project req req.limit st := by
  obtain ⟨address, haddress, hsound, ⟨⟨new, hnodes, htodo, hnew⟩, hedges, -⟩, hall⟩ :=
    addRecords_steps hwritten sound_empty rfl hok
  have hnodes' : st.nodes = new := hnodes
  have htodo' : st.todo = new := htodo
  have hedges' : st.edges = [] := hedges
  have hseed : ∀ n ∈ new, n.distance = 0 ∧ IsSeed store project req n.row := by
    intro n hn
    obtain ⟨hzero, hrow⟩ := hnew n hn
    exact ⟨hzero, address, haddress, hrow⟩
  refine ⟨hsound, ?_, ?_, ?_, ?_, ?_⟩
  · rw [htodo', hnodes']
    exact fun n hn => hn
  · intro n hn
    obtain ⟨hzero, hrow⟩ := hseed n (hnodes' ▸ hn)
    rw [hzero]
    exact ⟨Nat.zero_le _, Within.seed hrow⟩
  · rw [hedges']
    exact forall_mem_nil _
  · rw [htodo', hnodes']
  intro hcut
  have hzero : ∀ p ∈ new.map (fun n => (n.row, n.distance)), p.2 = 0 := by
    intro p hp
    obtain ⟨n, hn, rfl⟩ := mem_map.mp hp
    exact (hseed n hn).1
  refine ⟨0, ?_, ?_, ?_, ?_, ?_, ?_, ?_⟩
  · intro r hr
    obtain ⟨address', haddress', hrow⟩ := hr
    rw [haddress] at haddress'
    cases haddress'
    obtain ⟨n, hn, rfl⟩ := hall hcut r hrow
    refine mem_map.mpr ⟨n, hn, ?_⟩
    rw [(hseed n (hnodes' ▸ hn)).1]
  · show (st.todo.map _).Pairwise _
    rw [htodo']
    refine List.Pairwise.imp_of_mem (R := fun _ _ => True) ?_
      (pairwise_of_forall (fun _ _ => trivial))
    intro p q hp _ _
    rw [hzero p hp]
    exact Nat.zero_le _
  · intro p hp
    have hp' : p ∈ st.nodes.map (fun n => (n.row, n.distance)) := hp
    rw [hnodes'] at hp'
    rw [hzero p hp']
    exact Nat.zero_le _
  · exact fun p _ => Nat.zero_le _
  · intro p hp
    have hp' : p ∈ st.todo.map (fun n => (n.row, n.distance)) := hp
    rw [htodo', ← hnodes'] at hp'
    exact hp'
  · intro q hq
    have hq' : q ∈ st.edges.map (fun e => (e.row, e.distance)) := hq
    rw [hedges'] at hq'
    cases hq'
  · intro p hp
    have hp' : p ∈ st.nodes.map (fun n => (n.row, n.distance)) := hp
    rw [hnodes', ← htodo'] at hp'
    exact Or.inl hp'

theorem searchGraph_searched (hwritten : store.Written)
    (hok : searchGraph store project req = .ok st) :
    ∃ left, Searched store project req left st ∧ st.todo = [] := by
  unfold searchGraph at hok
  rw [except_bind_ok] at hok
  obtain ⟨start, hseeds, hrest⟩ := hok
  exact expandAll_searched hwritten (searched_seeds hwritten hseeds) hrest

section Answer

variable {differ : Json → Json → Bool} {answer : GraphAnswer}

theorem addDisagreements_uncut {anchor : Text} {p : PacketState}
    (h : (addDisagreements differ store project req anchor p).isPartial = false) :
    p.isPartial = false := by
  unfold addDisagreements at h
  split at h
  · exact h
  · dsimp only at h
    rw [Bool.or_eq_false_iff, Bool.or_eq_false_iff] at h
    exact h.1.1

variable {p p' : PacketState}

theorem addPayload_uncut
    (h : addPayload differ store project req p n = .ok p') (hcut : p'.isPartial = false) :
    p.isPartial = false := by
  unfold addPayload at h
  rw [except_bind_ok] at h
  obtain ⟨⟨claims, next⟩, -, h⟩ := h
  dsimp only at h
  rw [except_bind_ok] at h
  obtain ⟨anchor, -, h⟩ := h
  cases h
  have hbefore := addDisagreements_uncut hcut
  dsimp only at hbefore
  rw [Bool.or_eq_false_iff, Bool.or_eq_false_iff] at hbefore
  exact hbefore.1.1

theorem addPayloads_uncut {nodes : List MetNode}
    (h : nodes.foldlM (addPayload differ store project req) p = .ok p')
    (hcut : p'.isPartial = false) : p.isPartial = false := by
  induction nodes generalizing p with
  | nil =>
    cases h
    exact hcut
  | cons n rest ih =>
    rw [foldlM_cons, except_bind_ok] at h
    obtain ⟨mid, hfirst, hrest⟩ := h
    exact addPayload_uncut hfirst (ih hrest)

theorem fullAnswer_shows (h : fullAnswer differ store project req st = .ok answer) :
    answer.nodes = st.nodes.map MetNode.shown ∧ answer.edges = st.edges.map MetEdge.shown ∧
      (answer.isPartial = false → st.isPartial = false) := by
  unfold fullAnswer at h
  dsimp only at h
  split at h
  · rw [except_bind_ok] at h
    obtain ⟨p, hp, h⟩ := h
    cases h
    exact ⟨rfl, rfl, fun hcut => addPayloads_uncut hp hcut⟩
  · cases h
    exact ⟨rfl, rfl, fun hcut => hcut⟩

/-- What the last loop leaves of an answer. -/
structure Trimmed (answer trimmed : GraphAnswer) : Prop where
  nodes : trimmed.nodes <+: answer.nodes
  edges : trimmed.edges <+: answer.edges
  whole : trimmed.isPartial = false → trimmed = answer

theorem Trimmed.refl : Trimmed answer answer := ⟨prefix_rfl, prefix_rfl, fun _ => rfl⟩

theorem trimmed_dropLast {trimmed : GraphAnswer} (h : Trimmed answer.dropLast trimmed) :
    Trimmed answer trimmed := by
  have hcut : answer.dropLast.isPartial = true := by
    unfold GraphAnswer.dropLast
    split
    · rfl
    · split
      · rfl
      · split <;> rfl
  have hnodes : answer.dropLast.nodes <+: answer.nodes := by
    unfold GraphAnswer.dropLast
    split
    · exact prefix_rfl
    split
    · exact prefix_rfl
    · split
      · exact prefix_rfl
      · exact dropLast_prefix _
  have hedges : answer.dropLast.edges <+: answer.edges := by
    unfold GraphAnswer.dropLast
    split
    · exact prefix_rfl
    split
    · exact prefix_rfl
    · split
      · exact dropLast_prefix _
      · exact prefix_rfl
  refine ⟨h.nodes.trans hnodes, h.edges.trans hedges, fun hwhole => ?_⟩
  rw [h.whole hwhole] at hwhole
  rw [hcut] at hwhole
  cases hwhole

theorem trim_trims (rounds : Nat) : Trimmed answer (answer.trim req rounds) := by
  induction rounds generalizing answer with
  | zero =>
    unfold GraphAnswer.trim
    split
    · exact ⟨prefix_rfl, prefix_rfl, fun h => nomatch h⟩
    · exact Trimmed.refl
  | succ rounds ih =>
    unfold GraphAnswer.trim
    split
    · exact trimmed_dropLast ih
    · exact Trimmed.refl

theorem size_dropLast {n : Nat} (h : answer.size = n + 1) : answer.dropLast.size = n := by
  have hdrop : ∀ {l : List Json}, l ≠ [] → l.dropLast.length + 1 = l.length := by
    intro l hl
    rw [length_dropLast]
    have hpos := length_pos_iff.mpr hl
    omega
  unfold GraphAnswer.size at h ⊢
  unfold GraphAnswer.dropLast
  split
  · next hd =>
      have hlength := hdrop hd
      dsimp only
      omega
  next hd =>
    have hd : answer.disagreements = [] := not_not.mp hd
    split
    · next hc =>
        have hlength := hdrop hc
        dsimp only
        omega
    next hc =>
      have hc : answer.claims = [] := not_not.mp hc
      split
      · next he =>
          have hlength := hdrop he
          dsimp only
          omega
      next he =>
        have he : answer.edges = [] := not_not.mp he
        rw [hd, hc, he] at h ⊢
        have hn : answer.nodes ≠ [] := by
          intro hn
          rw [hn] at h
          cases h
        have hlength := hdrop hn
        simp only [length_nil, Nat.add_zero] at h ⊢
        omega

theorem empty_bytes (hdepth : req.depth ≤ 8) (cut : Bool) :
    GraphAnswer.bytes req ⟨[], [], [], [], cut⟩ ≤ 4096 := by
  have hdigit : ∀ d ≤ 8, utf8Length (Json.dump (.int (d : Nat))) = 1 := by decide
  have hshallow : ∀ packet ∈ [true, false],
      ∀ direction ∈ [GraphDirection.both, .incoming, .outgoing],
      ∀ cut ∈ [true, false], GraphAnswer.bytes { packet, depth := 2, direction }
        ⟨[], [], [], [], cut⟩ ≤ 4096 := by
    set_option maxRecDepth 100000 in
    decide
  have hsame : GraphAnswer.bytes req ⟨[], [], [], [], cut⟩ =
      GraphAnswer.bytes { packet := req.packet, depth := 2, direction := req.direction }
        ⟨[], [], [], [], cut⟩ := by
    have hone := hdigit req.depth hdepth
    have htwo := hdigit 2 (by decide)
    unfold GraphAnswer.bytes GraphAnswer.json
    dsimp only
    generalize Json.int (req.depth : Nat) = depth at hone ⊢
    generalize Json.int ((2 : Nat) : Int) = two at htwo ⊢
    cases req.packet <;>
      simp only [Json.dump, Json.dumpFields, utf8Length_append, utf8Length_cons, hone, htwo,
        if_true, if_false, Bool.false_eq_true]
  rw [hsame]
  refine hshallow _ ?_ _ ?_ _ ?_
  · cases req.packet <;> decide
  · cases req.direction <;> decide
  · cases cut <;> decide

theorem trim_bytes (hdepth : req.depth ≤ 8) (hbudget : 4096 ≤ req.outputBytes)
    (h : answer.size = rounds) : (answer.trim req rounds).bytes req ≤ req.outputBytes := by
  induction rounds generalizing answer with
  | zero =>
    obtain ⟨nodes, edges, claims, disagreements, cut⟩ := answer
    unfold GraphAnswer.size at h
    dsimp only at h
    have hempty : nodes = [] ∧ edges = [] ∧ claims = [] ∧ disagreements = [] := by
      refine ⟨?_, ?_, ?_, ?_⟩ <;> exact eq_nil_of_length_eq_zero (by omega)
    obtain ⟨rfl, rfl, rfl, rfl⟩ := hempty
    unfold GraphAnswer.trim
    split
    · exact Nat.le_trans (empty_bytes hdepth true) hbudget
    · exact Nat.le_trans (empty_bytes hdepth cut) hbudget
  | succ rounds ih =>
    unfold GraphAnswer.trim
    split
    · exact ih (size_dropLast h)
    · next hfits => exact Nat.le_of_not_lt hfits

theorem check_bounds (h : req.check = .ok ()) : req.depth ≤ 8 ∧ 4096 ≤ req.outputBytes := by
  unfold GraphRequest.check at h
  split at h
  · cases h
  split at h
  · cases h
  next hdepth =>
    split at h
    · cases h
    · split at h
      · cases h
      · next hlimit => exact ⟨Nat.le_of_not_lt hdepth, by omega⟩

variable (store : ListedStore)

/-- A record shows an entity. -/
def ShowsEntity (r : ListedRow) (shown : Json) : Prop :=
  r ∈ store.index .entities ∧ ∃ record, indexShown store r = .ok record ∧ brief record = .ok shown

/-- A record shows a relation. -/
def ShowsRelation (t : ListedRow) (shown : Json) : Prop :=
  t ∈ store.index .relations ∧ brief t.record = .ok shown

/-- An answer is within its bytes and names no record twice. -/
structure GraphAnswer.Proper (req : GraphRequest) (answer : GraphAnswer) : Prop where
  bytes : answer.bytes req ≤ req.outputBytes
  nodes : (answer.nodes.map (fun n => n.get? "id".toList)).Nodup
  edges : (answer.edges.map (fun e => e.get? "id".toList)).Nodup

end Answer

/-- An answer is within its bytes, names no record twice, and shows only what a chain of current
relations leads to, by id or by location.  One that is not partial shows all that such chains
lead to where an end with a location leads to what is current there, and one without leads to
the entity of its id. -/
theorem graph_neighborhood {differ : Json → Json → Bool} {answer : GraphAnswer}
    (hwritten : store.Written) (h : graph differ store project req = .ok answer) :
    answer.Proper req ∧
    (∀ shown ∈ answer.nodes, ∃ r, ShowsEntity store r shown ∧ ∃ n, n ≤ req.depth ∧
      Within (IsSeed store project req) (Follows store project req) (LeadsTo store project req)
        n r) ∧ (∀ shown ∈ answer.edges, ∃ t, ShowsRelation store t shown ∧
      Touched (IsSeed store project req) (Follows store project req) (LeadsTo store project req)
        req.depth t) ∧ (answer.isPartial = false →
      (∀ n r, n ≤ req.depth → Within (IsSeed store project req) (Follows store project req)
        (Finds store project req) n r → ∃ shown ∈ answer.nodes, ShowsEntity store r shown) ∧
      ∀ t, Touched (IsSeed store project req) (Follows store project req)
        (Finds store project req) req.depth t → ∃ shown ∈ answer.edges,
          ShowsRelation store t shown) := by
  unfold graph at h
  split at h
  · cases h
  simp only [except_bind_ok] at h
  obtain ⟨hunit, hcheck, st, hsearch, full, hfull, h⟩ := h
  cases h
  obtain ⟨hdepth, hbudget⟩ := check_bounds hcheck
  obtain ⟨left, hsearched, hdone⟩ := searchGraph_searched hwritten hsearch
  obtain ⟨hnodes, hedges, huncut⟩ := fullAnswer_shows hfull
  have htrimmed : Trimmed full (full.trim req full.size) := trim_trims full.size
  have hid : ∀ n ∈ st.nodes, n.shown.get? "id".toList = some (.str n.id) := by
    intro n hn
    have hfrom := hsearched.sound.nodes n hn
    rw [brief_get? hfrom.shown (by decide) (by decide),
      indexShown_get? hfrom.record (by decide) (by decide) (by decide) (by decide) (by decide),
      (hwritten.entities n.row hfrom.row).id, hfrom.id]
  have hedgeId : ∀ e ∈ st.edges, e.shown.get? "id".toList = some (.str e.row.id) := by
    intro e he
    obtain ⟨hrow, hshown, -⟩ := hsearched.sound.edges e he
    rw [brief_get? hshown (by decide) (by decide), (hwritten.relations e.row hrow).id]
  have hstr : Function.Injective (fun id : Text => some (Json.str id)) := by
    intro a b hab
    exact Json.str.inj (Option.some.inj hab)
  refine ⟨⟨trim_bytes hdepth hbudget rfl, ?_, ?_⟩, ?_, ?_, ?_⟩
  · refine List.Nodup.sublist (htrimmed.nodes.sublist.map _) ?_
    rw [hnodes, map_map]
    have hids : st.nodes.map ((fun n => n.get? "id".toList) ∘ MetNode.shown) =
        (st.nodes.map MetNode.id).map (fun id => some (Json.str id)) := by
      rw [map_map]
      exact map_congr_left hid
    rw [hids]
    exact hsearched.sound.ids.map hstr
  · refine List.Nodup.sublist (htrimmed.edges.sublist.map _) ?_
    rw [hedges, map_map]
    have hids : st.edges.map ((fun e => e.get? "id".toList) ∘ MetEdge.shown) =
        (st.edges.map (fun e => e.row.id)).map (fun id => some (Json.str id)) := by
      rw [map_map]
      exact map_congr_left hedgeId
    rw [hids]
    exact hsearched.sound.edgeIds.map hstr
  · intro shown hshown
    have hmem := htrimmed.nodes.subset hshown
    rw [hnodes] at hmem
    obtain ⟨n, hn, rfl⟩ := mem_map.mp hmem
    have hfrom := hsearched.sound.nodes n hn
    obtain ⟨hle, hwithin⟩ := hsearched.within n hn
    exact ⟨n.row, ⟨hfrom.row, n.record, hfrom.record, hfrom.shown⟩, n.distance, hle,
      hwithin.mono (fun _ _ hfinds => leadsTo_of_finds hfinds) (fun _ _ hfollows => hfollows)⟩
  · intro shown hshown
    have hmem := htrimmed.edges.subset hshown
    rw [hedges] at hmem
    obtain ⟨e, he, rfl⟩ := mem_map.mp hmem
    obtain ⟨hrow, hbrief, -⟩ := hsearched.sound.edges e he
    exact ⟨e.row, ⟨hrow, hbrief⟩,
      (hsearched.touched e he).mono (fun _ _ hfinds => leadsTo_of_finds hfinds)⟩
  · intro hwhole
    have hsame := htrimmed.whole hwhole
    rw [hsame] at hwhole ⊢
    obtain ⟨now, hclosed⟩ := hsearched.closed (huncut hwhole)
    have hempty : st.search.todo = [] := by
      show st.todo.map _ = []
      rw [hdone]
      rfl
    constructor
    · intro n r hle hwithin
      obtain ⟨k, -, hmet⟩ := hclosed.meets hempty hle hwithin
      obtain ⟨m, hm, heq⟩ := mem_map.mp hmet
      cases heq
      have hfrom := hsearched.sound.nodes m hm
      refine ⟨m.shown, ?_, hfrom.row, m.record, hfrom.record, hfrom.shown⟩
      rw [hnodes]
      exact mem_map_of_mem hm
    · intro t htouched
      obtain ⟨k, hmet⟩ := hclosed.touches hempty htouched
      obtain ⟨e, he, heq⟩ := mem_map.mp hmet
      cases heq
      obtain ⟨hrow, hbrief, -⟩ := hsearched.sound.edges e he
      refine ⟨e.shown, ?_, hrow, hbrief⟩
      rw [hedges]
      exact mem_map_of_mem he

/-- A row of the one revision there is. -/
def namedRow (id : Text) (fields : List (Text × Json)) : ListedRow where
  project := "p".toList
  artifact := "a".toList
  backend := "b".toList
  revision := "1".toList
  id := id
  fields := ("id".toList, .str id) :: fields

def namedCaller : ListedRow := namedRow "f".toList []

def namedCallee : ListedRow := namedRow "g".toList []

/-- A relation that names its target by id, at a location that is not the target's. -/
def namedCall : ListedRow :=
  { namedRow "r".toList [("kind".toList, .str "calls".toList),
      ("source_entity".toList, .str "f".toList), ("target_entity".toList, .str "g".toList),
      ("target_location".toList, .obj [("anchor_id".toList, .str "x".toList)])] with
    kind := "calls".toList
    source := "f".toList
    target := "g".toList
    targetAnchor := "x".toList }

def namedStore : ListedStore where
  projects := ["p".toList]
  evidence := []
  functions := []
  views := []
  index := fun category =>
    match category with
    | .entities => [namedCaller, namedCallee]
    | .relations => [namedCall]
    | _ => []
  heads := [("p".toList, "1".toList)]
  objects := fun _ => none

def namedRequest : GraphRequest where
  id := some "f".toList

/-- The neighborhood of the caller is the caller and its relation, and is not partial. -/
theorem namedStore_answer : ∃ answer,
    graph (fun _ _ => false) namedStore "p".toList namedRequest = .ok answer ∧
      answer.isPartial = false ∧
      answer.nodes.map (fun n => textIn n "id".toList) = ["f".toList] := by
  have hvalues : (match graph (fun _ _ => false) namedStore "p".toList namedRequest with
      | .ok answer => !answer.isPartial &&
          answer.nodes.map (fun n => textIn n "id".toList) == ["f".toList]
      | .error _ => false) = true := by
    set_option maxRecDepth 100000 in
    decide
  cases hgraph : graph (fun _ _ => false) namedStore "p".toList namedRequest with
  | error e =>
    rw [hgraph] at hvalues
    cases hvalues
  | ok answer =>
    rw [hgraph] at hvalues
    dsimp only at hvalues
    rw [Bool.and_eq_true, Bool.not_eq_true', beq_iff_eq] at hvalues
    exact ⟨answer, rfl, hvalues.1, hvalues.2⟩

/-- The callee is one relation away by its id, and is missed. -/
theorem named_callee_missed : ∃ answer,
    graph (fun _ _ => false) namedStore "p".toList namedRequest = .ok answer ∧
      answer.isPartial = false ∧ Within (IsSeed namedStore "p".toList namedRequest)
        (Follows namedStore "p".toList namedRequest) (LeadsTo namedStore "p".toList namedRequest)
        1 namedCallee ∧ 1 ≤ namedRequest.depth ∧
      ∀ shown ∈ answer.nodes, ¬ ShowsEntity namedStore namedCallee shown := by
  obtain ⟨answer, hgraph, hwhole, hids⟩ := namedStore_answer
  have hseed : IsSeed namedStore "p".toList namedRequest namedCaller := by
    refine ⟨[], rfl, ?_⟩
    have hscope : InScope namedStore "p".toList namedRequest namedCaller :=
      ⟨mem_cons_self, rfl, rfl⟩
    exact (mem_listedRows_id (by decide)).mpr ⟨hscope, rfl⟩
  have hfollows : Follows namedStore "p".toList namedRequest namedCaller namedCall :=
    ⟨mem_cons_self, by decide, rfl, rfl, Or.inl rfl, .source, mem_cons_self, by decide⟩
  have hleads : LeadsTo namedStore "p".toList namedRequest namedCall namedCallee :=
    ⟨⟨mem_cons_of_mem _ mem_cons_self, rfl, rfl⟩, .target,
      mem_cons_of_mem _ mem_cons_self, Or.inl rfl⟩
  refine ⟨answer, hgraph, hwhole, Within.step (Within.seed hseed) hfollows hleads, by decide, ?_⟩
  rintro shown hshown ⟨-, record, hrecord, hbrief⟩
  have hid : textIn shown "id".toList = "g".toList := by
    unfold textIn
    rw [brief_get? hbrief (by decide) (by decide),
      indexShown_get? hrecord (by decide) (by decide) (by decide) (by decide) (by decide)]
    rfl
  have hmem := mem_map_of_mem (f := fun n => textIn n "id".toList) hshown
  rw [hids, mem_singleton] at hmem
  rw [hid] at hmem
  exact absurd hmem (by decide)

theorem namedStore_written : namedStore.Written := by
  have hrow : ∀ r ∈ namedStore.index .entities, r = namedCaller ∨ r = namedCallee := by
    intro r hr
    rcases mem_cons.mp hr with heq | hr
    · exact Or.inl heq
    · exact Or.inr (mem_singleton.mp hr)
  refine ⟨by decide, by decide, ?_, ?_⟩
  · intro r hr
    rcases hrow r hr with rfl | rfl
    · exact ⟨rfl, by decide, rfl⟩
    · exact ⟨rfl, by decide, rfl⟩
  intro t ht
  rw [mem_singleton.mp ht]
  refine ⟨rfl, rfl, ?_, ?_, ?_, ?_⟩
  · intro side
    cases side <;> rfl
  · intro side
    cases side <;> rfl
  · intro side
    cases side
    · intro h
      cases Option.some.inj h
    · intro h
      cases Option.some.inj h
  · intro side loc hloc
    cases side
    · cases hloc
    · cases hloc
      intro h
      cases Option.some.inj h

/-- The answer to the caller's neighborhood is proper. -/
theorem named_neighborhood : ∃ answer,
    graph (fun _ _ => false) namedStore "p" namedRequest = .ok answer ∧
      answer.Proper namedRequest := by
  obtain ⟨answer, hgraph, -⟩ := namedStore_answer
  exact ⟨answer, hgraph, (graph_neighborhood namedStore_written hgraph).1⟩

end Indago
