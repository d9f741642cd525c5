import IndagoRev.Workbench.GraphSearch

/-!
# The steps of the search in the evidence graph

Every step keeps the state sound: its nodes come from rows of their own, and its relations
too.  A step adds nodes of one distance, and when it has cut nothing, all that it looked up
are among the nodes.
-/

namespace Indago

open StdText JsonValues JsonValues.Json Cursors Neighborhoods Transactions List

section Ends

variable {store : ListedStore} {project : Text} {req : GraphRequest} {t r : ListedRow}
variable {side : GraphSide}

theorem asks_none (column : Text) : asks none column = true := rfl

theorem asks_some {value : Text} (hne : value ≠ []) (column : Text) :
    asks (some value) column = decide (column = value) := by
  simp [asks, hne]

theorem mem_listedRows_anchor {anchor : Text} (hne : anchor ≠ []) :
    r ∈ listedRows store project [] { artifact := req.artifact, anchor := some anchor } ↔
      InScope store project req r ∧ r.anchor = anchor ∧ store.isHead r = true := by
  have htakes : IndexFilter.takes { artifact := req.artifact, anchor := some anchor } store
      project [] r = (decide (r.project = project) && asks req.artifact r.artifact &&
        decide (r.anchor = anchor) && store.isHead r) := by
    simp [IndexFilter.takes, IndexFilter.entity, asks_none, asks_some hne]
  unfold listedRows
  rw [mem_filter, htakes]
  simp only [Bool.and_eq_true, decide_eq_true_eq]
  constructor
  · rintro ⟨hrow, ⟨⟨hproject, hartifact⟩, hanchor⟩, hhead⟩
    exact ⟨⟨hrow, hproject, hartifact⟩, hanchor, hhead⟩
  · rintro ⟨⟨hrow, hproject, hartifact⟩, hanchor, hhead⟩
    exact ⟨hrow, ⟨⟨hproject, hartifact⟩, hanchor⟩, hhead⟩

theorem mem_listedRows_id {id : Text} (hne : id ≠ []) :
    r ∈ listedRows store project [] { artifact := req.artifact, id := some id } ↔
      InScope store project req r ∧ r.id = id := by
  have htakes : IndexFilter.takes { artifact := req.artifact, id := some id } store project [] r =
      (decide (r.project = project) && asks req.artifact r.artifact && decide (r.id = id)) := by
    simp [IndexFilter.takes, IndexFilter.entity, asks_none, asks_some hne]
  unfold listedRows
  rw [mem_filter, htakes]
  simp only [Bool.and_eq_true, decide_eq_true_eq]
  constructor
  · rintro ⟨hrow, ⟨hproject, hartifact⟩, hid⟩
    exact ⟨⟨hrow, hproject, hartifact⟩, hid⟩
  · rintro ⟨⟨hrow, hproject, hartifact⟩, hid⟩
    exact ⟨hrow, ⟨hproject, hartifact⟩, hid⟩

theorem value_null {fields : List (Text × Json)} {key : Text} {v : Json}
    (h : (Json.obj fields).value key .null = .ok v) :
    v = ((Json.obj fields).get? key).getD .null := by
  rw [value_eq rfl] at h
  exact (Except.ok.inj h).symm

/-- What the filter for an end asks for is what is found there. -/
theorem endFilter_some (ht : t.WrittenRelation) {f : IndexFilter}
    (h : endFilter req t.record side = .ok (some f)) :
    f.category = .entities ∧ f.canonical = .ok [] ∧ ∀ r, r ∈ listedRows store project [] f ↔
        InScope store project req r ∧ FoundAtEnd store t r side := by
  unfold endFilter at h
  simp only [except_bind_ok] at h
  obtain ⟨entity, hentity, loc, hloc, h⟩ := h
  have hentity' := value_null hentity
  have hloc' := value_null hloc
  have hanchor := ht.anchor side
  unfold anchorIn at hanchor
  split at h
  · next anchor hget =>
      rw [except_bind_ok] at h
      obtain ⟨a, ha, h⟩ := h
      cases h
      cases hfield : t.record.get? side.locationKey with
      | none =>
        rw [ListedRow.record] at hfield
        rw [hfield] at hloc'
        subst hloc'
        cases hget
      | some v =>
        have hv : loc = v := by
          rw [ListedRow.record] at hfield
          rw [hfield] at hloc'
          exact hloc'
        subst hv
        cases anchor with
        | str text =>
          cases ha
          have hne : a ≠ [] := by
            rintro rfl
            exact ht.anchored side loc hfield hget
          have hside : side.anchor t = a := by
            rw [hanchor, hfield]
            simp only [textIn, hget]
          refine ⟨rfl, rfl, fun r => ?_⟩
          rw [mem_listedRows_anchor hne, FoundAtEnd, hside, if_pos hne]
        | null | bool | int | real | arr | obj => cases ha
  · next hget =>
      have hside : side.anchor t = [] := by
        rw [hanchor]
        cases hfield : t.record.get? side.locationKey with
        | none => rfl
        | some v =>
          have hv : loc = v := by
            rw [ListedRow.record] at hfield
            rw [hfield] at hloc'
            exact hloc'
          subst hv
          simp only [textIn, hget]
      split at h
      · next id =>
          cases h
          have hfield : t.record.get? side.entityKey = some (.str id) := by
            cases hget' : (Json.obj t.fields).get? side.entityKey with
            | none =>
              rw [hget'] at hentity'
              cases hentity'
            | some v =>
              rw [hget'] at hentity'
              exact hget'.trans (congrArg some hentity'.symm)
          have hne : id ≠ [] := by
            rintro rfl
            exact ht.named side hfield
          have hid : side.entity t = id := by
            rw [ht.entity side]
            simp only [textIn, hfield]
          refine ⟨rfl, rfl, fun r => ?_⟩
          rw [mem_listedRows_id hne, FoundAtEnd, hside, if_neg (fun h => h rfl), hid]
      · cases h

theorem endFilter_none (ht : t.WrittenRelation) (hr : r.WrittenEntity)
    (h : endFilter req t.record side = .ok none) : ¬ FoundAtEnd store t r side := by
  unfold endFilter at h
  simp only [except_bind_ok] at h
  obtain ⟨entity, hentity, loc, hloc, h⟩ := h
  have hentity' := value_null hentity
  have hloc' := value_null hloc
  have hanchor := ht.anchor side
  unfold anchorIn at hanchor
  split at h
  · rw [except_bind_ok] at h
    obtain ⟨a, -, h⟩ := h
    cases h
  next hget =>
    have hside : side.anchor t = [] := by
      rw [hanchor]
      cases hfield : t.record.get? side.locationKey with
      | none => rfl
      | some v =>
        have hv : loc = v := by
          rw [ListedRow.record] at hfield
          rw [hfield] at hloc'
          exact hloc'
        subst hv
        simp only [textIn, hget]
    split at h
    · cases h
    next hnot =>
      rw [FoundAtEnd, hside, if_neg (fun h => h rfl), ht.entity side]
      have hempty : textIn t.record side.entityKey = [] := by
        unfold textIn
        split
        · next text hfield =>
            rw [ListedRow.record] at hfield
            rw [hfield] at hentity'
            exact absurd hentity' (hnot text)
        · rfl
      rw [hempty]
      exact hr.named

end Ends

variable {store : ListedStore} {project : Text} {req : GraphRequest}

/-- A node comes from a row. -/
structure FromRow (store : ListedStore) (n : MetNode) : Prop where
  row : n.row ∈ store.index .entities
  record : indexShown store n.row = .ok n.record
  shown : brief n.record = .ok n.shown
  id : n.id = n.row.id

structure GraphState.Sound (store : ListedStore) (req : GraphRequest) (st : GraphState) : Prop where
  nodes : ∀ n ∈ st.nodes, FromRow store n
  ids : (st.nodes.map MetNode.id).Nodup
  count : st.nodes.length ≤ req.limit
  edges : ∀ e ∈ st.edges, e.row ∈ store.index .relations ∧ brief e.row.record = .ok e.shown ∧
    e.row.id ∈ st.edgeIds
  edgeIds : (st.edges.map (fun e => e.row.id)).Nodup
  kept : st.isPartial = false → ∀ id ∈ st.edgeIds, ∃ e ∈ st.edges, e.row.id = id

/-- A step that adds nodes of one distance to a state. -/
structure Meets (distance : Nat) (places : ListedRow → Prop) (st st' : GraphState) : Prop where
  nodes : ∃ new : List MetNode, st'.nodes = st.nodes ++ new ∧ st'.todo = st.todo ++ new ∧
    ∀ n ∈ new, n.distance = distance ∧ places n.row
  edges : st'.edges = st.edges
  uncut : st'.isPartial = false → st.isPartial = false

variable {distance : Nat} {P Q : ListedRow → Prop} {st st' st'' : GraphState}

theorem Meets.refl : Meets distance P st st :=
  ⟨⟨[], by simp, by simp, fun n hn => by cases hn⟩, rfl, fun h => h⟩

theorem Meets.trans (h : Meets distance P st st') (h' : Meets distance P st' st'') :
    Meets distance P st st'' := by
  obtain ⟨⟨new, hnodes, htodo, hnew⟩, hedges, huncut⟩ := h
  obtain ⟨⟨new', hnodes', htodo', hnew'⟩, hedges', huncut'⟩ := h'
  refine ⟨⟨new ++ new', ?_, ?_, ?_⟩, hedges'.trans hedges, fun hcut => huncut (huncut' hcut)⟩
  · rw [hnodes', hnodes, append_assoc]
  · rw [htodo', htodo, append_assoc]
  · exact forall_mem_append.mpr ⟨hnew, hnew'⟩

theorem Meets.mono (h : Meets distance P st st') (hsub : ∀ r, P r → Q r) :
    Meets distance Q st st' := by
  obtain ⟨⟨new, hnodes, htodo, hnew⟩, hedges, huncut⟩ := h
  exact ⟨⟨new, hnodes, htodo, fun n hn => ⟨(hnew n hn).1, hsub _ (hnew n hn).2⟩⟩, hedges, huncut⟩

theorem Meets.keeps (h : Meets distance P st st') {n : MetNode} (hn : n ∈ st.nodes) :
    n ∈ st'.nodes := by
  obtain ⟨⟨new, hnodes, _, _⟩, _, _⟩ := h
  rw [hnodes]
  exact mem_append_left _ hn

theorem GraphState.Sound.cut (h : st.Sound store req) (b : Bool) :
    { st with isPartial := st.isPartial || b }.Sound store req := by
  refine ⟨h.nodes, h.ids, h.count, h.edges, h.edgeIds, fun hcut => h.kept ?_⟩
  simp only [Bool.or_eq_false_iff] at hcut
  exact hcut.1

/-- What one step leaves behind, and that it has met all rows unless it was cut. -/
structure Stepped (store : ListedStore) (req : GraphRequest) (distance : Nat)
    (places : ListedRow → Prop) (st st' : GraphState) : Prop where
  sound : st'.Sound store req
  meets : Meets distance places st st'
  all : st'.isPartial = false → ∀ r, places r → ∃ n ∈ st'.nodes, n.row = r

theorem addNode_steps (hwritten : store.Written) (h : st.Sound store req)
    {p : ListedRow × Json} (hrow : p.1 ∈ store.index .entities)
    (hshown : indexShown store p.1 = .ok p.2) (hok : addNode req distance st p = .ok st') :
    Stepped store req distance (fun r => r = p.1) st st' := by
  unfold addNode at hok
  simp only [except_bind_ok] at hok
  obtain ⟨idValue, hvalue, id, htext, hok⟩ := hok
  have hid : id = p.1.id := by
    rw [at?_ok, indexShown_get? hshown (by decide) (by decide) (by decide) (by decide) (by decide),
      (hwritten.entities p.1 hrow).id] at hvalue
    cases hvalue
    cases htext
    rfl
  subst hid
  split at hok
  · next hmet =>
      cases hok
      refine ⟨h, Meets.refl, fun _ r hr => ?_⟩
      subst hr
      obtain ⟨n, hn, hsame⟩ := any_eq_true.mp hmet
      have hfrom := h.nodes n hn
      have hids : n.row.id = p.1.id := hfrom.id.symm.trans (of_decide_eq_true hsame)
      exact ⟨n, hn, eq_of_id hwritten.entityIds hfrom.row hrow hids⟩
  · next hnew =>
      rw [except_bind_ok] at hok
      obtain ⟨shown, hbrief, hok⟩ := hok
      split at hok
      · cases hok
        refine ⟨⟨h.nodes, h.ids, h.count, h.edges, h.edgeIds, fun hcut => by cases hcut⟩, ?_, ?_⟩
        · exact ⟨⟨[], by simp, by simp, fun n hn => by cases hn⟩, rfl, fun hcut => by cases hcut⟩
        · intro hcut
          cases hcut
      next hroom =>
        rw [not_or, Nat.not_le] at hroom
        cases hok
        refine ⟨⟨?_, ?_, ?_, h.edges, h.edgeIds, h.kept⟩, ⟨⟨[_], rfl, rfl, ?_⟩, rfl, ?_⟩, ?_⟩
        · intro n hn
          rcases mem_append.mp hn with hold | hlast
          · exact h.nodes n hold
          · rw [mem_singleton] at hlast
            subst hlast
            exact ⟨hrow, hshown, hbrief, rfl⟩
        · rw [map_append, nodup_append]
          refine ⟨h.ids, pairwise_singleton _ _, ?_⟩
          intro a ha b hb heq
          obtain ⟨n, hn, rfl⟩ := mem_map.mp ha
          rw [map_singleton, mem_singleton] at hb
          refine hnew (any_eq_true.mpr ⟨n, hn, decide_eq_true ?_⟩)
          rw [heq, hb]
        · rw [length_append, length_singleton]
          exact hroom.1
        · intro n hn
          rw [mem_singleton] at hn
          subst hn
          exact ⟨rfl, rfl⟩
        · exact fun hcut => hcut
        · intro _ r hr
          exact ⟨_, mem_append_right _ (mem_singleton.mpr rfl), hr.symm⟩

theorem addNodes_steps (hwritten : store.Written) (h : st.Sound store req)
    {records : List (ListedRow × Json)}
    (hrecords : ∀ p ∈ records, p.1 ∈ store.index .entities ∧ indexShown store p.1 = .ok p.2)
    (hok : records.foldlM (addNode req distance) st = .ok st') :
    Stepped store req distance (fun r => ∃ p ∈ records, p.1 = r) st st' := by
  induction records generalizing st with
  | nil =>
    cases hok
    exact ⟨h, Meets.refl, fun _ r ⟨p, hp, _⟩ => by cases hp⟩
  | cons p rest ih =>
    rw [foldlM_cons, except_bind_ok] at hok
    obtain ⟨mid, hfirst, hrest⟩ := hok
    obtain ⟨hrow, hshown⟩ := hrecords p mem_cons_self
    have hstep := addNode_steps hwritten h hrow hshown hfirst
    have hsteps := ih hstep.sound (fun q hq => hrecords q (mem_cons_of_mem _ hq)) hrest
    refine ⟨hsteps.sound, (hstep.meets.mono ?_).trans (hsteps.meets.mono ?_), ?_⟩
    · rintro r rfl
      exact ⟨p, mem_cons_self, rfl⟩
    · rintro r ⟨q, hq, rfl⟩
      exact ⟨q, mem_cons_of_mem _ hq, rfl⟩
    rintro hcut r ⟨q, hq, rfl⟩
    rcases mem_cons.mp hq with rfl | hq
    · obtain ⟨n, hn, hsame⟩ := hstep.all (hsteps.meets.uncut hcut) q.1 rfl
      exact ⟨n, hsteps.meets.keeps hn, hsame⟩
    · exact hsteps.all hcut q.1 ⟨q, hq, rfl⟩

theorem addRecords_steps (hwritten : store.Written) (h : st.Sound store req) {f : IndexFilter}
    (hentities : f.category = .entities) {limit : Nat}
    (hok : addRecords store project req f limit distance st = .ok st') :
    ∃ address, f.canonical = .ok address ∧
      Stepped store req distance (fun r => r ∈ listedRows store project address f) st st' := by
  unfold addRecords at hok
  rw [except_bind_ok] at hok
  obtain ⟨⟨records, next⟩, hquery, hok⟩ := hok
  obtain ⟨address, haddress, hqueried⟩ := indexRows_ok hquery
  refine ⟨address, haddress, ?_⟩
  have hrows : ∀ r ∈ listedRows store project address f, r ∈ store.index .entities := by
    intro r hr
    unfold listedRows at hr
    rw [hentities] at hr
    exact (mem_filter.mp hr).1
  have hsteps := addNodes_steps hwritten (h.cut next.isSome)
    (fun p hp => ⟨hrows _ (hqueried.shown p hp).1, (hqueried.shown p hp).2⟩) hok
  obtain ⟨hnodes, hedges, huncut⟩ := hsteps.meets.mono (Q := fun r =>
    r ∈ listedRows store project address f)
    (by rintro r ⟨p, hp, rfl⟩; exact (hqueried.shown p hp).1)
  have hflags : st'.isPartial = false → st.isPartial = false ∧ next = none := by
    intro hcut
    have hboth := huncut hcut
    simp only [Bool.or_eq_false_iff, Option.isSome_eq_false_iff, Option.isNone_iff_eq_none]
      at hboth
    exact hboth
  refine ⟨hsteps.sound, ⟨hnodes, hedges, fun hcut => (hflags hcut).1⟩, ?_⟩
  intro hcut r hr
  obtain ⟨p, hp, hsame⟩ := hqueried.all (hflags hcut).2 r hr
  exact hsteps.all hcut r ⟨p, hp, hsame⟩

variable {t : ListedRow}

theorem addEnd_steps (hwritten : store.Written) (h : st.Sound store req)
    (ht : t ∈ store.index .relations) {side : GraphSide}
    (hok : addEnd store project req t.record distance st side = .ok st') :
    Stepped store req distance
      (fun r => InScope store project req r ∧ FoundAtEnd store t r side) st st' := by
  unfold addEnd at hok
  rw [except_bind_ok] at hok
  obtain ⟨f, hfilter, hok⟩ := hok
  cases f with
  | none =>
    cases hok
    refine ⟨h, Meets.refl, ?_⟩
    rintro _ r ⟨hscope, hfound⟩
    exact absurd hfound (endFilter_none (hwritten.relations t ht)
      (hwritten.entities r hscope.row) hfilter)
  | some f =>
    obtain ⟨hentities, hcanonical, hrows⟩ : f.category = .entities ∧ f.canonical = .ok [] ∧
        ∀ r, r ∈ listedRows store project [] f ↔
          InScope store project req r ∧ FoundAtEnd store t r side :=
      endFilter_some (hwritten.relations t ht) hfilter
    obtain ⟨address, haddress, hsteps⟩ := addRecords_steps hwritten h hentities hok
    rw [hcanonical] at haddress
    cases haddress
    refine ⟨hsteps.sound, hsteps.meets.mono (fun r hr => (hrows r).mp hr), ?_⟩
    exact fun hcut r hr => hsteps.all hcut r ((hrows r).mpr hr)

theorem addEnds_steps (hwritten : store.Written)
    (ht : t ∈ store.index .relations) {sides : List GraphSide} (h : st.Sound store req)
    (hok : sides.foldlM (addEnd store project req t.record distance) st = .ok st') :
    Stepped store req distance (fun r => InScope store project req r ∧
      ∃ side ∈ sides, FoundAtEnd store t r side) st st' := by
  induction sides generalizing st with
  | nil =>
    cases hok
    exact ⟨h, Meets.refl, fun _ r ⟨_, side, hside, _⟩ => by cases hside⟩
  | cons side rest ih =>
    rw [foldlM_cons, except_bind_ok] at hok
    obtain ⟨mid, hfirst, hrest⟩ := hok
    have hstep := addEnd_steps hwritten h ht hfirst
    have hsteps := ih hstep.sound hrest
    refine ⟨hsteps.sound, (hstep.meets.mono ?_).trans (hsteps.meets.mono ?_), ?_⟩
    · rintro r ⟨hscope, hfound⟩
      exact ⟨hscope, side, mem_cons_self, hfound⟩
    · rintro r ⟨hscope, other, hother, hfound⟩
      exact ⟨hscope, other, mem_cons_of_mem _ hother, hfound⟩
    rintro hcut r ⟨hscope, other, hother, hfound⟩
    rcases mem_cons.mp hother with rfl | hother
    · obtain ⟨n, hn, hsame⟩ := hstep.all (hsteps.meets.uncut hcut) r ⟨hscope, hfound⟩
      exact ⟨n, hsteps.meets.keeps hn, hsame⟩
    · exact hsteps.all hcut r ⟨hscope, other, hother, hfound⟩

/-- A relation of the kinds that are asked for. -/
def OfKinds (req : GraphRequest) (t : ListedRow) : Prop := req.kinds = [] ∨ t.kind ∈ req.kinds

theorem wanted_iff (ht : t.WrittenRelation) {takes : Bool}
    (h : wanted req t.record = .ok takes) : takes = true ↔ OfKinds req t := by
  unfold wanted at h
  split at h
  · next hnone =>
      cases h
      exact ⟨fun _ => Or.inl hnone, fun _ => rfl⟩
  next hsome =>
    rw [except_bind_ok] at h
    obtain ⟨kind, hkind, h⟩ := h
    cases h
    have hlookup : t.fields.lookup "kind".toList = some (.str t.kind) := ht.kind
    have hsame : kind = t.kind := by
      simp only [ListedRow.record, valueText, valueWith, hlookup, asText] at hkind
      exact (Except.ok.inj hkind).symm
    rw [hsame, contains_iff_mem]
    exact ⟨Or.inr, fun h => h.resolve_left hsome⟩

/-- What the loop over the relations of an entity does, as far as it comes. -/
structure Scanned (store : ListedStore) (project : Text) (req : GraphRequest) (distance : Nat)
    (rows : List ListedRow) (st st' : GraphState) : Prop where
  sound : st'.Sound store req
  nodes : ∃ new : List MetNode, st'.nodes = st.nodes ++ new ∧ st'.todo = st.todo ++ new ∧
    ∀ n ∈ new, n.distance = distance + 1 ∧
      ∃ t ∈ rows, OfKinds req t ∧ Finds store project req t n.row
  edges : ∃ more : List MetEdge, st'.edges = st.edges ++ more ∧
    (∀ e ∈ more, e.distance = distance ∧ e.row ∈ rows ∧ OfKinds req e.row) ∧
    (st'.isPartial = false → ∀ e ∈ more, ∀ r, Finds store project req e.row r →
      ∃ n ∈ st'.nodes, n.row = r)
  uncut : st'.isPartial = false → st.isPartial = false
  all : st'.isPartial = false → ∀ t ∈ rows, OfKinds req t → ∃ e ∈ st'.edges, e.row = t

variable {rows : List ListedRow}

theorem Scanned.unchanged (hsound : st'.Sound store req)
    (hnodes : st'.nodes = st.nodes) (htodo : st'.todo = st.todo) (hedges : st'.edges = st.edges)
    (hcut : st'.isPartial = false → st.isPartial = false ∧ rows = []) :
    Scanned store project req distance rows st st' where
  sound := hsound
  nodes := ⟨[], by rw [hnodes, append_nil], by rw [htodo, append_nil],
    fun n hn => by cases hn⟩
  edges := by
    refine ⟨[], by rw [hedges, append_nil], ?_, ?_⟩
    · intro e he
      cases he
    · intro _ e he
      cases he
  uncut := fun h => (hcut h).1
  all := by
    intro h t ht
    rw [(hcut h).2] at ht
    cases ht

variable {rest : List ListedRow}

theorem Scanned.skip (h : Scanned store project req distance rest st st')
    (hskip : st'.isPartial = false → OfKinds req t → ∃ e ∈ st'.edges, e.row = t) :
    Scanned store project req distance (t :: rest) st st' := by
  obtain ⟨hsound, ⟨new, hnodes, htodo, hnew⟩, ⟨more, hedges, hmore, hends⟩, huncut, hall⟩ := h
  refine ⟨hsound, ⟨new, hnodes, htodo, ?_⟩, ⟨more, hedges, ?_, hends⟩, huncut, ?_⟩
  · intro n hn
    obtain ⟨hdistance, u, hu, hkinds, hfinds⟩ := hnew n hn
    exact ⟨hdistance, u, mem_cons_of_mem _ hu, hkinds, hfinds⟩
  · intro e he
    obtain ⟨hdistance, hrow, hkinds⟩ := hmore e he
    exact ⟨hdistance, mem_cons_of_mem _ hrow, hkinds⟩
  intro hcut u hu hkinds
  rcases mem_cons.mp hu with rfl | hu
  · exact hskip hcut hkinds
  · exact hall hcut u hu hkinds

/-- The state with a relation more. -/
def GraphState.withEdge (st : GraphState) (e : MetEdge) (id : Text) (size : Nat) : GraphState :=
  { st with
    bytes := st.bytes + size
    edgeIds := st.edgeIds ++ [id]
    edges := st.edges ++ [e] }

theorem GraphState.Sound.withEdge (h : st.Sound store req) {e : MetEdge} {size : Nat}
    (hrow : e.row ∈ store.index .relations) (hshown : brief e.row.record = .ok e.shown)
    (hnew : e.row.id ∉ st.edgeIds) : (st.withEdge e e.row.id size).Sound store req := by
  refine ⟨h.nodes, h.ids, h.count, ?_, ?_, ?_⟩
  · intro e' he'
    rcases mem_append.mp he' with hold | hlast
    · obtain ⟨hrow', hshown', hid'⟩ := h.edges e' hold
      exact ⟨hrow', hshown', mem_append_left _ hid'⟩
    · rw [mem_singleton] at hlast
      subst hlast
      exact ⟨hrow, hshown, mem_append_right _ (mem_singleton.mpr rfl)⟩
  · show ((st.edges ++ [e]).map (fun e => e.row.id)).Nodup
    rw [map_append, nodup_append]
    refine ⟨h.edgeIds, pairwise_singleton _ _, ?_⟩
    intro id hid id' hid' heq
    obtain ⟨e', he', rfl⟩ := mem_map.mp hid
    rw [map_singleton, mem_singleton] at hid'
    have hsame : e'.row.id = e.row.id := heq.trans hid'
    exact hnew (hsame ▸ (h.edges e' he').2.2)
  · intro hcut id hid
    rcases mem_append.mp hid with hold | hlast
    · obtain ⟨e', he', hsame⟩ := h.kept hcut id hold
      exact ⟨e', mem_append_left _ he', hsame⟩
    · rw [mem_singleton] at hlast
      exact ⟨e, mem_append_right _ (mem_singleton.mpr rfl), hlast.symm⟩

theorem Scanned.take {e : MetEdge} {size : Nat} {mid : GraphState}
    (hdistance : e.distance = distance) (hkinds : OfKinds req e.row)
    (hends : Stepped store req (distance + 1) (Finds store project req e.row)
      (st.withEdge e e.row.id size) mid) (h : Scanned store project req distance rest mid st') :
    Scanned store project req distance (e.row :: rest) st st' := by
  obtain ⟨-, ⟨⟨new, hnodes, htodo, hnew⟩, hedges, huncut⟩, hall⟩ := hends
  obtain ⟨hsound, ⟨new', hnodes', htodo', hnew'⟩, ⟨more, hedges', hmore, hmet⟩, huncut', hall'⟩ := h
  have hedge : e ∈ st'.edges := by
    rw [hedges', hedges]
    exact mem_append_left _ (mem_append_right _ (mem_singleton.mpr rfl))
  refine ⟨hsound, ⟨new ++ new', ?_, ?_, ?_⟩, ⟨e :: more, ?_, ?_, ?_⟩,
    fun hcut => huncut (huncut' hcut), ?_⟩
  · rw [hnodes', hnodes, append_assoc]
    rfl
  · rw [htodo', htodo, append_assoc]
    rfl
  · intro n hn
    rcases mem_append.mp hn with hfirst | hlater
    · obtain ⟨hdist, hfinds⟩ := hnew n hfirst
      exact ⟨hdist, e.row, mem_cons_self, hkinds, hfinds⟩
    · obtain ⟨hdist, t, ht, hkinds', hfinds⟩ := hnew' n hlater
      exact ⟨hdist, t, mem_cons_of_mem _ ht, hkinds', hfinds⟩
  · rw [hedges', hedges]
    show st.edges ++ [e] ++ more = _
    rw [append_assoc, singleton_append]
  · intro e' he'
    rcases mem_cons.mp he' with rfl | hlater
    · exact ⟨hdistance, mem_cons_self, hkinds⟩
    · obtain ⟨hdist, hrow, hkinds'⟩ := hmore e' hlater
      exact ⟨hdist, mem_cons_of_mem _ hrow, hkinds'⟩
  · intro hcut e' he' r hfinds
    rcases mem_cons.mp he' with rfl | hlater
    · obtain ⟨n, hn, hsame⟩ := hall (huncut' hcut) r hfinds
      refine ⟨n, ?_, hsame⟩
      rw [hnodes']
      exact mem_append_left _ hn
    · exact hmet hcut e' hlater r hfinds
  · intro hcut t ht hkinds'
    rcases mem_cons.mp ht with rfl | hlater
    · exact ⟨e, hedge, rfl⟩
    · exact hall' hcut t hlater hkinds'

theorem scan_scans (hwritten : store.Written)
    (hrows : ∀ t ∈ rows, t ∈ store.index .relations) {scanned : Nat} (h : st.Sound store req)
    (hok : scan store project req distance scanned rows st = .ok st') :
    Scanned store project req distance rows st st' ∧
      (st'.isPartial = false → rows = [] ∨ scanned + rows.length ≤ req.limit) := by
  induction rows generalizing scanned st with
  | nil =>
    cases hok
    exact ⟨Scanned.unchanged h rfl rfl rfl (fun hcut => ⟨hcut, rfl⟩), fun _ => Or.inl rfl⟩
  | cons t rest ih =>
    have ht := hrows t mem_cons_self
    have hrest := fun u hu => hrows u (mem_cons_of_mem t hu)
    have hwrote := hwritten.relations t ht
    unfold scan at hok
    split at hok
    · cases hok
      exact ⟨Scanned.unchanged
        ⟨h.nodes, h.ids, h.count, h.edges, h.edgeIds, fun hcut => by cases hcut⟩ rfl rfl rfl
        (fun hcut => by cases hcut), fun hcut => by cases hcut⟩
    next hroom =>
      rw [except_bind_ok] at hok
      obtain ⟨takes, htakes, hok⟩ := hok
      have hwanted := wanted_iff hwrote htakes
      have hcount : ∀ {b : GraphState}, (b.isPartial = false →
          rest = [] ∨ scanned + 1 + rest.length ≤ req.limit) → b.isPartial = false →
            t :: rest = [] ∨ scanned + (t :: rest).length ≤ req.limit := by
        intro b hb hcut
        refine Or.inr ?_
        rw [length_cons]
        rcases hb hcut with rfl | hle
        · rw [length_nil]
          omega
        · omega
      split at hok
      · next hskip =>
          obtain ⟨hscanned, hlimit⟩ := ih hrest h hok
          refine ⟨hscanned.skip (fun _ hkinds => ?_), hcount hlimit⟩
          rw [hwanted.mpr hkinds] at hskip
          cases hskip
      next htake =>
        simp only [except_bind_ok] at hok
        obtain ⟨idValue, hvalue, id, htext, hok⟩ := hok
        have hid : id = t.id := by
          have hlookup : t.fields.lookup "id".toList = some (.str t.id) := hwrote.id
          simp only [ListedRow.record, entry, hlookup, Option.getD_some] at hvalue
          cases hvalue
          cases htext
          rfl
        subst hid
        split at hok
        · next hmet =>
            obtain ⟨hscanned, hlimit⟩ := ih hrest h hok
            refine ⟨hscanned.skip (fun hcut _ => ?_), hcount hlimit⟩
            obtain ⟨e, he, hsame⟩ := h.kept (hscanned.uncut hcut) _ hmet
            obtain ⟨more, hedges, _, _⟩ := hscanned.edges
            refine ⟨e, ?_, eq_of_id hwritten.relationIds (h.edges e he).1 ht hsame⟩
            rw [hedges]
            exact mem_append_left _ he
        · next hnew =>
            rw [except_bind_ok] at hok
            obtain ⟨shown, hshown, hok⟩ := hok
            split at hok
            · cases hok
              refine ⟨Scanned.unchanged ⟨h.nodes, h.ids, h.count, ?_, h.edgeIds,
                fun hcut => by cases hcut⟩ rfl rfl rfl (fun hcut => by cases hcut),
                fun hcut => by cases hcut⟩
              intro e he
              obtain ⟨hrow, hbrief, hid⟩ := h.edges e he
              exact ⟨hrow, hbrief, mem_append_left _ hid⟩
            · rw [except_bind_ok] at hok
              obtain ⟨mid, hends, hok⟩ := hok
              have hkinds : OfKinds req t := by
                refine hwanted.mp ?_
                cases takes with
                | true => rfl
                | false => exact absurd rfl htake
              let e : MetEdge := ⟨t, shown, distance⟩
              have hsound : (st.withEdge e e.row.id (utf8Length shown.dump)).Sound store req :=
                h.withEdge ht hshown hnew
              have hstepped : Stepped store req (distance + 1) (Finds store project req e.row)
                  (st.withEdge e e.row.id (utf8Length shown.dump)) mid :=
                addEnds_steps hwritten ht hsound hends
              obtain ⟨hscanned, hlimit⟩ := ih hrest hstepped.sound hok
              have htaken : Scanned store project req distance (e.row :: rest) st st' :=
                Scanned.take rfl hkinds hstepped hscanned
              exact ⟨htaken, hcount hlimit⟩

end Indago
