import IndagoRev.Closures
import IndagoRev.Workbench.KnowledgeHistory
import IndagoRev.Workbench.HarnessOwner

/-!
# Impact

`knowledge impact` follows dependencies backwards: from a seed to the head records that
depend on it, from these to the head records that depend on them, and so on until no
record is left to look up or the limit is reached.  Every query is cut to 201 names, which
is more than a search ever finds without reaching its limit.
-/

namespace Indago

open StdText Tables Transactions Closures List

/-- A type and an id, as `wb_dependencies` holds them. -/
abbrev DependencyKey := Text × Text

/-- What a record is as a dependency. -/
def recordKey (id : Text) : DependencyKey := ("record", id)

/-- `SELECT DISTINCT d.id FROM wb_dependencies d JOIN wb_heads h … ORDER BY d.id`, before its
limit. -/
def dependentHeads (store : KnowledgeStore) (project : Text) (key : DependencyKey) : List Text :=
  let joined := store.dependencies.filter (fun d =>
    d.project = project ∧ d.dependency.type.text = key.1 ∧ d.dependency.id = key.2 ∧
      store.heads.any (fun h => h.project = d.project ∧ h.id = d.id ∧ h.revision = d.revision))
  (joined.map DependencyRow.id).dedup.mergeSort (fun a b => !decide (b < a))

/-- The names that one query gives. -/
def dependentQuery (store : KnowledgeStore) (project : Text) (key : DependencyKey) : List Text :=
  (dependentHeads store project key).take 201

/-- The variables of the search: the part of `todo` that is still ahead, `seen` in the order
of its insertions, and `rows`. -/
structure ImpactSearch where
  todo : List DependencyKey
  seen : List Text
  rows : List Decorated

section Digests

-- SHA-256 of a text in hexadecimal, and the text of a record.
variable (sha256 : Text → Text) (dump : KnowledgeRecord → Text)

/-- The loop over the names of one query. -/
def impactVisit (store : KnowledgeStore) (project : Text) (limit : Nat) :
    List Text → ImpactSearch → Except String ImpactSearch
  | [], s => .ok s
  | next :: rest, s =>
    if next ∈ s.seen then impactVisit store project limit rest s
    else do
      let record ← loadRecord sha256 dump store project next 0
      let shown ← decorated sha256 dump store project record
      let s : ImpactSearch :=
        { todo := s.todo ++ [recordKey next], seen := s.seen ++ [next], rows := s.rows ++ [shown] }
      if s.rows.length = limit then pure s else impactVisit store project limit rest s

/-- How far a search can still go. -/
def ImpactSearch.ahead (limit : Nat) (s : ImpactSearch) : Nat :=
  s.todo.length + (limit - s.rows.length)

/-- Every name that is put on the list takes its place from the limit. -/
theorem impactVisit_ahead {store : KnowledgeStore} {project : Text} {limit : Nat}
    {names : List Text} {s s' : ImpactSearch} (hroom : s.rows.length < limit)
    (h : impactVisit sha256 dump store project limit names s = .ok s') :
    s'.ahead limit = s.ahead limit := by
  induction names generalizing s with
  | nil =>
    cases h
    rfl
  | cons next rest ih =>
    unfold impactVisit at h
    split at h
    · exact ih hroom h
    cases hload : loadRecord sha256 dump store project next 0 with
    | error e =>
      rw [hload] at h
      cases h
    | ok record =>
      rw [hload] at h
      cases hshow : decorated sha256 dump store project record with
      | error e =>
        simp only [bind, Except.bind, hshow] at h
        cases h
      | ok shown =>
        simp only [bind, Except.bind, hshow] at h
        have hahead : ImpactSearch.ahead limit
            { todo := s.todo ++ [recordKey next], seen := s.seen ++ [next]
              rows := s.rows ++ [shown] } = s.ahead limit := by
          simp only [ImpactSearch.ahead, length_append, length_singleton]
          omega
        split at h
        · cases h
          exact hahead
        next hmore =>
          rw [length_append, length_singleton] at hmore
          rw [ih ?_ h]
          · exact hahead
          · rw [length_append, length_singleton]
            omega

/-- The loop over `todo`.  It ends because every round takes a key from the list. -/
def impactLoop (store : KnowledgeStore) (project : Text) (limit : Nat) (s : ImpactSearch) :
    Except String ImpactSearch :=
  match _htodo : s.todo with
  | [] => .ok s
  | key :: rest =>
    if _hroom : s.rows.length < limit then
      match _hvisit : impactVisit sha256 dump store project limit
          (dependentQuery store project key) { s with todo := rest } with
      | .error e => .error e
      | .ok s' => impactLoop store project limit s'
    else .ok s
termination_by s.ahead limit
decreasing_by
  have hahead := impactVisit_ahead sha256 dump (s := { s with todo := rest }) _hroom _hvisit
  rw [hahead]
  simp only [ImpactSearch.ahead, _htodo, length_cons]
  omega

/-- The fields of a request that impact reads. -/
structure ImpactRequest where
  project : Text
  id : Text
  type : Option Text
  limit : Option Int
  offset : Option Int

structure ImpactAnswer where
  records : List Decorated
  isPartial : Bool

/-- `knowledge`, for `impact`. -/
def impact (store : KnowledgeStore) (request : ImpactRequest) : Except String ImpactAnswer :=
  if !isIdentifier request.project then .error "invalid identifier"
  else if request.project ∉ store.library.projects then .error "unknown project"
  else do
    let limit ← bound "limit" 50 200 request.limit
    let _ ← bound "offset" 0 10000000 request.offset
    if limit = 0 then .error "limit must be positive"
    else do
      let s ← impactLoop sha256 dump store request.project limit
        { todo := [(request.type.getD "record", request.id)], seen := [], rows := [] }
      pure { records := s.rows, isPartial := s.rows.length = limit }

/-- The head of a record pins a dependency of a type and an id. -/
def HeadDepends (store : KnowledgeStore) (project : Text) (key : DependencyKey) (id : Text) :
    Prop :=
  ∃ record, loadRecord sha256 dump store project id 0 = .ok record ∧
    ∃ d ∈ record.dependencies, d.type.text = key.1 ∧ d.id = key.2

/-- A head record depends on a seed, directly or through a chain of head records. -/
inductive Impacted (store : KnowledgeStore) (project : Text) (seed : DependencyKey) :
    Text → Prop
  | direct {id : Text} (h : HeadDepends sha256 dump store project seed id) :
      Impacted store project seed id
  | chain {id id' : Text} (h : Impacted store project seed id)
      (h' : HeadDepends sha256 dump store project (recordKey id) id') :
      Impacted store project seed id'

end Digests

variable {sha256 : Text → Text} {dump : KnowledgeRecord → Text}
variable {store : KnowledgeStore} {project : Text}

theorem dependentHeads_nodup (key : DependencyKey) : (dependentHeads store project key).Nodup := by
  unfold dependentHeads
  exact (mergeSort_perm _ _).nodup_iff.mpr (nodup_dedup _)

variable {key : DependencyKey} {id : Text}

theorem mem_dependentHeads : id ∈ dependentHeads store project key ↔
      ∃ d ∈ store.dependencies, d.project = project ∧ d.dependency.type.text = key.1 ∧
        d.dependency.id = key.2 ∧ d.id = id ∧
          ∃ h ∈ store.heads, h.project = d.project ∧ h.id = d.id ∧ h.revision = d.revision := by
  unfold dependentHeads
  simp only [mem_mergeSort, mem_dedup, mem_map, mem_filter,
    any_eq_true, decide_eq_true_eq, Bool.decide_and, Bool.and_eq_true]
  constructor
  · rintro ⟨d, ⟨hd, hproject, htype, hdependency, h, hh, hhead⟩, rfl⟩
    exact ⟨d, hd, hproject, htype, hdependency, rfl, h, hh, hhead⟩
  · rintro ⟨d, hd, hproject, htype, hdependency, rfl, h, hh, hhead⟩
    exact ⟨d, ⟨hd, hproject, htype, hdependency, h, hh, hhead⟩, rfl⟩

section Sound

variable (hsound : store.Sound sha256 dump)
include hsound

theorem mem_dependentHeads_iff :
    id ∈ dependentHeads store project key ↔ HeadDepends sha256 dump store project key id := by
  rw [mem_dependentHeads, hsound.table]
  constructor
  · rintro ⟨d, hd, rfl, htype, hdependency, rfl, h, hh, hproject, hid, hrevision⟩
    obtain ⟨found, hfound, hrow⟩ := mem_flatMap.mp hd
    obtain ⟨dependency, hmem, rfl⟩ := mem_map.mp hrow
    obtain ⟨n, last, hhead, hlast, hname, hload⟩ := hsound.load_head hfound
    have hrowOf := Tables.row_of_mem hsound.heads hh
    have hcurrent : store.head found.project found.id = some found.revision := by
      unfold KnowledgeStore.head
      unfold HeadRow.name at hrowOf
      dsimp only at hproject hid hrevision
      rw [hproject, hid] at hrowOf
      rw [← hrevision]
      exact congrArg (Option.map HeadRow.revision) hrowOf
    rw [hcurrent] at hhead
    have hsame : last = found := by
      have hn : n = found.revision := (Option.some.inj hhead).symm
      rw [hn] at hname
      exact inj_on_of_nodup_map hsound.distinct hlast hfound hname
    rw [hsame] at hload
    exact ⟨found.record, hload, dependency, hmem, htype, hdependency⟩
  · rintro ⟨record, hload, dependency, hmem, htype, hdependency⟩
    obtain ⟨n, found, hhead, hrow, rfl⟩ := loadRecord_ok hload
    rw [if_pos rfl] at hhead
    have hfound := row_some_mem hrow
    have hname : found.name = (project, id, n) := row_some_key hrow
    simp only [RecordRow.name, Prod.mk.injEq] at hname
    obtain ⟨rfl, rfl, rfl⟩ := hname
    unfold KnowledgeStore.head at hhead
    obtain ⟨h, hh, hrevision⟩ := Option.map_eq_some_iff.mp hhead
    have hkey : h.name = (found.project, found.id) := row_some_key hh
    simp only [HeadRow.name, Prod.mk.injEq] at hkey
    refine ⟨⟨found.project, found.id, found.revision, dependency⟩, ?_, rfl, htype, hdependency,
      rfl, h, row_some_mem hh, hkey.1, hkey.2, hrevision⟩
    exact mem_flatMap.mpr ⟨found, hfound, mem_map_of_mem hmem⟩

theorem reached_iff {seed : DependencyKey} :
    Reached (dependentHeads store project) recordKey seed id ↔
      Impacted sha256 dump store project seed id := by
  constructor
  · intro h
    induction h with
    | direct h => exact Impacted.direct ((mem_dependentHeads_iff hsound).mp h)
    | chain _ h ih => exact Impacted.chain ih ((mem_dependentHeads_iff hsound).mp h)
  intro h
  induction h with
  | direct h => exact Reached.direct ((mem_dependentHeads_iff hsound).mpr h)
  | chain _ h ih => exact Reached.chain ih ((mem_dependentHeads_iff hsound).mpr h)

/-- The record of a name that a query finds is loaded and shown. -/
theorem shown_of_found (h : id ∈ dependentHeads store project key) :
    ∃ record shown, loadRecord sha256 dump store project id 0 = .ok record ∧
      decorated sha256 dump store project record = .ok shown ∧ shown.record = record ∧
        record.id = id := by
  obtain ⟨record, hload, _⟩ := (mem_dependentHeads_iff hsound).mp h
  obtain ⟨n, found, _, hrow, rfl⟩ := loadRecord_ok hload
  have hfound := row_some_mem hrow
  have hname : found.name = (project, id, n) := row_some_key hrow
  simp only [RecordRow.name, Prod.mk.injEq] at hname
  obtain ⟨rfl, rfl, rfl⟩ := hname
  obtain ⟨shown, hshown⟩ := hsound.decorated_ok hfound
  refine ⟨found.record, shown, hload, hshown, ?_, (hsound.rows found hfound).id⟩
  rw [decorated] at hshown
  cases hcheck : checkFreshness sha256 dump store found.project 33 found.record ⟨0, false, []⟩ with
  | error e =>
    rw [hcheck] at hshown
    cases hshown
  | ok result =>
    rw [hcheck] at hshown
    cases hshown
    rfl

end Sound

/-- What is shown are the head records of the names that were seen. -/
structure Showing (sha256 : Text → Text) (dump : KnowledgeRecord → Text)
    (store : KnowledgeStore) (project : Text) (s : ImpactSearch) : Prop where
  names : s.rows.map (fun shown => shown.record.id) = s.seen
  heads : ∀ shown ∈ s.rows,
    loadRecord sha256 dump store project shown.record.id 0 = .ok shown.record ∧
      decorated sha256 dump store project shown.record = .ok shown

variable {s : ImpactSearch}

theorem Showing.length_eq (h : Showing sha256 dump store project s) :
    s.rows.length = s.seen.length := by
  rw [← h.names, length_map]

theorem Showing.append (h : Showing sha256 dump store project s)
    {record : KnowledgeRecord} {shown : Decorated} (todo : List DependencyKey)
    (hload : loadRecord sha256 dump store project id 0 = .ok record)
    (hshow : decorated sha256 dump store project record = .ok shown)
    (hrecord : shown.record = record) (hid : record.id = id) : Showing sha256 dump store project
      { todo := todo, seen := s.seen ++ [id], rows := s.rows ++ [shown] } where
  names := by
    dsimp only
    rw [map_append, h.names, map_singleton, hrecord, hid]
  heads := by
    intro shown' hmem
    rcases mem_append.mp hmem with hold | hnew
    · exact h.heads shown' hold
    · rw [mem_singleton.mp hnew, hrecord, hid]
      exact ⟨hload, hshow⟩

theorem dependentQuery_all {limit : Nat} (hlimit : limit ≤ 200) (hroom : s.rows.length < limit)
    (hshowing : Showing sha256 dump store project s)
    (hall : dependentQuery store project key ⊆ s.seen) :
    dependentHeads store project key ⊆ s.seen := by
  have hlength : (dependentQuery store project key).length ≤ s.seen.length := by
    have hnodup : (dependentQuery store project key).Nodup :=
      (dependentHeads_nodup key).sublist (take_sublist _ _)
    exact (subperm_of_subset hnodup hall).length_le
  rw [← hshowing.length_eq] at hlength
  unfold dependentQuery at hlength hall
  rw [length_take] at hlength
  rw [take_of_length_le (by omega)] at hall
  exact hall

theorem impactLoop_full {limit : Nat} (h : ¬ s.rows.length < limit) :
    impactLoop sha256 dump store project limit s = .ok s := by
  rw [impactLoop]
  split
  · rfl
  · rw [dif_neg h]

section Search

variable (hsound : store.Sound sha256 dump)
include hsound

/-- The loop over the names of a query finds them all, or stops at the limit. -/
theorem impactVisit_ok {seed key : DependencyKey} {limit : Nat} {names : List Text}
    (hnames : names ⊆ dependentHeads store project key)
    (hroom : s.rows.length < limit) (hshowing : Showing sha256 dump store project s)
    (hsearch : Searching (dependentHeads store project) recordKey seed (key :: s.todo) s.seen) :
    ∃ s', impactVisit sha256 dump store project limit names s = .ok s' ∧
      Showing sha256 dump store project s' ∧
      Searching (dependentHeads store project) recordKey seed (key :: s'.todo) s'.seen ∧
      s.seen ⊆ s'.seen ∧ (s'.rows.length = limit ∨ s'.rows.length < limit ∧ names ⊆ s'.seen) := by
  induction names generalizing s with
  | nil =>
    exact ⟨s, rfl, hshowing, hsearch, List.Subset.refl _, Or.inr ⟨hroom, nil_subset _⟩⟩
  | cons next rest ih =>
    have hnext := hnames mem_cons_self
    have hrest : rest ⊆ dependentHeads store project key :=
      fun a ha => hnames (mem_cons_of_mem _ ha)
    unfold impactVisit
    split
    · next hseen =>
        obtain ⟨s', hvisit, hshowing', hsearch', hsub, hend⟩ :=
          ih hrest hroom hshowing hsearch
        refine ⟨s', hvisit, hshowing', hsearch', hsub, ?_⟩
        rcases hend with hfull | ⟨hmore, hall⟩
        · exact Or.inl hfull
        · exact Or.inr ⟨hmore, cons_subset.mpr ⟨hsub hseen, hall⟩⟩
    · next hnew =>
        obtain ⟨record, shown, hload, hshow, hrecord, hid⟩ := shown_of_found hsound hnext
        have hshowing' := hshowing.append (s.todo ++ [recordKey next])
          hload hshow hrecord hid
        have hsearch' := hsearch.find hnext hnew
        rw [hload]
        simp only [bind, Except.bind, hshow]
        split
        · next hfull =>
            exact ⟨_, rfl, hshowing', hsearch', subset_append_left _ _, Or.inl hfull⟩
        next hmore =>
          rw [length_append, length_singleton] at hmore
          have hroom' : (s.rows ++ [shown]).length < limit := by
            rw [length_append, length_singleton]
            omega
          obtain ⟨s', hvisit, hshowing'', hsearch'', hsub, hend⟩ :=
            ih hrest hroom' hshowing' hsearch'
          refine ⟨s', hvisit, hshowing'', hsearch'',
            fun a ha => hsub (mem_append_left _ ha), ?_⟩
          rcases hend with hfull | ⟨hless, hall⟩
          · exact Or.inl hfull
          · refine Or.inr ⟨hless, cons_subset.mpr ⟨?_, hall⟩⟩
            exact hsub (mem_append_right _ mem_cons_self)

/-- The search ends, at the limit or when it has found everything. -/
theorem impactLoop_ok {seed : DependencyKey} {limit : Nat} (hlimit : limit ≤ 200)
    (hroom : s.rows.length ≤ limit) (hshowing : Showing sha256 dump store project s)
    (hsearch : Searching (dependentHeads store project) recordKey seed s.todo s.seen) :
    ∃ s', impactLoop sha256 dump store project limit s = .ok s' ∧
      Showing sha256 dump store project s' ∧ s'.seen.Nodup ∧
      (∀ id ∈ s'.seen, Reached (dependentHeads store project) recordKey seed id) ∧
      (s'.rows.length = limit ∨
        ∀ id, Reached (dependentHeads store project) recordKey seed id → id ∈ s'.seen) := by
  generalize hn : s.ahead limit = n
  induction n using Nat.strongRecOn generalizing s with
  | ind n ih =>
    by_cases hless : s.rows.length < limit
    · rw [impactLoop]
      split
      · next htodo =>
          rw [htodo] at hsearch
          exact ⟨s, rfl, hshowing, hsearch.nodup, hsearch.sound,
            Or.inr (fun _ h => hsearch.complete h)⟩
      next key rest htodo =>
        rw [htodo] at hsearch
        have hshowing' : Showing sha256 dump store project { s with todo := rest } :=
          ⟨hshowing.names, hshowing.heads⟩
        obtain ⟨s₁, hvisit, hshowing₁, hsearch₁, _, hend⟩ :=
          impactVisit_ok hsound (s := { s with todo := rest })
            (take_subset 201 (dependentHeads store project key)) hless hshowing' hsearch
        have hahead :=
          impactVisit_ahead sha256 dump (s := { s with todo := rest }) hless hvisit
        rw [dif_pos hless]
        split
        · next e herror =>
            rw [dependentQuery, hvisit] at herror
            cases herror
        next s₂ hok =>
          rw [dependentQuery, hvisit] at hok
          cases hok
          rcases hend with hfull | ⟨hmore, hall⟩
          · have hstop : ¬ s₁.rows.length < limit := by omega
            exact ⟨s₁, impactLoop_full hstop, hshowing₁, hsearch₁.nodup, hsearch₁.sound,
              Or.inl hfull⟩
          have hdone := hsearch₁.done
            (dependentQuery_all hlimit hmore hshowing₁ hall)
          refine ih (s₁.ahead limit) ?_ (Nat.le_of_lt hmore) hshowing₁ hdone rfl
          rw [hahead, ← hn]
          simp only [ImpactSearch.ahead, htodo, length_cons]
          omega
    · have hfull : s.rows.length = limit := by omega
      exact ⟨s, impactLoop_full hless, hshowing, hsearch.nodup, hsearch.sound, Or.inl hfull⟩

end Search

/-- In every store that puts lead to, impact lists head records that depend on the seed, each
once, and when it does not say that it is partial it lists all of them. -/
theorem impact_closure (sha256 : Text → Text) (dump : KnowledgeRecord → Text)
    (library : Library) (calls : List KnowledgeCall) (request : ImpactRequest)
    {limit offset : Nat} (hproject : isIdentifier request.project = true)
    (hknown : request.project ∈
      ((knowledgeService sha256 dump).run (.fresh library) calls).library.projects)
    (hlimit : bound "limit" 50 200 request.limit = .ok limit)
    (hoffset : bound "offset" 0 10000000 request.offset = .ok offset) (hpositive : 0 < limit) :
    ∃ answer,
      impact sha256 dump ((knowledgeService sha256 dump).run (.fresh library) calls) request =
        .ok answer ∧ (answer.records.map (fun shown => shown.record.id)).Nodup ∧
      (∀ shown ∈ answer.records,
        loadRecord sha256 dump ((knowledgeService sha256 dump).run (.fresh library) calls)
            request.project shown.record.id 0 = .ok shown.record ∧
          Impacted sha256 dump ((knowledgeService sha256 dump).run (.fresh library) calls)
            request.project (request.type.getD "record", request.id) shown.record.id) ∧
      (answer.isPartial = false →
        ∀ id, Impacted sha256 dump ((knowledgeService sha256 dump).run (.fresh library) calls)
            request.project (request.type.getD "record", request.id) id →
          ∃ shown ∈ answer.records, shown.record.id = id) := by
  have hsound : ((knowledgeService sha256 dump).run (.fresh library) calls).Sound sha256 dump :=
    (KnowledgeStore.Sound.fresh library).run calls
  generalize (knowledgeService sha256 dump).run (.fresh library) calls = store at hknown hsound ⊢
  have hle : limit ≤ 200 := by
    unfold bound at hlimit
    split at hlimit
    · cases hlimit
      decide
    split at hlimit
    · cases hlimit
    · cases hlimit
      omega
  have hstart : Showing sha256 dump store request.project
      { todo := [(request.type.getD "record", request.id)], seen := [], rows := [] } :=
    ⟨rfl, fun _ h => by cases h⟩
  obtain ⟨s, hloop, hshowing, hnodup, hreached, hend⟩ :=
    impactLoop_ok hsound hle (Nat.zero_le _) hstart Searching.start
  refine ⟨{ records := s.rows, isPartial := s.rows.length = limit }, ?_, ?_, ?_, ?_⟩
  · unfold impact
    rw [if_neg (by simp [hproject]), if_neg (by simpa using hknown), hlimit]
    simp only [bind, Except.bind, hoffset, if_neg (Nat.ne_of_gt hpositive), hloop]
    rfl
  · rw [hshowing.names]
    exact hnodup
  · intro shown hmem
    refine ⟨(hshowing.heads shown hmem).1, (reached_iff hsound).mp (hreached _ ?_)⟩
    rw [← hshowing.names]
    exact mem_map_of_mem hmem
  intro hall id himpacted
  have hcomplete : id ∈ s.seen := by
    rcases hend with hfull | heverything
    · simp only [hfull, decide_true, Bool.true_eq_false] at hall
    · exact heverything id ((reached_iff hsound).mpr himpacted)
  rw [← hshowing.names] at hcomplete
  exact mem_map.mp hcomplete

/-- A question, and another one that depends on it. -/
def twoQuestions : List KnowledgeCall :=
  let ask := fun (id : Text) (dependencies : List DependencyInput) =>
    KnowledgeCall.put [] []
      { project := "p", id := some id, expectedRevision := 0, kind := "question"
        state := "observed", title := "why"
        scope := some [("area", .other)], body := some [], assumptions := some []
        dependencies := some dependencies, support := some [], counterevidence := some []
        author := "cli" } false none
  [ask "a" [], ask "b" [⟨"record", "a", none⟩]]

/-- What the first question impacts is answered. -/
theorem impact_closure_two : ∃ answer, impact (fun text => text) (fun _ => [])
        ((knowledgeService (fun text => text) (fun _ => [])).run
          (.fresh ⟨["p"], [], [], [], [], [], [], none⟩) twoQuestions)
        ⟨"p", "a", none, none, none⟩ = .ok answer ∧
      (answer.records.map (fun shown => shown.record.id)).Nodup := by
  obtain ⟨answer, hanswer, hnodup, _⟩ :=
    impact_closure (fun text => text) (fun _ => []) ⟨["p"], [], [], [], [], [], [], none⟩
      twoQuestions ⟨"p", "a", none, none, none⟩ (by decide) (by decide) rfl rfl
      (by decide)
  exact ⟨answer, hanswer, hnodup⟩

end Indago
