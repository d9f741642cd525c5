import IndagoRev.Workbench.PublishedIndex

/-!
# Coverage reports

What the index, the jobs and the runtime sessions of a project leave open, in one list of at
most as many gaps as a request allows.  A report counts the gaps of the index and of the jobs
against that list.  It does not count the sessions, which it adds last and of which it reads
twenty.
-/

namespace Indago.Coverage

open StdText JsonValues List

/-- A session of the runtime store, by what is read from its record. -/
structure ObservedSession where
  id : Text
  project : Text
  artifact : Text

structure CoverageStore where
  index : IndexTables
  jobs : List Job
  targets : List TargetRecord
  /-- The sessions, where there is a runtime store. -/
  sessions : Option (List ObservedSession)
  distinct : ((sessions.getD []).map ObservedSession.id).Nodup

/-- `brief`. -/
def brief : Json → Json
  | .obj fields => .obj (Json.insertField "native_payload_omitted" (.bool true)
      (fields.filter (fun f => f.1 ≠ "native")))
  | r => r

def limitationKeys : List Text :=
  ["semantic_completeness", "native_verdict", "resolution",
    "status", "coverage"]

def limitationTerms : List Text :=
  ["partial", "unknown", "unresolved", "unsupported",
    "opaque", "timeout"]

/-- `unresolved`. -/
def unresolved (r : Json) : Bool :=
  limitationKeys.any (fun key =>
    match r.get? key with
    | none => false
    | some v => limitationTerms.any (fun term => (find term (v.dump.map Char.toLower)).isSome))

def native (e : EntityRow) : Json := (e.record.get? "native").getD (.obj [])

def semanticGap (e : EntityRow) : Json :=
  .obj [("entity", brief e.record),
    ("interpretation",
      .str "backend reports a coverage limitation; not unreachability"),
    ("kind", .str "backend_semantic_gap"), ("native_coverage", native e)]

variable (r : RelationRow)

def endpointGap : Json :=
  .obj [("kind", .str "unresolved_relationship_endpoint"),
    ("relationship", brief r.record)]

def statusText : JobStatus → Text
  | .queued => "queued"
  | .running => "running"
  | .ended status => status.text

def jobGap (j : Job) : Json :=
  .obj [("job", .int j.id), ("kind", .str "incomplete_or_failed_job"),
    ("revision", .int j.revision), ("status", .str (statusText j.status))]

def functionGap (e : EntityRow) : Json :=
  .obj [("entity", brief e.record), ("interpretation", .str
      ("No address-selected analysis indexed for this producer; whole-image " ++
        "analysis may contain more detail").toList),
    ("kind", .str "no_current_addressed_analysis")]

variable (s : ObservedSession)

def sessionGap : Json :=
  .obj [("kind", .str "runtime_coverage_requires_review"),
    ("scope", .str ("bounded observer windows, code scopes and collection " ++
      "limits; inspect runtime observations").toList),
    ("session", .str s.id)]

section Queries

variable (store : CoverageStore) (p artifact : Text)

/-- The filter of a request, where an empty artifact matches everything. -/
def concerns (sha : Text) : Bool := artifact.isEmpty || sha = artifact

/-- The analysis heads that a row of a project and a revision is joined with. -/
def headsOf (revision : Nat) : List AnalysisHead :=
  store.index.heads.filter (fun h => h.project = p && h.revision = revision)

def currentEntities : List EntityRow :=
  (store.index.entities.flatMap (fun e =>
    if e.project = p && concerns artifact e.artifact then
      (headsOf store p e.revision).map (fun _ => e)
    else [])).insertionSort (fun a b => a.id ≤ b.id)

def currentRelations : List RelationRow :=
  (store.index.relations.flatMap (fun r =>
    if r.project = p && concerns artifact r.artifact then
      (headsOf store p r.revision).map (fun _ => r)
    else [])).insertionSort (fun a b => a.id ≤ b.id)

/-- Whether a relation that should lead somewhere has no target. -/
def openEnded : Bool :=
  (["call", "cfg_edge", "indirect_flow"] : List Text).contains r.kind &&
    r.target.isEmpty && r.targetAnchor.isEmpty

/-- The jobs that are not completed, the latest first. -/
def incompleteJobs : List Job :=
  (store.jobs.filter (fun j => j.project = p &&
    !(["completed", "complete"] : List Text).contains (statusText j.status) &&
    (artifact.isEmpty || store.targets.any (fun t =>
      t.id = j.target && t.project = p && t.sha256 = artifact)))).reverse

/-- Whether a current revision has analysed the address of an entity. -/
def addressed (e : EntityRow) : Bool :=
  store.index.revisions.any (fun r => r.project = e.project && r.artifact = e.artifact &&
    r.backend = e.backend && r.request.address = e.address &&
    !(["functions", "inventory", "inspect"] : List Text).contains r.request.operation &&
    store.index.heads.any (fun a => a.revision = r.revision))

def unaddressedFunctions : List EntityRow :=
  (currentEntities store p artifact).filter (fun e =>
    e.kind = "function" && !addressed store e)

def openSessions : List ObservedSession :=
  ((store.sessions.getD []).filter (fun s => s.project = p && concerns artifact s.artifact)).reverse

end Queries

/-- A request, with its bounds where it names them. -/
structure CoverageRequest where
  project : Text
  artifact : Text
  limit : Option Nat
  scanLimit : Option Nat

structure CoverageReport where
  gaps : List Json
  scannedEntities : Nat
  isPartial : Bool

/-- `add`. -/
def addGap (limit : Nat) (gaps : List Json) (gap : Json) : List Json :=
  if gaps.length < limit then gaps ++ [gap] else gaps

variable (store : CoverageStore) (p artifact : Text)

/-- The gaps that are counted: of the first entities, and of one row more than the list may
hold of every other query. -/
def detected (limit scan : Nat) : List Json :=
  (((currentEntities store p artifact).take scan).filter (fun e => unresolved (native e))).map
      semanticGap ++
    ((((currentRelations store p artifact).filter openEnded).take (limit + 1)).map endpointGap ++
      (((incompleteJobs store p artifact).take (limit + 1)).map jobGap ++
        ((unaddressedFunctions store p artifact).take (limit + 1)).map functionGap))

/-- `coverage`, without its inventory and its fixed texts. -/
def coverage (store : CoverageStore) (r : CoverageRequest) : Except String CoverageReport :=
  let limit := r.limit.getD 100
  let scan := r.scanLimit.getD 10000
  if 1000 < limit ∨ 100000 < scan then .error "invalid bound"
  else if limit = 0 ∨ scan = 0 then .error "positive coverage bounds required"
  else
    let entities := currentEntities store r.project r.artifact
    let found := detected store r.project r.artifact limit scan
    let gaps := (found ++ ((openSessions store r.project r.artifact).take 20).map
      sessionGap).foldl (addGap limit) []
    .ok {
      gaps
      scannedEntities := min entities.length scan
      isPartial := decide (scan < entities.length) || decide (gaps.length < found.length) }

/-- All gaps that a report should count. -/
def counted : List Json :=
  ((currentEntities store p artifact).filter (fun e => unresolved (native e))).map semanticGap ++
    (((currentRelations store p artifact).filter openEnded).map endpointGap ++
      ((incompleteJobs store p artifact).map jobGap ++
        (unaddressedFunctions store p artifact).map functionGap))

/-- A list of gaps shows everything that is open. -/
structure ShowsAll (store : CoverageStore) (p artifact : Text) (gaps : List Json) : Prop where
  entities : ∀ e ∈ currentEntities store p artifact, unresolved (native e) = true →
    semanticGap e ∈ gaps
  relations : ∀ r ∈ currentRelations store p artifact, openEnded r = true → endpointGap r ∈ gaps
  jobs : ∀ j ∈ incompleteJobs store p artifact, jobGap j ∈ gaps
  functions : ∀ e ∈ unaddressedFunctions store p artifact, functionGap e ∈ gaps
  sessions : ∀ s ∈ openSessions store p artifact, sessionGap s ∈ gaps

theorem foldl_addGap (limit : Nat) (new gaps : List Json) (h : gaps.length ≤ limit) :
    new.foldl (addGap limit) gaps = (gaps ++ new).take limit := by
  induction new generalizing gaps with
  | nil => rw [append_nil, take_of_length_le h]; rfl
  | cons gap new ih =>
    have hadd : addGap limit gaps gap = if gaps.length < limit then gaps ++ [gap] else gaps := rfl
    rw [foldl_cons, hadd]
    by_cases hroom : gaps.length < limit
    · rw [if_pos hroom, ih (gaps ++ [gap]) (by rw [length_append]; exact hroom),
        append_assoc]
      rfl
    · have hfull : gaps.length = limit := by omega
      rw [if_neg hroom, ih gaps h, ← hfull, take_left, take_left]

variable {store : CoverageStore} {p artifact : Text} {limit scan : Nat}

/-- Where everything fits, everything is detected. -/
theorem detected_eq (hscan : (currentEntities store p artifact).length ≤ scan)
    (h : (detected store p artifact limit scan).length ≤ limit) :
    detected store p artifact limit scan = counted store p artifact := by
  have htake : ∀ {α : Type} {rows : List α}, (rows.take (limit + 1)).length ≤ limit →
      rows.take (limit + 1) = rows := by
    intro α rows hrows
    rw [length_take] at hrows
    exact take_of_length_le (by omega)
  unfold detected at h ⊢
  rw [take_of_length_le hscan] at h ⊢
  simp only [length_append, length_map] at h
  rw [htake (by omega), htake (by omega), htake (by omega)]
  rfl

theorem detected_length (hscan : (currentEntities store p artifact).length ≤ scan)
    (h : (counted store p artifact).length ≤ limit) :
    (detected store p artifact limit scan).length ≤ limit := by
  unfold counted at h
  unfold detected
  rw [take_of_length_le hscan]
  simp only [length_append, length_map, length_take] at h ⊢
  omega

theorem showsAll_iff {gaps : List Json} : ShowsAll store p artifact gaps ↔
    (∀ gap ∈ counted store p artifact, gap ∈ gaps) ∧
      ∀ s ∈ openSessions store p artifact, sessionGap s ∈ gaps := by
  unfold counted
  simp only [mem_append, mem_map, mem_filter]
  constructor
  · intro h
    refine ⟨?_, h.sessions⟩
    rintro gap (⟨e, ⟨he, hopen⟩, rfl⟩ | ⟨r, ⟨hr, hopen⟩, rfl⟩ | ⟨j, hj, rfl⟩ | ⟨e, he, rfl⟩)
    · exact h.entities e he hopen
    · exact h.relations r hr hopen
    · exact h.jobs j hj
    · exact h.functions e he
  · rintro ⟨hcounted, hsessions⟩
    exact ⟨fun e he hopen => hcounted _ (.inl ⟨e, ⟨he, hopen⟩, rfl⟩),
      fun r hr hopen => hcounted _ (.inr (.inl ⟨r, ⟨hr, hopen⟩, rfl⟩)),
      fun j hj => hcounted _ (.inr (.inr (.inl ⟨j, hj, rfl⟩))),
      fun e he => hcounted _ (.inr (.inr (.inr ⟨e, he, rfl⟩))), hsessions⟩

/-- The gap of a session is none of the others. -/
theorem session_not_counted : sessionGap s ∉ counted store p artifact := by
  have hkind : ∀ gap ∈ counted store p artifact,
      gap.get? "kind" ≠ some (.str "runtime_coverage_requires_review") := by
    unfold counted
    simp only [mem_append, mem_map]
    rintro gap (⟨e, _, rfl⟩ | ⟨r, _, rfl⟩ | ⟨j, _, rfl⟩ | ⟨e, _, rfl⟩) h
    · exact absurd (Json.str.inj (Option.some.inj h)) (by decide)
    · exact absurd (Json.str.inj (Option.some.inj h)) (by decide)
    · exact absurd (Json.str.inj (Option.some.inj h)) (by decide)
    · exact absurd (Json.str.inj (Option.some.inj h)) (by decide)
  exact fun h => hkind _ h rfl

/-- Sessions are all shown exactly when they fit behind what is counted. -/
theorem sessions_shown_iff {room : Nat} :
    (∀ s ∈ openSessions store p artifact, sessionGap s ∈ counted store p artifact ++
      (((openSessions store p artifact).take 20).map sessionGap).take room) ↔
    (openSessions store p artifact).length ≤ 20 ∧
      (openSessions store p artifact).length ≤ room := by
  have hids : ((openSessions store p artifact).map sessionGap).Nodup := by
    have hnodup : ((openSessions store p artifact).map ObservedSession.id).Nodup := by
      unfold openSessions
      rw [map_reverse, nodup_reverse]
      exact store.distinct.sublist (filter_sublist.map _)
    have hmap : (openSessions store p artifact).map sessionGap =
        ((openSessions store p artifact).map ObservedSession.id).map
          (fun id => sessionGap ⟨id, [], []⟩) := by
      rw [map_map]
      rfl
    rw [hmap]
    refine hnodup.map (fun id id' h => ?_)
    have hfields := Json.obj.inj h
    simp only [List.cons.injEq, Prod.mk.injEq, Json.str.injEq] at hfields
    exact hfields.2.2.1.2
  constructor
  · intro h
    have hsub : (openSessions store p artifact).map sessionGap ⊆
        (((openSessions store p artifact).take 20).map sessionGap).take room := by
      intro gap hgap
      obtain ⟨s, hs, rfl⟩ := mem_map.mp hgap
      exact (mem_append.mp (h s hs)).resolve_left (session_not_counted s)
    have hlength := (hids.subperm hsub).length_le
    simp only [length_map, length_take] at hlength
    omega
  · rintro ⟨htwenty, hroom⟩ s hs
    rw [take_of_length_le htwenty, take_of_length_le (by rwa [length_map])]
    exact mem_append_right _ (mem_map_of_mem hs)

/-- A report that says it is whole shows everything exactly when the sessions are at most
twenty and fit in the list behind what is counted. -/
theorem coverage_iff {r : CoverageRequest} {report : CoverageReport}
    (h : coverage store r = .ok report) : (report.gaps.length ≤ r.limit.getD 100 ∧
      (report.isPartial = false → ShowsAll store r.project r.artifact report.gaps)) ↔
    ((currentEntities store r.project r.artifact).length ≤ r.scanLimit.getD 10000 →
      (counted store r.project r.artifact).length ≤ r.limit.getD 100 →
      (openSessions store r.project r.artifact).length ≤ 20 ∧
        (counted store r.project r.artifact).length +
          (openSessions store r.project r.artifact).length ≤ r.limit.getD 100) := by
  unfold coverage at h
  dsimp only at h
  split at h
  · cases h
  split at h
  · cases h
  cases h
  dsimp only
  rw [foldl_addGap _ _ [] (Nat.zero_le _), nil_append]
  generalize hlimit : r.limit.getD 100 = limit
  generalize hscan : r.scanLimit.getD 10000 = scan
  have hwhole : (decide (scan < (currentEntities store r.project r.artifact).length) ||
      decide (((detected store r.project r.artifact limit scan ++
        ((openSessions store r.project r.artifact).take 20).map sessionGap).take limit).length <
        (detected store r.project r.artifact limit scan).length)) = false ↔
      (currentEntities store r.project r.artifact).length ≤ scan ∧
        (counted store r.project r.artifact).length ≤ limit := by
    rw [Bool.or_eq_false_iff, decide_eq_false_iff_not, decide_eq_false_iff_not, Nat.not_lt,
      length_take, length_append]
    refine and_congr_right (fun hle => ?_)
    constructor
    · intro hless
      have hfits : (detected store r.project r.artifact limit scan).length ≤ limit := by omega
      rw [← detected_eq hle hfits]
      exact hfits
    · intro hfits
      have hfound : (detected store r.project r.artifact limit scan).length ≤ limit :=
        detected_length hle hfits
      omega
  rw [hwhole]
  have hgaps : ∀ hle : (currentEntities store r.project r.artifact).length ≤ scan,
      ∀ hfits : (counted store r.project r.artifact).length ≤ limit,
      (ShowsAll store r.project r.artifact ((detected store r.project r.artifact limit scan ++
        ((openSessions store r.project r.artifact).take 20).map sessionGap).take limit) ↔
        (openSessions store r.project r.artifact).length ≤ 20 ∧
          (counted store r.project r.artifact).length +
            (openSessions store r.project r.artifact).length ≤ limit) := by
    intro hle hfits
    rw [detected_eq hle (detected_length hle hfits), take_append,
      take_of_length_le hfits, showsAll_iff, sessions_shown_iff]
    constructor
    · rintro ⟨_, htwenty, hroom⟩
      exact ⟨htwenty, by omega⟩
    · rintro ⟨htwenty, hroom⟩
      exact ⟨fun gap hgap => mem_append_left _ hgap, htwenty, by omega⟩
  constructor
  · rintro ⟨_, hshows⟩ hle hfits
    exact (hgaps hle hfits).mp (hshows ⟨hle, hfits⟩)
  · intro hsessions
    refine ⟨length_take_le _ _, ?_⟩
    rintro ⟨hle, hfits⟩
    exact (hgaps hle hfits).mpr (hsessions hle hfits)

/-- Two sessions, and nothing else. -/
def twoSessions : CoverageStore where
  index := .empty
  jobs := []
  targets := []
  sessions := some [⟨"a", "p", []⟩, ⟨"b", "p", []⟩]
  distinct := by decide

def oneGap : CoverageRequest := ⟨"p", [], some 1, none⟩

def oneGapReport : CoverageReport := ⟨[sessionGap ⟨"b", "p", []⟩], 0, false⟩

theorem oneGap_report : coverage twoSessions oneGap = .ok oneGapReport := rfl

def twoGaps : CoverageRequest := ⟨"p", [], some 2, none⟩

def twoGapsReport : CoverageReport :=
  ⟨[sessionGap ⟨"b", "p", []⟩, sessionGap ⟨"a", "p", []⟩], 0, false⟩

theorem twoGaps_report : coverage twoSessions twoGaps = .ok twoGapsReport := rfl

/-- There is no room for the second session among one gap, and there is among two. -/
theorem coverage_iff_twoSessions : ¬ (oneGapReport.gaps.length ≤ 1 ∧
      (oneGapReport.isPartial = false → ShowsAll twoSessions "p" [] oneGapReport.gaps)) ∧
    twoGapsReport.gaps.length ≤ 2 ∧
      (twoGapsReport.isPartial = false → ShowsAll twoSessions "p" [] twoGapsReport.gaps) := by
  constructor
  · intro h
    have hfits := (coverage_iff oneGap_report).mp h (by decide) (by decide)
    exact absurd hfits (by decide)
  · exact (coverage_iff twoGaps_report).mpr (fun _ _ => by decide)

/-- The report shows one of the sessions, and says it is whole. -/
theorem sessions_left_out : ¬ ∀ (store : CoverageStore) (r : CoverageRequest)
    (report : CoverageReport), coverage store r = .ok report →
    report.gaps.length ≤ r.limit.getD 100 ∧
      (report.isPartial = false → ShowsAll store r.project r.artifact report.gaps) := by
  intro h
  have hshows := (h twoSessions oneGap oneGapReport oneGap_report).2 rfl
  have hfirst := hshows.sessions ⟨"a", "p", []⟩ (mem_cons_of_mem _ mem_cons_self)
  have hsame := congrArg (Json.get? · "session") (mem_singleton.mp hfirst)
  exact absurd (Json.str.inj (Option.some.inj hsame)) (by decide)

end Indago.Coverage
