import IndagoRev.Workbench.Knowledge

/-!
# The history of knowledge records

Records are only ever appended. A put that commits appends one row: the next
revision of its record, with dependencies on rows that were there before it. So
the position of a row orders the dependency graph, and a put that names the
head it replaces can commit only once.

Main results: `KnowledgeStore.Sound.exec` for one call, `knowledge_history` for a run.
-/

namespace Indago

open StdText Tables Transactions List

variable {sha256 : Text → Text} {dump : KnowledgeRecord → Text}
variable {store store' : KnowledgeStore} {project id : Text}

variable {record : KnowledgeRecord} {revision : Nat}

theorem loadRecord_ok (h : loadRecord sha256 dump store project id revision = .ok record) :
    ∃ n row, (if revision = 0 then store.head project id else some revision) = some n ∧
      store.record project id n = some row ∧ row.record = record := by
  unfold loadRecord at h
  cases hn : (if revision = 0 then store.head project id else some revision) with
  | none => simp [hn] at h
  | some n =>
    cases hrow : store.record project id n with
    | none => simp [hn, hrow] at h
    | some row =>
      simp only [hn, Option.bind_some, hrow] at h
      split at h
      · cases h
      · exact ⟨n, row, rfl, hrow, Except.ok.inj h⟩

variable {d : Dependency} {input : DependencyInput}

theorem resolve_ok (h : resolve sha256 dump store project input = .ok d) :
    currentPin sha256 dump store project d.type d.id = .ok d.pin := by
  unfold resolve at h
  cases htype : DependencyType.read input.type with
  | none => simp [htype] at h
  | some type =>
    simp only [htype, except_bind_ok] at h
    obtain ⟨pin, hpin, h⟩ := h
    split at h
    · cases h
    · cases h
      exact hpin

/-- What a put knows of each dependency it stores. -/
def Pinned (sha256 : Text → Text) (dump : KnowledgeRecord → Text) (store : KnowledgeStore)
    (project id : Text) (d : Dependency) : Prop :=
  currentPin sha256 dump store project d.type d.id = .ok d.pin ∧ ¬ (d.type = .record ∧ d.id = id)

theorem addDependency_ok {kept kept' : List Dependency}
    (h : addDependency sha256 dump store project id kept input = .ok kept')
    (hkept : ∀ d ∈ kept, Pinned sha256 dump store project id d) :
    ∀ d ∈ kept', Pinned sha256 dump store project id d := by
  simp only [addDependency, except_bind_ok] at h
  obtain ⟨d, hd, h⟩ := h
  split at h
  · cases h
  next hself =>
    split at h
    · cases h
      exact hkept
    cases h
    intro other hother
    rcases mem_append.mp hother with hold | hnew
    · exact hkept other hold
    · rw [mem_singleton.mp hnew]
      exact ⟨resolve_ok hd, hself⟩

variable {origin : Option PublicationOrigin}

theorem buildRecord_ok {request : PutRequest} {actual : Nat} {createdAt : Text} {internal : Bool}
    (h : buildRecord sha256 dump store request id actual createdAt internal origin = .ok record) :
    record.project = request.project ∧ record.id = id ∧ record.revision = actual + 1 ∧
      record.harnessOrigin = origin ∧
      ∀ d ∈ record.dependencies, Pinned sha256 dump store request.project id d := by
  simp only [buildRecord, except_bind_ok] at h
  obtain ⟨_, _, named, _, deps, hdeps, h⟩ := h
  have hpinned : ∀ d ∈ deps, Pinned sha256 dump store request.project id d :=
    except_foldlM_keeps (fun deps => ∀ d ∈ deps, Pinned sha256 dump store request.project id d)
      named (fun _ _ _ _ hkept hadd => addDependency_ok hadd hkept) (by simp) hdeps
  split at h
  · cases h
  split at h
  · cases h
    exact ⟨rfl, rfl, rfl, rfl, hpinned⟩
  · cases h

/-- What a committed put found and what it wrote. -/
structure Put (sha256 : Text → Text) (dump : KnowledgeRecord → Text) (request : PutRequest)
    (origin : Option PublicationOrigin) (store : KnowledgeStore) (record : KnowledgeRecord)
    (store' : KnowledgeStore) : Prop where
  project : record.project = request.project
  identifier : isIdentifier record.id = true
  expected : request.expectedRevision = ((store.head record.project record.id).getD 0 : Nat)
  revision : record.revision = (store.head record.project record.id).getD 0 + 1
  origin : record.harnessOrigin = origin
  pinned : ∀ d ∈ record.dependencies, Pinned sha256 dump store record.project record.id d
  absent : store.record record.project record.id record.revision = none
  written : store' = store.published sha256 dump record

/-- What a put that commits has checked and appended. -/
theorem putRecord_ok {freshId createdAt : Text} {request : PutRequest} {internal : Bool}
    (h : putRecord sha256 dump freshId createdAt request internal origin store =
      .ok (record, store')) : Put sha256 dump request origin store record store' ∧
      record.id = request.id.getD freshId := by
  simp only [putRecord, bind_ok, get_ok] at h
  obtain ⟨_, _, hget, h⟩ := h
  cases hget
  split at h
  · exact absurd h throw_ok
  split at h
  · exact absurd h throw_ok
  split at h
  · exact absurd h throw_ok
  next hid =>
    split at h
    · exact absurd h throw_ok
    split at h
    · exact absurd h throw_ok
    next hexpected =>
      cases hbuild : buildRecord sha256 dump store request (request.id.getD freshId)
          ((store.head request.project (request.id.getD freshId)).getD 0) createdAt
          internal origin with
      | error e =>
        rw [hbuild] at h
        exact absurd h throw_ok
      | ok built =>
        simp only [hbuild] at h
        split at h
        · exact absurd h throw_ok
        split at h
        · exact absurd h throw_ok
        next habsent =>
          simp only [bind_ok, set_ok, pure_ok, Prod.mk.injEq] at h
          obtain ⟨_, _, ⟨_, rfl⟩, rfl, rfl⟩ := h
          obtain ⟨hproject, hname, hrevision, horigin, hpinned⟩ :=
            buildRecord_ok hbuild
          refine ⟨?_, hname⟩
          rw [← hproject, ← hname] at hpinned hrevision
          exact {
            project := hproject
            identifier := by
              rw [hname]
              simpa using hid
            expected := by
              rw [hname, hproject]
              simpa using hexpected
            revision := hrevision
            origin := horigin
            pinned := hpinned
            absent := by simpa using habsent
            written := rfl }

theorem head_withHead {project' id' : Text} :
    (store.withHead project id revision).head project' id' =
      if (project', id') = (project, id) then some revision else store.head project' id' := by
  have hkey : ∀ row : HeadRow, HeadRow.name { row with revision := revision } = row.name :=
    fun _ => rfl
  unfold KnowledgeStore.withHead KnowledgeStore.head
  cases hhead : row HeadRow.name (project, id) store.heads with
  | some found =>
    simp only [Option.map_some]
    by_cases hsame : (project', id') = (project, id)
    · rw [hsame, row_rewrite_self hkey, hhead]
      simp
    · rw [row_rewrite_other hkey hsame, if_neg hsame]
  | none =>
    simp only [Option.map_none]
    by_cases hsame : (project', id') = (project, id)
    · rw [hsame, if_pos rfl, row_insert, hhead]
      simp [HeadRow.name]
    · have hother : HeadRow.name ⟨project, id, revision⟩ ≠ (project', id') := Ne.symm hsame
      rw [if_neg hsame, row_insert, if_neg hother, Option.or_none]

theorem heads_withHead (h : (store.heads.map HeadRow.name).Nodup) :
    ((store.withHead project id revision).heads.map HeadRow.name).Nodup := by
  unfold KnowledgeStore.withHead
  cases hhead : row HeadRow.name (project, id) store.heads with
  | some found =>
    have hkey : ∀ row : HeadRow, HeadRow.name { row with revision := revision } = row.name :=
      fun _ => rfl
    simp only [KnowledgeStore.head, hhead, Option.map_some]
    rw [keys_rewrite hkey]
    exact h
  | none =>
    simp only [KnowledgeStore.head, hhead, Option.map_none, map_append]
    rw [nodup_append]
    refine ⟨h, nodup_singleton _, ?_⟩
    intro name hname other hother
    obtain ⟨found, hfound, rfl⟩ := mem_map.mp hname
    have hother' : other = (project, id) := by simpa [HeadRow.name] using hother
    rw [hother']
    exact row_none_iff.mp hhead found hfound

variable (record : KnowledgeRecord)

@[simp] theorem records_published : (store.published sha256 dump record).records = store.records ++
      [⟨record.project, record.id, record.revision, record.kind, record, sha256 (dump record)⟩] :=
  rfl

theorem head_published : (store.published sha256 dump record).head project id =
      if (project, id) = (record.project, record.id) then some record.revision
      else store.head project id :=
  head_withHead

theorem revisions_published : (store.published sha256 dump record).revisions project id =
      store.revisions project id ++
        (if (project, id) = (record.project, record.id) then [record.revision] else []) := by
  simp only [KnowledgeStore.revisions, records_published, filter_append, map_append]
  by_cases hsame : (project, id) = (record.project, record.id)
  · obtain ⟨rfl, rfl⟩ := Prod.mk.inj hsame
    simp
  have hother : ¬ (record.project = project ∧ record.id = id) := by
    intro ⟨hproject, hid⟩
    exact hsame (by rw [hproject, hid])
  simp [hsame, hother]

/-- The rows of `wb_dependencies` of a revision. -/
def RecordRow.dependencyRows (row : RecordRow) : List DependencyRow :=
  row.record.dependencies.map (⟨row.project, row.id, row.revision, ·⟩)

/-- What a stored row says about itself. -/
structure RecordRow.Sound (sha256 : Text → Text) (dump : KnowledgeRecord → Text)
    (row : RecordRow) : Prop where
  project : row.record.project = row.project
  id : row.record.id = row.id
  revision : row.record.revision = row.revision
  positive : 1 ≤ row.revision
  sha : row.sha = sha256 (dump row.record)
  identifier : isIdentifier row.id = true

/-- A dependency on evidence stays resolved: evidence rows stay, and so do the
records of the runtime. -/
def Kept (sha256 : Text → Text) (library : Library) (project : Text) (d : Dependency) : Prop :=
  match d.type with
  | .evidence => (row AnalysisRow.name (project, d.id) library.evidence).isSome = true
  | .observation => pinRuntime sha256 library false project d.id = .ok d.pin
  | .epoch => pinRuntime sha256 library true project d.id = .ok d.pin
  | _ => True

structure KnowledgeStore.Sound (sha256 : Text → Text) (dump : KnowledgeRecord → Text)
    (store : KnowledgeStore) : Prop where
  contiguous : ∀ project id,
    store.revisions project id = List.range' 1 ((store.head project id).getD 0)
  heads : (store.heads.map HeadRow.name).Nodup
  headed : ∀ project id n, store.head project id = some n → 1 ≤ n
  distinct : (store.records.map RecordRow.name).Nodup
  rows : ∀ row ∈ store.records, row.Sound sha256 dump
  /-- A record dependency names a row that was there before. -/
  earlier : ∀ (n : Nat) (row : RecordRow), store.records[n]? = some row →
    ∀ d ∈ row.record.dependencies, d.type = .record →
      ∃ m < n, ∃ old, store.records[m]? = some old ∧ old.project = row.project ∧
        old.id = d.id ∧ d.pin = decimal old.revision
  kept : ∀ row ∈ store.records, ∀ d ∈ row.record.dependencies,
    Kept sha256 store.library row.project d
  table : store.dependencies = store.records.flatMap RecordRow.dependencyRows

/-- Rows are only appended, and heads only move on. -/
structure KnowledgeStore.Grows (store store' : KnowledgeStore) : Prop where
  records : store.records <+: store'.records
  heads : ∀ project id, (store.head project id).getD 0 ≤ (store'.head project id).getD 0

theorem KnowledgeStore.Grows.refl (store : KnowledgeStore) : store.Grows store :=
  ⟨prefix_refl _, fun _ _ => Nat.le_refl _⟩

theorem KnowledgeStore.Grows.trans {a b c : KnowledgeStore} (h : a.Grows b) (h' : b.Grows c) :
    a.Grows c :=
  ⟨h.records.trans h'.records, fun project id => Nat.le_trans (h.heads project id) (h'.heads project id)⟩

namespace KnowledgeStore.Sound

variable (h : store.Sound sha256 dump)
include h

/-- A revision is found under its name. -/
theorem row_of_mem {found : RecordRow} (hfound : found ∈ store.records) :
    store.record found.project found.id found.revision = some found :=
  Tables.row_of_mem h.distinct hfound

theorem head_stored {n : Nat} (hhead : store.head project id = some n) (hn : 1 ≤ n) :
    ∃ found, store.record project id n = some found := by
  have hmem : n ∈ store.revisions project id := by
    rw [h.contiguous, hhead, mem_range'_1]
    simp
    omega
  obtain ⟨found, hfound, hrevision⟩ := mem_map.mp hmem
  obtain ⟨hstored, hname⟩ := mem_filter.mp hfound
  simp only [decide_eq_true_eq] at hname
  refine ⟨found, ?_⟩
  rw [← hname.1, ← hname.2, ← hrevision]
  exact h.row_of_mem hstored

end KnowledgeStore.Sound

theorem currentPin_record (htype : d.type = .record)
    (h : currentPin sha256 dump store project d.type d.id = .ok d.pin) :
    ∃ record, loadRecord sha256 dump store project d.id 0 = .ok record ∧
      d.pin = decimal record.revision := by
  rw [htype] at h
  simp only [currentPin, except_bind_ok] at h
  obtain ⟨record, hload, h⟩ := h
  exact ⟨record, hload, (Except.ok.inj h).symm⟩

theorem Pinned.kept (h : Pinned sha256 dump store project id d) :
    Kept sha256 store.library project d := by
  obtain ⟨hpin, _⟩ := h
  unfold Kept
  cases htype : d.type with
  | record | artifact | entity | revision => trivial
  | evidence =>
    simp only [htype, currentPin, pinAnalysis] at hpin
    cases hrow : row AnalysisRow.name (project, d.id) store.library.evidence with
    | none => simp [hrow] at hpin
    | some found => rfl
  | observation =>
    rw [htype] at hpin
    exact hpin
  | epoch =>
    rw [htype] at hpin
    exact hpin

namespace Put

variable {request : PutRequest} {origin : Option PublicationOrigin} {record : KnowledgeRecord}

theorem sound (hput : Put sha256 dump request origin store record store')
    (h : store.Sound sha256 dump) : store'.Sound sha256 dump := by
  rw [hput.written]
  constructor
  · intro project id
    rw [revisions_published, head_published, h.contiguous]
    by_cases hsame : (project, id) = (record.project, record.id)
    · obtain ⟨rfl, rfl⟩ := Prod.mk.inj hsame
      rw [if_pos rfl, if_pos rfl, hput.revision, Option.getD_some, range'_1_concat,
        Nat.add_comm 1]
    · rw [if_neg hsame, if_neg hsame, append_nil]
  · exact heads_withHead h.heads
  · intro project id n hn
    rw [head_published] at hn
    split at hn
    · have hrevision := hput.revision
      have hsame := Option.some.inj hn
      omega
    · exact h.headed project id n hn
  · rw [records_published, map_append, nodup_append]
    refine ⟨h.distinct, nodup_singleton _, ?_⟩
    intro name hname other hother
    obtain ⟨found, hfound, rfl⟩ := mem_map.mp hname
    have hother' : other = (record.project, record.id, record.revision) := by
      simpa [RecordRow.name] using hother
    rw [hother']
    exact row_none_iff.mp hput.absent found hfound
  · intro found hfound
    rcases mem_append.mp hfound with hold | hnew
    · exact h.rows found hold
    rw [mem_singleton.mp hnew]
    exact {
      project := rfl
      id := rfl
      revision := rfl
      positive := by
        show 1 ≤ record.revision
        rw [hput.revision]
        omega
      sha := rfl
      identifier := hput.identifier }
  · intro n found hfound d hd htype
    rw [records_published] at hfound
    by_cases hlt : n < store.records.length
    · rw [getElem?_append_left hlt] at hfound
      obtain ⟨m, hm, old, hold, hrest⟩ := h.earlier n found hfound d hd htype
      refine ⟨m, hm, old, ?_, hrest⟩
      rw [records_published, getElem?_append_left (Nat.lt_trans hm hlt)]
      exact hold
    -- the new row, whose dependency was loaded from the rows before it
    have hn : n = store.records.length := by
      have hle := (List.getElem?_eq_some_iff.mp hfound).1
      simp at hle
      omega
    rw [hn, getElem?_concat_length] at hfound
    obtain rfl := Option.some.inj hfound
    obtain ⟨loaded, hload, hpin⟩ := currentPin_record htype (hput.pinned d hd).1
    obtain ⟨_, old, _, hold, rfl⟩ := loadRecord_ok hload
    obtain ⟨m, hm, hget⟩ := mem_iff_getElem.mp (row_some_mem hold)
    have hname := row_some_key hold
    simp only [RecordRow.name, Prod.mk.injEq] at hname
    refine ⟨m, by omega, old, ?_, hname.1, hname.2.1, ?_⟩
    · rw [records_published, getElem?_append_left hm, getElem?_eq_getElem hm, hget]
    · rw [hpin, (h.rows old (row_some_mem hold)).revision]
  · intro found hfound d hd
    rcases mem_append.mp hfound with hold | hnew
    · exact h.kept found hold d hd
    · rw [mem_singleton.mp hnew] at hd ⊢
      exact (hput.pinned d hd).kept
  · have htable := h.table
    simp only [KnowledgeStore.published, flatMap_append, htable]
    simp [RecordRow.dependencyRows]

theorem grows (hput : Put sha256 dump request origin store record store') : store.Grows store' := by
  rw [hput.written]
  constructor
  · exact prefix_append _ _
  intro project id
  rw [head_published]
  split
  · next hsame =>
      obtain ⟨rfl, rfl⟩ := Prod.mk.inj hsame
      rw [hput.revision, Option.getD_some]
      omega
  · exact Nat.le_refl _

end Put

theorem pinRuntime_append {rows : List RuntimeRow} {library : Library} {epoch : Bool} {pin : Text}
    (r : RuntimeRow) (hrows : library.runtime.getD [] = rows)
    (h : pinRuntime sha256 library epoch project id = .ok pin) :
    pinRuntime sha256 { library with runtime := some (rows ++ [r]) } epoch project id = .ok pin := by
  unfold pinRuntime at h ⊢
  cases hruntime : library.runtime with
  | none => simp [hruntime] at h
  | some before =>
    rw [hruntime, Option.getD_some] at hrows
    subst hrows
    simp only [hruntime] at h
    cases hrow : row RuntimeRow.name (epoch, project, id) before with
    | none => simp [Library.runtimeRow, hruntime, hrow] at h
    | some found =>
      simpa [Library.runtimeRow, hruntime, hrow, row_insert] using h

/-- Other commands keep what evidence and runtime captures a record depends on. -/
theorem Library.change_keeps {library library' : Library} {change : LibraryChange}
    (h : library.change change = .ok library')
    (hkept : Kept sha256 library project d) : Kept sha256 library' project d := by
  cases change with
  | project | target | objects | index =>
    cases h
    exact hkept
  | evidence r =>
    simp only [Library.change] at h
    split at h
    · cases h
    cases h
    unfold Kept at hkept ⊢
    cases htype : d.type with
    | evidence =>
      simp only [htype] at hkept ⊢
      rw [row_append, Option.isSome_or, hkept]
      rfl
    | record | artifact | entity | revision => trivial
    | observation | epoch =>
      simp only [htype] at hkept ⊢
      exact hkept
  | runtime r =>
    simp only [Library.change] at h
    split at h
    · cases h
    cases h
    unfold Kept at hkept ⊢
    cases htype : d.type with
    | observation | epoch =>
      simp only [htype] at hkept ⊢
      exact pinRuntime_append r rfl hkept
    | record | artifact | entity | revision => trivial
    | evidence =>
      simp only [htype] at hkept ⊢
      exact hkept

variable {answer : KnowledgeAnswer}

/-- A call that commits is a put or a change of the library. -/
theorem exec_knowledge {call : KnowledgeCall}
    (h : (knowledgeService sha256 dump).exec call store = .ok (answer, store')) :
    (∃ freshId createdAt request internal origin record,
        call = .put freshId createdAt request internal origin ∧
        record.id = request.id.getD freshId ∧
        answer = .put (decorated sha256 dump store' request.project record) ∧
        Put sha256 dump request origin store record store') ∨
      ∃ change library, call = .library change ∧ store.library.change change = .ok library ∧
        store' = { store with library := library } := by
  cases call with
  | put freshId createdAt request internal origin =>
    left
    simp only [knowledgeService] at h
    cases hput : putRecord sha256 dump freshId createdAt request internal origin store with
    | error e => simp [hput] at h
    | ok result =>
      simp only [hput, Except.ok.injEq, Prod.mk.injEq] at h
      obtain ⟨hanswer, hstore⟩ := h
      rw [← hstore]
      obtain ⟨hwritten, hid⟩ := putRecord_ok hput
      exact ⟨freshId, createdAt, request, internal, origin, result.1, rfl, hid,
        hanswer.symm, hwritten⟩
  | library change =>
    right
    simp only [knowledgeService] at h
    cases hchange : store.library.change change with
    | error e => simp [hchange] at h
    | ok library =>
      simp only [hchange, Except.ok.injEq, Prod.mk.injEq] at h
      exact ⟨change, library, rfl, hchange, h.2.symm⟩

/-- A call keeps the invariant, and lets the store grow. -/
theorem KnowledgeStore.Sound.exec (h : store.Sound sha256 dump) {call : KnowledgeCall}
    (hexec : (knowledgeService sha256 dump).exec call store = .ok (answer, store')) :
    store'.Sound sha256 dump ∧ store.Grows store' := by
  rcases exec_knowledge hexec with ⟨_, _, _, _, _, _, _, _, _, hput⟩ | ⟨change, library, _, hchange, rfl⟩
  · exact ⟨hput.sound h, hput.grows⟩
  refine ⟨?_, ⟨prefix_refl _, fun _ _ => Nat.le_refl _⟩⟩
  exact {
    contiguous := h.contiguous
    heads := h.heads
    headed := h.headed
    distinct := h.distinct
    rows := h.rows
    earlier := h.earlier
    kept := fun found hfound d hd => Library.change_keeps hchange (h.kept found hfound d hd)
    table := h.table }

theorem KnowledgeStore.Sound.fresh (library : Library) :
    (KnowledgeStore.fresh library).Sound sha256 dump := by
  constructor <;> simp [KnowledgeStore.fresh, KnowledgeStore.revisions, KnowledgeStore.head]

theorem KnowledgeStore.Sound.run (h : store.Sound sha256 dump) (calls : List KnowledgeCall) :
    ((knowledgeService sha256 dump).run store calls).Sound sha256 dump :=
  Service.run_keeps (fun _ _ _ _ hs hexec => (hs.exec hexec).1) calls h

theorem KnowledgeStore.Sound.run_grows (h : store.Sound sha256 dump) (calls : List KnowledgeCall) :
    store.Grows ((knowledgeService sha256 dump).run store calls) := by
  have hstep : ∀ s call answer s', s.Sound sha256 dump ∧ store.Grows s →
      (knowledgeService sha256 dump).exec call s = .ok (answer, s') →
      s'.Sound sha256 dump ∧ store.Grows s' := by
    intro s call answer s' ⟨hsound, hgrows⟩ hexec
    exact ⟨(hsound.exec hexec).1, hgrows.trans (hsound.exec hexec).2⟩
  exact (@Service.run_keeps _ _ _ _ (knowledgeService sha256 dump) store
    (fun s => s.Sound sha256 dump ∧ store.Grows s) hstep calls ⟨h, .refl store⟩).2

section Loops

variable {check : KnowledgeRecord → Traversal → Except String (List Reason × Traversal)}
variable {d : Dependency} {tr tr' : Traversal}

theorem dependencyReasons_record {current pinned : KnowledgeRecord} {inherited : List Reason}
    (htype : d.type = .record) (hcurrent : loadRecord sha256 dump store project d.id 0 = .ok current)
    (hpinned : loadRecord sha256 dump store project d.id (ofDecimal d.pin) = .ok pinned)
    (hcheck : check pinned tr = .ok (inherited, tr')) :
    dependencyReasons sha256 dump store project check d tr =
      .ok ((if decimal current.revision ≠ d.pin then [.recordRevised d] else []) ++
        (if inherited.isEmpty then [] else [.upstreamStale d inherited]), tr') := by
  simp only [dependencyReasons, htype, hcurrent, hpinned, hcheck, bind, Except.bind]
  rfl

theorem dependencyReasons_leaf (htype : d.type ≠ .record) :
    dependencyReasons sha256 dump store project check d tr =
      .ok (leafReasons sha256 dump store project d, tr) := by
  unfold dependencyReasons
  split
  · next heq => exact absurd heq htype
  · rfl

end Loops

namespace KnowledgeStore.Sound

variable (h : store.Sound sha256 dump)
include h

theorem load_row {found : RecordRow} (hfound : found ∈ store.records) :
    loadRecord sha256 dump store found.project found.id found.revision = .ok found.record := by
  have hsound := h.rows found hfound
  have hpositive : found.revision ≠ 0 := by
    have hle := hsound.positive
    omega
  simp [loadRecord, hpositive, h.row_of_mem hfound, hsound.sha]

/-- A record with a row has a head, whose row is loaded for revision 0. -/
theorem load_head {found : RecordRow} (hfound : found ∈ store.records) :
    ∃ n last, store.head found.project found.id = some n ∧ last ∈ store.records ∧
      last.name = (found.project, found.id, n) ∧
      loadRecord sha256 dump store found.project found.id 0 = .ok last.record := by
  have hmem : found.revision ∈ store.revisions found.project found.id :=
    mem_map_of_mem (mem_filter.mpr ⟨hfound, by simp⟩)
  rw [h.contiguous, mem_range'_1] at hmem
  cases hhead : store.head found.project found.id with
  | none =>
    rw [hhead, Option.getD_none] at hmem
    omega
  | some n =>
    rw [hhead, Option.getD_some] at hmem
    obtain ⟨last, hlast⟩ := h.head_stored hhead (by omega)
    have hmem' := row_some_mem hlast
    refine ⟨n, last, rfl, hmem', row_some_key hlast, ?_⟩
    simp [loadRecord, hhead, hlast, (h.rows last hmem').sha]

theorem load_dependency {found : RecordRow} (hfound : found ∈ store.records)
    (hd : d ∈ found.record.dependencies) (htype : d.type = .record) :
    ∃ n last old, store.head found.project d.id = some n ∧
      loadRecord sha256 dump store found.project d.id 0 = .ok last ∧ last.revision = n ∧
      old ∈ store.records ∧ old.project = found.project ∧ old.id = d.id ∧
      d.pin = decimal old.revision ∧
      loadRecord sha256 dump store found.project d.id (ofDecimal d.pin) = .ok old.record := by
  obtain ⟨i, hi, rfl⟩ := mem_iff_getElem.mp hfound
  obtain ⟨m, _, old, hold, hproject, hid, hpin⟩ :=
    h.earlier i _ (getElem?_eq_getElem hi) d hd htype
  have hmem := mem_of_getElem? hold
  obtain ⟨n, last, hhead, hlast, hname, hload⟩ := h.load_head hmem
  have hpinned := h.load_row hmem
  simp only [RecordRow.name, Prod.mk.injEq] at hname
  rw [hproject, hid] at hhead hload hpinned
  refine ⟨n, last.record, old, hhead, hload, ?_, hmem, hproject, hid, hpin, ?_⟩
  · rw [(h.rows last hlast).revision, hname.2.2]
  · rw [hpin, ofDecimal_decimal]
    exact hpinned

/-- The freshness of a stored record can always be computed. -/
theorem check_ok (levels : Nat) {found : RecordRow} (hfound : found ∈ store.records)
    (tr : Traversal) :
    ∃ result, checkFreshness sha256 dump store found.project levels found.record tr =
      .ok result := by
  induction levels generalizing found tr with
  | zero => exact ⟨_, rfl⟩
  | succ levels ih =>
    have hloop : ∀ (deps : List Dependency) (reasons : List Reason) (tr : Traversal),
        (∀ d ∈ deps, d ∈ found.record.dependencies) →
        ∃ result, checkDependencies sha256 dump store found.project
          (checkFreshness sha256 dump store found.project levels) deps reasons tr =
            .ok result := by
      intro deps
      induction deps with
      | nil =>
        intro reasons tr _
        exact ⟨_, rfl⟩
      | cons d rest ihdeps =>
        intro reasons tr hdeps
        have hone : ∃ result, dependencyReasons sha256 dump store found.project
            (checkFreshness sha256 dump store found.project levels) d tr = .ok result := by
          by_cases htype : d.type = .record
          · obtain ⟨n, last, old, _, hlast, _, hold, hproject, _, _, hpinned⟩ :=
              h.load_dependency hfound (hdeps d (by simp)) htype
            obtain ⟨result, hresult⟩ := ih hold tr
            rw [hproject] at hresult
            exact ⟨_, dependencyReasons_record htype hlast hpinned hresult⟩
          · exact ⟨_, dependencyReasons_leaf htype⟩
        obtain ⟨result, hresult⟩ := hone
        rw [checkDependencies, hresult]
        simp only [bind, Except.bind]
        split
        · exact ⟨_, rfl⟩
        · exact ihdeps _ _ (fun d hd => hdeps d (mem_cons_of_mem _ hd))
    rw [checkFreshness]
    split
    · exact ⟨_, rfl⟩
    split
    · exact ⟨_, rfl⟩
    · obtain ⟨result, hresult⟩ := hloop found.record.dependencies [] _ (fun _ hd => hd)
      rw [hresult]
      exact ⟨_, rfl⟩

theorem decorated_ok {found : RecordRow} (hfound : found ∈ store.records) :
    ∃ shown, decorated sha256 dump store found.project found.record = .ok shown := by
  obtain ⟨result, hresult⟩ := h.check_ok 33 hfound ⟨0, false, []⟩
  rw [decorated, hresult]
  exact ⟨_, rfl⟩

end KnowledgeStore.Sound

/-- A call that reports an error to its caller. -/
def Rejects (sha256 : Text → Text) (dump : KnowledgeRecord → Text) (store : KnowledgeStore)
    (call : KnowledgeCall) : Prop :=
  match (knowledgeService sha256 dump).exec call store with
  | .error _ => True
  | .ok (.put (.error _), _) => True
  | .ok _ => False

/-- A put that names the record and the revision that it expects. -/
def names (project id : Text) (expected : Nat) : KnowledgeCall × KnowledgeAnswer → Bool
  | (.put freshId _ request _ _, _) =>
    request.project = project && request.id.getD freshId = id &&
      request.expectedRevision = expected
  | _ => false

/-- The revision named by the first key pins the revision named by the second. -/
def DependsOn (store : KnowledgeStore) (key key' : Text × Text × Nat) : Prop :=
  ∃ found, row RecordRow.name key store.records = some found ∧
    ∃ d ∈ found.record.dependencies, d.type = .record ∧
      key' = (found.project, d.id, ofDecimal d.pin)

structure KnowledgeHistory (sha256 : Text → Text) (dump : KnowledgeRecord → Text)
    (start : KnowledgeStore) (calls : List KnowledgeCall) (store : KnowledgeStore) : Prop where
  /-- The revisions of a record are those from 1 to its head. -/
  contiguous : ∀ project id, match store.head project id with
    | none => store.revisions project id = []
    | some n => 1 ≤ n ∧ store.revisions project id = List.range' 1 n
  /-- A stored revision never changes. -/
  immutable : ∀ project id revision found, store.record project id revision = some found →
    ∀ later, ((knowledgeService sha256 dump).run store later).record project id revision =
      some found
  /-- Of the puts that name one expected revision of a record at most one commits. -/
  noLostUpdate : ∀ project id expected,
    ((knowledgeService sha256 dump).committed start calls).countP (names project id expected) ≤ 1
  /-- A rejected call leaves every table as it was. -/
  rejected : ∀ call, Rejects sha256 dump store call →
    (knowledgeService sha256 dump).after store call = store
  /-- A record dependency names a revision that was stored before. -/
  earlier : ∀ (n : Nat) (found : RecordRow), store.records[n]? = some found →
    ∀ d ∈ found.record.dependencies, d.type = .record →
      ∃ m < n, ∃ old, store.records[m]? = some old ∧ old.project = found.project ∧
        old.id = d.id ∧ d.pin = decimal old.revision
  /-- The dependency table holds the dependencies of the records. -/
  table : store.dependencies = store.records.flatMap RecordRow.dependencyRows
  acyclic : ∀ key, ¬ Relation.TransGen (DependsOn store) key key

/-- Dependencies lead to earlier rows. -/
theorem KnowledgeStore.Sound.rank_lt (h : store.Sound sha256 dump) {key key' : Text × Text × Nat}
    (hdepends : DependsOn store key key') :
    (store.records.map RecordRow.name).idxOf key' < (store.records.map RecordRow.name).idxOf key := by
  obtain ⟨found, hfound, d, hd, htype, rfl⟩ := hdepends
  have hposition : ∀ (n : Nat) (r : RecordRow), store.records[n]? = some r →
      (store.records.map RecordRow.name).idxOf r.name = n := by
    intro n r hr
    obtain ⟨hlt, hget⟩ := List.getElem?_eq_some_iff.mp hr
    have hlt' : n < (store.records.map RecordRow.name).length := by simpa using hlt
    have hn : (store.records.map RecordRow.name)[n] = r.name := by simp [hget]
    rw [← hn]
    exact h.distinct.idxOf_getElem n _
  obtain ⟨n, hn, hget⟩ := mem_iff_getElem.mp (row_some_mem hfound)
  have hstored : store.records[n]? = some found := by
    rw [getElem?_eq_getElem hn, hget]
  obtain ⟨m, hm, old, hold, hproject, hid, hpin⟩ := h.earlier n found hstored d hd htype
  have hkey : found.name = key := row_some_key hfound
  have hkey' : (found.project, d.id, ofDecimal d.pin) = old.name := by
    rw [hpin, ofDecimal_decimal, ← hproject, ← hid]
    rfl
  rw [hkey', hposition m old hold, ← hkey, hposition n found hstored]
  exact hm

/-- A head is replaced under one expected revision at most once. -/
theorem names_once (h : store.Sound sha256 dump) (calls : List KnowledgeCall) (project id : Text)
    (expected : Nat) : ((knowledgeService sha256 dump).committed store calls).countP
      (names project id expected) ≤ 1 := by
  -- the head passes the expected revision once
  have hcount := Service.committed_count_le (knowledgeService sha256 dump)
    (fun s => s.Sound sha256 dump)
    (fun s => if expected < (s.head project id).getD 0 then 1 else 0) 1
    (names project id expected) (fun _ _ _ _ hs hexec => (hs.exec hexec).1) ?_ ?_ calls h
  · omega
  · intro s call answer s' hs hexec
    have hgrows := (hs.exec hexec).2.heads project id
    by_cases hnames : names project id expected (call, answer) = true
    · rcases exec_knowledge hexec with
        ⟨freshId, createdAt, request, internal, origin, record, rfl, hid, _, hput⟩ |
          ⟨_, _, rfl, _, _⟩
      · simp only [names, Bool.and_eq_true, decide_eq_true_eq] at hnames
        obtain ⟨⟨hproject, hname⟩, hexpected⟩ := hnames
        have hkey : (project, id) = (record.project, record.id) := by
          rw [hput.project, hid, hproject, hname]
        obtain ⟨rfl, rfl⟩ := Prod.mk.inj hkey
        have hbefore : (s.head record.project record.id).getD 0 = expected := by
          have hint := hput.expected
          omega
        have hafter : s'.head record.project record.id = some record.revision := by
          rw [hput.written, head_published, if_pos rfl]
        have hrevision := hput.revision
        have hlt : expected < record.revision := by omega
        simp [hbefore, hafter, hlt, names, hname, hproject, hexpected]
      · cases hnames
    · simp only [hnames, Bool.false_eq_true, if_false, Nat.add_zero]
      split
      · next hlt =>
          simp [Nat.lt_of_lt_of_le hlt hgrows]
      · exact Nat.zero_le _
  · intro s _
    split <;> omega

/-- Along every run of puts, with any changes of the rest of the project between
them, the knowledge tables keep their history. -/
theorem knowledge_history (sha256 : Text → Text) (dump : KnowledgeRecord → Text)
    (library : Library) (calls : List KnowledgeCall) :
    KnowledgeHistory sha256 dump (.fresh library) calls
      ((knowledgeService sha256 dump).run (.fresh library) calls) := by
  have hfresh : (KnowledgeStore.fresh library).Sound sha256 dump := .fresh library
  have hsound := hfresh.run calls
  have honce := names_once hfresh calls
  generalize (knowledgeService sha256 dump).run (KnowledgeStore.fresh library) calls = store
    at hsound ⊢
  constructor
  · intro project id
    have hcontiguous := hsound.contiguous project id
    cases hhead : store.head project id with
    | none => simpa [hhead] using hcontiguous
    | some n =>
      refine ⟨hsound.headed project id n hhead, ?_⟩
      simpa [hhead] using hcontiguous
  · intro project id revision found hfound later
    obtain ⟨rest, hrest⟩ := (hsound.run_grows later).records
    have hrow : row RecordRow.name (project, id, revision) store.records = some found := hfound
    rw [KnowledgeStore.record, ← hrest, row_append, hrow]
    rfl
  · exact honce
  · intro call hrejects
    unfold Rejects at hrejects
    cases hexec : (knowledgeService sha256 dump).exec call store with
    | error e => exact Service.after_error hexec
    | ok answer =>
      rw [hexec] at hrejects
      rcases exec_knowledge hexec with
        ⟨_, _, request, _, _, record, _, _, hanswer, hput⟩ | ⟨_, _, rfl, hchange, hstore⟩
      · have hnext := (hsound.exec hexec).1
        have hstored : ⟨record.project, record.id, record.revision, record.kind, record,
            sha256 (dump record)⟩ ∈ answer.2.records := by
          rw [hput.written]
          simp
        -- the record was stored, so it is shown and nothing was rejected
        obtain ⟨shown, hshown⟩ := hnext.decorated_ok hstored
        rw [hput.project] at hshown
        obtain ⟨a, s'⟩ := answer
        simp only at hanswer hshown
        subst hanswer
        rw [hshown] at hrejects
        exact absurd hrejects id
      · obtain ⟨a, s'⟩ := answer
        simp only [knowledgeService, hchange, Except.ok.injEq, Prod.mk.injEq] at hexec
        obtain ⟨rfl, _⟩ := hexec
        exact absurd hrejects id
  · exact hsound.earlier
  · exact hsound.table
  · intro key hcycle
    have hlt : ∀ a b, Relation.TransGen (DependsOn store) a b →
        (store.records.map RecordRow.name).idxOf b < (store.records.map RecordRow.name).idxOf a := by
      intro a b hab
      induction hab with
      | single hone => exact hsound.rank_lt hone
      | tail _ hone ih => exact Nat.lt_trans (hsound.rank_lt hone) ih
    exact Nat.lt_irrefl _ (hlt key key hcycle)

end Indago
