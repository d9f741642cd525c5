import IndagoRev.Workbench.KnowledgeHistory

/-!
# Freshness

A revision is fresh when everything it was pinned to, through all record
dependencies, still is what the pins say. The traversal that computes this is
bounded in depth, in visits and in reasons. It never meets a revision twice on
one path, since dependencies only name older rows, so the visiting set never
reports a cycle, and where no bound was met its verdict is exact.
-/

namespace Indago

open StdText Tables Transactions List

variable {sha256 : Text → Text} {dump : KnowledgeRecord → Text}
variable {store : KnowledgeStore} {project : Text}

/-- The dependency still is what its pin says. -/
def DependencyFresh (store : KnowledgeStore) (project : Text) (d : Dependency) : Prop :=
  match d.type with
  | .record => store.head project d.id = some (ofDecimal d.pin)
  | .artifact => (store.library.object d.id).isSome = true
  | .entity | .revision =>
    store.library.isAnalysisHead project d.pin = true ∧
      store.library.advanced project d.pin = false
  | .evidence =>
    (row AnalysisRow.name (project, d.id) store.library.evidence).isSome = true ∧
      store.library.isAnalysisHead project d.pin = true ∧
      store.library.advanced project d.pin = false
  | .observation => (store.library.runtimeRow false project d.id).isSome = true
  | .epoch => (store.library.runtimeRow true project d.id).isSome = true

/-- One revision pins another one. -/
def PinsRevision (store : KnowledgeStore) (found pinned : RecordRow) : Prop :=
  pinned ∈ store.records ∧ ∃ d ∈ found.record.dependencies, d.type = .record ∧
    pinned.name = (found.project, d.id, ofDecimal d.pin)

/-- Every dependency in the closure of a revision is fresh. -/
def Fresh (store : KnowledgeStore) (found : RecordRow) : Prop :=
  ∀ pinned, Relation.ReflTransGen (PinsRevision store) found pinned →
    ∀ d ∈ pinned.record.dependencies, DependencyFresh store pinned.project d

/-- A dependency is fresh and, where it is a record, the closure behind it is. -/
def ClosureFresh (store : KnowledgeStore) (project : Text) (d : Dependency) : Prop :=
  DependencyFresh store project d ∧ ∀ pinned ∈ store.records, d.type = .record →
    pinned.name = (project, d.id, ofDecimal d.pin) → Fresh store pinned

variable {found : RecordRow}

theorem fresh_iff :
    Fresh store found ↔ ∀ d ∈ found.record.dependencies, ClosureFresh store found.project d := by
  constructor
  · intro hfresh d hd
    refine ⟨hfresh found .refl d hd, ?_⟩
    intro pinned hpinned htype hname other hother
    exact hfresh other (.head ⟨hpinned, d, hd, htype, hname⟩ hother)
  · intro hall other hother
    rcases Relation.ReflTransGen.cases_head hother with rfl | ⟨next, ⟨hnext, d, hd, htype, hname⟩, hrest⟩
    · exact fun d hd => (hall d hd).1
    · exact (hall d hd).2 next hnext htype hname other hrest

mutual

/-- No reason, at any depth, is a dependency cycle. -/
def Reason.acyclic : Reason → Bool
  | .dependencyCycle => false
  | .upstreamStale _ upstream => Reason.allAcyclic upstream
  | _ => true

def Reason.allAcyclic : List Reason → Bool
  | [] => true
  | reason :: rest => reason.acyclic && Reason.allAcyclic rest

end

@[simp] theorem allAcyclic_append (reasons more : List Reason) :
    Reason.allAcyclic (reasons ++ more) =
      (Reason.allAcyclic reasons && Reason.allAcyclic more) := by
  induction reasons with
  | nil => simp [Reason.allAcyclic]
  | cons reason rest ih => simp [Reason.allAcyclic, ih, Bool.and_assoc]

/-- The position of a revision among all stored rows. -/
def KnowledgeStore.rank (store : KnowledgeStore) (found : RecordRow) : Nat :=
  (store.records.map RecordRow.name).idxOf found.name

theorem activeKey_inj {record record' : KnowledgeRecord}
    (h : activeKey record = activeKey record') :
    record.id = record'.id ∧ record.revision = record'.revision := by
  have hcolon : ":" = [':'] := by decide
  simp only [activeKey, hcolon, append_assoc, cons_append, nil_append] at h
  obtain ⟨hid, hrevision⟩ := append_separated (separator_not_mem_decimal record.revision)
    (separator_not_mem_decimal record'.revision) h
  refine ⟨hid, ?_⟩
  rw [← ofDecimal_decimal record.revision, hrevision, ofDecimal_decimal]

/-- The keys in the visiting set are those of younger rows. -/
def Younger (store : KnowledgeStore) (found : RecordRow) (key : Text) : Prop :=
  ∃ other ∈ store.records, other.project = found.project ∧ activeKey other.record = key ∧
    store.rank found < store.rank other

namespace KnowledgeStore.Sound

variable (h : store.Sound sha256 dump)
include h

variable {active : List Text}

theorem not_active (hfound : found ∈ store.records)
    (hactive : ∀ key ∈ active, Younger store found key) : activeKey found.record ∉ active := by
  intro hmem
  obtain ⟨other, hother, hproject, hkey, hlt⟩ := hactive _ hmem
  obtain ⟨hid, hrevision⟩ := activeKey_inj hkey
  have hsound := h.rows found hfound
  have hsound' := h.rows other hother
  have hname : other.name = found.name := by
    simp only [RecordRow.name, Prod.mk.injEq]
    refine ⟨hproject, ?_, ?_⟩
    · rw [← hsound'.id, hid, hsound.id]
    · rw [← hsound'.revision, hrevision, hsound.revision]
  rw [KnowledgeStore.rank, KnowledgeStore.rank, hname] at hlt
  exact Nat.lt_irrefl _ hlt

variable {found pinned : RecordRow}

theorem rank_pinned (hfound : found ∈ store.records)
    (hpins : PinsRevision store found pinned) : store.rank pinned < store.rank found := by
  obtain ⟨_, d, hd, htype, hname⟩ := hpins
  apply h.rank_lt
  exact ⟨found, h.row_of_mem hfound, d, hd, htype, hname⟩

/-- A pinned revision is met with a visiting set of younger rows. -/
theorem younger_pinned (hfound : found ∈ store.records) (hpins : PinsRevision store found pinned)
    (hactive : ∀ key ∈ active, Younger store found key) :
    ∀ key ∈ activeKey found.record :: active, Younger store pinned key := by
  have hlt := h.rank_pinned hfound hpins
  have hproject : pinned.project = found.project := by
    obtain ⟨_, d, _, _, hname⟩ := hpins
    exact (Prod.mk.inj hname).1
  intro key hkey
  rcases mem_cons.mp hkey with rfl | hold
  · exact ⟨found, hfound, hproject.symm, rfl, hlt⟩
  · obtain ⟨other, hother, hother', hkey', hrank⟩ := hactive key hold
    exact ⟨other, hother, hother'.trans hproject.symm, hkey', Nat.lt_trans hlt hrank⟩

end KnowledgeStore.Sound

/-- The visits that a traversal of these dependencies makes, where no bound stops
it. -/
def dependencyVisits (store : KnowledgeStore) (project : Text)
    (visits : KnowledgeRecord → Option Nat) : List Dependency → Option Nat
  | [] => some 0
  | d :: rest =>
    match d.type with
    | .record => do
      let pinned ← store.record project d.id (ofDecimal d.pin)
      let n ← visits pinned.record
      let m ← dependencyVisits store project visits rest
      some (n + m)
    | _ => dependencyVisits store project visits rest

/-- The visits below a record, `none` where its dependencies are nested deeper
than the levels. -/
def visits (store : KnowledgeStore) (project : Text) : Nat → KnowledgeRecord → Option Nat
  | 0, _ => none
  | levels + 1, record =>
    (dependencyVisits store project (visits store project levels) record.dependencies).map (· + 1)

/-- What a traversal says about a part of the dependencies. `count` is what it
takes to visit that part. -/
structure Verdict (fresh : Prop) (count : Option Nat) (tr : Traversal) (reasons : List Reason)
    (tr' : Traversal) : Prop where
  active : tr'.active = tr.active
  bounded : tr.bounded = true → tr'.bounded = true
  exact : tr'.bounded = false → (reasons = [] ↔ fresh)
  acyclic : Reason.allAcyclic reasons = true
  counted : tr'.bounded = false → ∃ n, count = some n ∧ tr'.visited = tr.visited + n
  limit : tr'.bounded = false → tr.visited ≤ 4096 → tr'.visited ≤ 4096
  enough : fresh → ∀ n, count = some n → tr.visited + n ≤ 4096 →
    reasons = [] ∧ tr'.bounded = tr.bounded ∧ tr'.visited = tr.visited + n

variable {d : Dependency}

theorem analysisReasons_nil :
    (if store.library.isAnalysisHead project d.pin = true then [] else [Reason.analysisSuperseded d]) ++
        (if store.library.advanced project d.pin = true then [Reason.programAdvanced d] else []) = [] ↔
      store.library.isAnalysisHead project d.pin = true ∧
        store.library.advanced project d.pin = false := by
  cases store.library.isAnalysisHead project d.pin <;>
    cases store.library.advanced project d.pin <;> simp

theorem leafReasons_acyclic (d : Dependency) :
    Reason.allAcyclic (leafReasons sha256 dump store project d) = true := by
  unfold leafReasons
  split
  · rfl
  · split <;> rfl
  · split
    · split <;> rfl
    · rfl
  · split
    · split <;> rfl
    · rfl
  all_goals
    rw [allAcyclic_append]
    split <;> split <;> rfl

/-- A runtime capture that a pin names is still there and still says the same. -/
theorem pinRuntime_ok {library : Library} {epoch : Bool} {id pin : Text}
    (h : pinRuntime sha256 library epoch project id = .ok pin) :
    (library.runtimeRow epoch project id).isSome = true := by
  unfold pinRuntime at h
  cases hruntime : library.runtime with
  | none => simp [hruntime] at h
  | some rows =>
    cases hrow : library.runtimeRow epoch project id with
    | none => simp [hruntime, hrow] at h
    | some found => rfl

theorem leafReasons_nil (htype : d.type ≠ .record) (hkept : Kept sha256 store.library project d) :
    leafReasons sha256 dump store project d = [] ↔ DependencyFresh store project d := by
  unfold leafReasons DependencyFresh
  unfold Kept at hkept
  cases hcase : d.type with
  | record => exact absurd hcase htype
  | artifact =>
    cases store.library.object d.id <;> simp
  | entity | revision => exact analysisReasons_nil
  | evidence =>
    simp only [hcase] at hkept
    rw [analysisReasons_nil]
    exact (and_iff_right hkept).symm
  | observation =>
    simp only [hcase] at hkept
    simp [currentPin, hkept, pinRuntime_ok hkept]
  | epoch =>
    simp only [hcase] at hkept
    simp [currentPin, hkept, pinRuntime_ok hkept]

variable {reasons : List Reason}

theorem Verdict.still {fresh : Prop} {tr : Traversal}
    (hexact : reasons = [] ↔ fresh) (hacyclic : Reason.allAcyclic reasons = true) :
    Verdict fresh (some 0) tr reasons tr where
  active := rfl
  bounded := id
  exact := fun _ => hexact
  acyclic := hacyclic
  counted := fun _ => ⟨0, rfl, rfl⟩
  limit := fun _ => id
  enough := by
    intro hfresh n hn _
    obtain rfl := Option.some.inj hn
    exact ⟨hexact.mpr hfresh, rfl, rfl⟩

section Loop

variable {check : KnowledgeRecord → Traversal → Except String (List Reason × Traversal)}
variable {count : KnowledgeRecord → Option Nat} {found : RecordRow}

/-- The traversal one level deeper is right about every pinned revision. -/
def ChecksPinned (store : KnowledgeStore) (found : RecordRow)
    (check : KnowledgeRecord → Traversal → Except String (List Reason × Traversal))
    (count : KnowledgeRecord → Option Nat) : Prop :=
  ∀ pinned, PinsRevision store found pinned → ∀ tr reasons tr',
    (∀ key ∈ tr.active, Younger store pinned key) →
    check pinned.record tr = .ok (reasons, tr') →
    Verdict (Fresh store pinned) (count pinned.record) tr reasons tr'

variable {tr tr' : Traversal}

theorem KnowledgeStore.Sound.dependency_verdict (h : store.Sound sha256 dump)
    (hfound : found ∈ store.records) (hcheck : ChecksPinned store found check count)
    (hd : d ∈ found.record.dependencies) {more : List Reason}
    (hactive : ∀ key ∈ tr.active, ∀ pinned, PinsRevision store found pinned →
      Younger store pinned key)
    (hmore : dependencyReasons sha256 dump store found.project check d tr = .ok (more, tr')) :
    Verdict (ClosureFresh store found.project d)
      (dependencyVisits store found.project count [d]) tr more tr' := by
  by_cases htype : d.type = .record
  · obtain ⟨n, last, old, hhead, hlast, hrevision, hold, hproject, hid, hpin, hpinned⟩ :=
      h.load_dependency hfound hd htype
    have hname : old.name = (found.project, d.id, ofDecimal d.pin) := by
      rw [RecordRow.name, hproject, hid, hpin, ofDecimal_decimal]
    have hpins : PinsRevision store found old := ⟨hold, d, hd, htype, hname⟩
    cases hinherited : check old.record tr with
    | error e =>
      simp only [dependencyReasons, htype, hlast, hpinned, hinherited, bind, Except.bind] at hmore
      cases hmore
    | ok result =>
      obtain ⟨inherited, tr''⟩ := result
      rw [dependencyReasons_record htype hlast hpinned hinherited] at hmore
      obtain ⟨rfl, rfl⟩ := Prod.mk.inj (Except.ok.inj hmore)
      have hverdict := hcheck old hpins tr inherited tr''
        (fun key hkey => hactive key hkey old hpins) hinherited
      have hrow : store.record found.project d.id (ofDecimal d.pin) = some old := by
        have hmem := h.row_of_mem hold
        simp only [RecordRow.name, Prod.mk.injEq] at hname
        rwa [hname.1, hname.2.1, hname.2.2] at hmem
      -- the pin is the head exactly where no revision came after it
      have hfresh : ClosureFresh store found.project d ↔ decimal last.revision = d.pin ∧
          Fresh store old := by
        unfold ClosureFresh DependencyFresh
        rw [htype, hhead, hrevision]
        constructor
        · rintro ⟨hcurrent, hclosure⟩
          refine ⟨?_, hclosure old hold rfl hname⟩
          rw [Option.some.inj hcurrent, hpin, ofDecimal_decimal]
        rintro ⟨hcurrent, hclosure⟩
        refine ⟨by rw [← hcurrent, ofDecimal_decimal], ?_⟩
        intro other hother _ hother'
        have hsame : other = old := by
          have hmem := h.row_of_mem hother
          simp only [RecordRow.name, Prod.mk.injEq] at hother'
          rw [hother'.1, hother'.2.1, hother'.2.2, hrow] at hmem
          exact (Option.some.inj hmem).symm
        rwa [hsame]
      have hcount : dependencyVisits store found.project count [d] = count old.record := by
        simp only [dependencyVisits, htype, hrow, bind, Option.bind]
        cases count old.record <;> rfl
      rw [hcount]
      exact {
        active := hverdict.active
        bounded := hverdict.bounded
        exact := by
          intro hbounded
          rw [hfresh, ← hverdict.exact hbounded]
          by_cases hcurrent : decimal last.revision = d.pin <;>
            cases inherited <;> simp [hcurrent]
        acyclic := by
          have hinner := hverdict.acyclic
          rw [allAcyclic_append]
          cases inherited <;> split <;> simp_all [Reason.allAcyclic, Reason.acyclic]
        counted := hverdict.counted
        limit := hverdict.limit
        enough := by
          intro hclosure m hm hle
          obtain ⟨hcurrent, hold'⟩ := hfresh.mp hclosure
          obtain ⟨rfl, hsame, hvisited⟩ := hverdict.enough hold' m hm hle
          refine ⟨?_, hsame, hvisited⟩
          simp [hcurrent] }
  · rw [dependencyReasons_leaf htype] at hmore
    obtain ⟨rfl, rfl⟩ := Prod.mk.inj (Except.ok.inj hmore)
    have hcount : dependencyVisits store found.project count [d] = some 0 := by
      unfold dependencyVisits
      split
      · next heq => exact absurd heq htype
      · rfl
    have hfresh : ClosureFresh store found.project d ↔ DependencyFresh store found.project d :=
      and_iff_left (fun _ _ hrecord => absurd hrecord htype)
    rw [hcount]
    refine .still ?_ (leafReasons_acyclic d)
    rw [hfresh]
    exact leafReasons_nil htype (h.kept found hfound d hd)

theorem dependencyVisits_cons {rest : List Dependency} :
    dependencyVisits store project count (d :: rest) =
      (dependencyVisits store project count [d]).bind (fun n =>
        (dependencyVisits store project count rest).map (n + ·)) := by
  cases htype : d.type with
  | record =>
    simp only [dependencyVisits, htype, bind]
    cases store.record project d.id (ofDecimal d.pin) with
    | none => rfl
    | some pinned =>
      simp only [Option.bind_some]
      cases count pinned.record with
      | none => rfl
      | some n => cases dependencyVisits store project count rest <;> rfl
  | artifact | entity | evidence | revision | observation | epoch =>
    simp only [dependencyVisits, htype]
    cases dependencyVisits store project count rest <;> simp

/-- The loop keeps the verdict over the dependencies it went through. -/
theorem KnowledgeStore.Sound.loop_verdict (h : store.Sound sha256 dump)
    (hfound : found ∈ store.records) (hcheck : ChecksPinned store found check count)
    (deps : List Dependency) {reasons reasons' : List Reason}
    (hdeps : ∀ d ∈ deps, d ∈ found.record.dependencies)
    (hactive : ∀ key ∈ tr.active, ∀ pinned, PinsRevision store found pinned →
      Younger store pinned key) (hacyclic : Reason.allAcyclic reasons = true)
    (hloop : checkDependencies sha256 dump store found.project check deps reasons tr =
      .ok (reasons', tr')) : Verdict (reasons = [] ∧ ∀ d ∈ deps, ClosureFresh store found.project d)
      (dependencyVisits store found.project count deps) tr reasons' tr' := by
  induction deps generalizing reasons tr with
  | nil =>
    obtain ⟨rfl, rfl⟩ := Prod.mk.inj (Except.ok.inj hloop)
    exact .still (by simp) hacyclic
  | cons d rest ih =>
    rw [checkDependencies, except_bind_ok] at hloop
    obtain ⟨⟨more, tr''⟩, hmore, hloop⟩ := hloop
    have hd := h.dependency_verdict hfound hcheck (hdeps d (by simp)) hactive hmore
    have hacyclic' : Reason.allAcyclic (reasons ++ more) = true := by
      rw [allAcyclic_append, hacyclic, hd.acyclic]
      rfl
    dsimp only at hloop
    split at hloop
    · next hmany =>
        obtain ⟨rfl, rfl⟩ := Prod.mk.inj (Except.ok.inj hloop)
        exact {
          active := hd.active
          bounded := fun _ => rfl
          exact := fun h => by cases h
          acyclic := hacyclic'
          counted := fun h => by cases h
          limit := fun h => by cases h
          enough := by
            rintro ⟨hempty, hall⟩ n hn hle
            -- 64 reasons cannot come from fresh dependencies
            rw [dependencyVisits_cons] at hn
            obtain ⟨first, hfirst, hn⟩ := Option.bind_eq_some_iff.mp hn
            obtain ⟨others, _, rfl⟩ := Option.map_eq_some_iff.mp hn
            obtain ⟨hnone, _, _⟩ := hd.enough (hall d (by simp)) first hfirst (by omega)
            simp [hempty, hnone] at hmany }
    · have hrest := ih (fun other hother => hdeps other (mem_cons_of_mem _ hother))
        (by rwa [hd.active]) hacyclic' hloop
      have hunbounded : tr'.bounded = false → tr''.bounded = false := by
        intro hbounded
        cases hcase : tr''.bounded with
        | false => rfl
        | true => exact absurd (hrest.bounded hcase) (by simp [hbounded])
      exact {
        active := hrest.active.trans hd.active
        bounded := fun hbounded => hrest.bounded (hd.bounded hbounded)
        exact := by
          intro hbounded
          rw [hrest.exact hbounded, append_eq_nil_iff, hd.exact (hunbounded hbounded),
            forall_mem_cons, and_assoc]
        acyclic := hrest.acyclic
        counted := by
          intro hbounded
          obtain ⟨n, hn, hvisited⟩ := hd.counted (hunbounded hbounded)
          obtain ⟨m, hm, hvisited'⟩ := hrest.counted hbounded
          refine ⟨n + m, ?_, by omega⟩
          rw [dependencyVisits_cons, hn, hm]
          rfl
        limit := fun hbounded hle =>
          hrest.limit hbounded (hd.limit (hunbounded hbounded) hle)
        enough := by
          rintro ⟨hempty, hall⟩ n hn hle
          rw [dependencyVisits_cons] at hn
          obtain ⟨first, hfirst, hn⟩ := Option.bind_eq_some_iff.mp hn
          obtain ⟨others, hothers, rfl⟩ := Option.map_eq_some_iff.mp hn
          obtain ⟨hnone, hsame, hvisited⟩ := hd.enough (hall d (by simp)) first hfirst (by omega)
          obtain ⟨hnone', hsame', hvisited'⟩ := hrest.enough
            ⟨by rw [hempty, hnone]; rfl, fun other hother => hall other (mem_cons_of_mem _ hother)⟩
            others hothers (by omega)
          exact ⟨hnone', hsame'.trans hsame, by omega⟩ }

end Loop

/-- The traversal is right about every stored revision that no key in its
visiting set is older than. -/
theorem KnowledgeStore.Sound.check_verdict (h : store.Sound sha256 dump) (levels : Nat)
    (hfound : found ∈ store.records) {tr tr' : Traversal}
    (hactive : ∀ key ∈ tr.active, Younger store found key)
    (hcheck : checkFreshness sha256 dump store found.project levels found.record tr =
      .ok (reasons, tr')) :
    Verdict (Fresh store found) (visits store found.project levels found.record) tr reasons tr' := by
  induction levels generalizing found tr tr' reasons with
  | zero =>
    obtain ⟨rfl, rfl⟩ := Prod.mk.inj (Except.ok.inj hcheck)
    exact {
      active := rfl
      bounded := fun _ => rfl
      exact := fun h => by cases h
      acyclic := rfl
      counted := fun h => by cases h
      limit := fun h => by cases h
      enough := fun _ _ h => by cases h }
  | succ levels ih =>
    rw [checkFreshness] at hcheck
    split at hcheck
    · next hfull =>
        obtain ⟨rfl, rfl⟩ := Prod.mk.inj (Except.ok.inj hcheck)
        exact {
          active := rfl
          bounded := fun _ => rfl
          exact := fun h => by cases h
          acyclic := rfl
          counted := fun h => by cases h
          limit := fun h => by cases h
          enough := by
            intro _ n hn hle
            obtain ⟨m, _, rfl⟩ := Option.map_eq_some_iff.mp hn
            omega }
    · next hroom =>
        rw [if_neg (h.not_active hfound hactive), except_bind_ok] at hcheck
        obtain ⟨⟨reasons', tr''⟩, hloop, hcheck⟩ := hcheck
        obtain ⟨rfl, rfl⟩ := Prod.mk.inj (Except.ok.inj hcheck)
        have hpinned : ChecksPinned store found
            (checkFreshness sha256 dump store found.project levels)
            (visits store found.project levels) := by
          intro pinned hpins tr reasons tr' hactive hcheck
          have hproject : pinned.project = found.project := by
            obtain ⟨_, d, _, _, hname⟩ := hpins
            exact (Prod.mk.inj hname).1
          rw [← hproject] at hcheck ⊢
          exact ih hpins.1 hactive hcheck
        have hverdict := h.loop_verdict hfound hpinned found.record.dependencies (fun _ hd => hd)
          (fun key hkey pinned hpins => h.younger_pinned hfound hpins hactive key hkey) rfl hloop
        exact {
          active := by
            show tr''.active.erase (activeKey found.record) = tr.active
            rw [hverdict.active, erase_cons_head]
          bounded := hverdict.bounded
          exact := by
            intro hbounded
            rw [hverdict.exact hbounded, fresh_iff]
            simp
          acyclic := hverdict.acyclic
          counted := by
            intro hbounded
            obtain ⟨n, hn, hvisited⟩ := hverdict.counted hbounded
            refine ⟨n + 1, by rw [visits, hn]; rfl, ?_⟩
            dsimp only at hvisited ⊢
            omega
          limit := by
            intro hbounded _
            exact hverdict.limit hbounded (by dsimp only; omega)
          enough := by
            intro hfresh n hn hle
            obtain ⟨m, hm, rfl⟩ := Option.map_eq_some_iff.mp hn
            obtain ⟨hnone, hsame, hvisited⟩ := hverdict.enough ⟨rfl, fresh_iff.mp hfresh⟩ m hm
              (by dsimp only; omega)
            refine ⟨hnone, hsame, ?_⟩
            dsimp only at hvisited ⊢
            omega }

/-- What is shown of a stored revision. -/
structure ShownFreshness (store : KnowledgeStore) (found : RecordRow) (shown : Decorated) :
    Prop where
  record : shown.record = found.record
  /-- It is current exactly when it is the head of its record and fresh, and no
  bound stopped the traversal. -/
  current : shown.freshness = .current ↔ shown.complete = true ∧
    store.head found.project found.id = some found.revision ∧ Fresh store found
  /-- A traversal that a bound stopped is unknown, and nothing else is. -/
  unknown : shown.freshness = .unknown ↔ shown.complete = false
  acyclic : Reason.allAcyclic shown.staleReasons = true
  /-- The bounds leave a fresh revision alone exactly when its dependencies are
  nested at most 33 deep and visited at most 4096 times. -/
  complete : Fresh store found →
    (shown.complete = true ↔ ∃ n ≤ 4096, visits store found.project 33 found.record = some n)

/-- Every stored revision can be shown, and what is shown is exact. -/
structure FreshnessDecided (sha256 : Text → Text) (dump : KnowledgeRecord → Text)
    (store : KnowledgeStore) : Prop where
  shown : ∀ found ∈ store.records, ∃ shown,
    showKnowledge sha256 dump store found.project found.id found.revision = .ok shown ∧
      ShownFreshness store found shown

theorem KnowledgeStore.Sound.freshness (h : store.Sound sha256 dump) :
    FreshnessDecided sha256 dump store := by
  constructor
  intro found hfound
  obtain ⟨⟨reasons, tr⟩, hcheck⟩ := h.check_ok 33 hfound ⟨0, false, []⟩
  have hverdict := h.check_verdict 33 hfound (by simp) hcheck
  obtain ⟨n, last, hhead, _⟩ := h.load_head hfound
  have hsound := h.rows found hfound
  refine ⟨_, by
    rw [showKnowledge, h.load_row hfound]
    simp only [bind, Except.bind, decorated, hcheck]
    rfl, ?_⟩
  constructor
  · rfl
  · rw [hsound.id, hsound.revision, hhead]
    cases hbounded : tr.bounded with
    | true => simp
    | false =>
      simp only [Bool.false_eq_true, if_false, Bool.not_false, true_and,
        Option.some.injEq, ← hverdict.exact hbounded]
      by_cases hlast : n = found.revision <;> cases reasons <;> simp [hlast]
  · cases hbounded : tr.bounded with
    | true => simp
    | false =>
      generalize List.isEmpty _ = empty
      cases empty <;> simp
  · rw [allAcyclic_append, hverdict.acyclic]
    split <;> rfl
  · intro hfresh
    cases hbounded : tr.bounded with
    | true =>
      simp only [Bool.not_true, Bool.false_eq_true, false_iff]
      rintro ⟨m, hle, hm⟩
      obtain ⟨_, hsame, _⟩ := hverdict.enough hfresh m hm (by simpa using hle)
      rw [hbounded] at hsame
      cases hsame
    | false =>
      simp only [Bool.not_false, true_iff]
      obtain ⟨m, hm, hvisited⟩ := hverdict.counted hbounded
      have hlimit := hverdict.limit hbounded (Nat.zero_le _)
      exact ⟨m, by simp only at hvisited; omega, hm⟩

/-- Along every run of the service, what is shown of any stored revision is
exact. -/
theorem freshness_decided (sha256 : Text → Text) (dump : KnowledgeRecord → Text)
    (library : Library) (calls : List KnowledgeCall) : FreshnessDecided sha256 dump
      ((knowledgeService sha256 dump).run (.fresh library) calls) :=
  (KnowledgeStore.Sound.run (.fresh library) calls).freshness

end Indago
