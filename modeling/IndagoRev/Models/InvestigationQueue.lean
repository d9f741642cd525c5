import IndagoRev.Models.InvestigationObserve
import IndagoRev.Models.InvestigationPlan

/-!
# What plans and observations keep

In every state that plans and observations reach, the records of a collection have
different ids and depend on each other without a cycle, and the active task is a goal or a
task.  The queue shows the open records that are ready in the order of their scores; where
none is ready, every open record waits for one that is no longer open.

Main results: `PlanRun.sound`, `PlanSound.queue` and `investigation_plans`.
-/

namespace Indago.Investigation

open StdText JsonValues JsonValues.Json StaticIndex Transactions List

/-- The record with the second id depends on the first id. -/
def DependsOn (rows : List PlanRecord) (dependency id : Text) : Prop :=
  ∃ row ∈ rows, row.id = id ∧ dependency ∈ row.dependsOn

/-- A collection whose ids are different and whose dependencies end. -/
structure Sound (rows : List PlanRecord) : Prop where
  distinct : (rows.map PlanRecord.id).Nodup
  named : ∀ row ∈ rows, ∀ d ∈ row.dependsOn, d ∈ rows.map PlanRecord.id
  founded : ∀ row ∈ rows, Acc (DependsOn rows) row.id

theorem not_self_of_acc {α : Type} {r : α → α → Prop} {a : α} (h : Acc r a) : ¬ r a a := by
  induction h with
  | intro x _ ih => exact fun hx => ih x hx hx

variable {rows : List PlanRecord}

/-- No record of sound rows waits for itself. -/
theorem Sound.acyclic (h : Sound rows) (id : Text) :
    ¬ Relation.TransGen (DependsOn rows) id id := by
  intro hcycle
  have hrow : ∃ row ∈ rows, row.id = id := by
    rcases Relation.TransGen.tail'_iff.mp hcycle with ⟨_, _, row, hrow, hid, _⟩
    exact ⟨row, hrow, hid⟩
  obtain ⟨row, hrow, rfl⟩ := hrow
  exact not_self_of_acc (h.founded row hrow).transGen hcycle

theorem rowOf_mem {id : Text} {row : PlanRecord}
    (h : rowOf rows id = some row) : row ∈ rows ∧ row.id = id := by
  unfold rowOf at h
  have hid := find?_some h
  exact ⟨mem_of_find?_eq_some h, of_decide_eq_true hid⟩

theorem rowOf_id (h : (rows.map PlanRecord.id).Nodup) {row : PlanRecord}
    (hrow : row ∈ rows) : rowOf rows row.id = some row := by
  cases hfind : rowOf rows row.id with
  | none =>
    have hnone := find?_eq_none.mp hfind row hrow
    exact absurd (decide_eq_true rfl) hnone
  | some other =>
    obtain ⟨hother, hid⟩ := rowOf_mem hfind
    exact congrArg some (inj_on_of_nodup_map h hother hrow hid)

/-- Every id of a list has its row, whose dependencies stand behind it. -/
def Settled (rows : List PlanRecord) : List Text → Prop
  | [] => True
  | id :: rest => Settled rows rest ∧ ∃ row, rowOf rows id = some row ∧ ∀ d ∈ row.dependsOn, d ∈ rest

/-- What a search does to the ids it is done with. -/
structure Searched (rows : List PlanRecord) (before after ids : List Text) : Prop where
  settled : Settled rows after
  kept : before ⊆ after
  done : ids ⊆ after

variable {search : List Text → Text → Except String (List Text)}

theorem searched_list (hsearch : ∀ {before after : List Text} {id : Text}, Settled rows before →
      search before id = .ok after → Searched rows before after [id])
    {ids before after : List Text} (hbefore : Settled rows before)
    (h : ids.foldlM search before = .ok after) : Searched rows before after ids := by
  induction ids generalizing before with
  | nil =>
    cases h
    exact ⟨hbefore, List.Subset.refl _, nil_subset _⟩
  | cons id ids ih =>
    rw [foldlM_cons, except_bind_ok] at h
    obtain ⟨middle, hfirst, h⟩ := h
    have hone := hsearch hbefore hfirst
    have hrest := ih hone.settled h
    refine ⟨hrest.settled, List.Subset.trans hone.kept hrest.kept, ?_⟩
    intro x hx
    rcases mem_cons.mp hx with rfl | hx
    · exact hrest.kept (hone.done mem_cons_self)
    · exact hrest.done hx

/-- A search adds its id to those that are settled. -/
theorem visit_searched {depth : Nat} {visiting before after : List Text}
    {id : Text} (hbefore : Settled rows before)
    (h : visit rows depth visiting before id = .ok after) : Searched rows before after [id] := by
  induction depth generalizing visiting before after id with
  | zero => cases h
  | succ depth ih =>
    unfold visit at h
    split at h
    · next hdone =>
        cases h
        exact ⟨hbefore, List.Subset.refl _, cons_subset.mpr ⟨hdone, nil_subset _⟩⟩
    split at h
    · cases h
    split at h
    · cases h
    next row hrow =>
      rw [except_bind_ok] at h
      obtain ⟨middle, hdeps, h⟩ := h
      cases h
      have hsearched := searched_list (fun hb h => ih hb h) hbefore hdeps
      refine ⟨⟨hsearched.settled, row, hrow, hsearched.done⟩, ?_, ?_⟩
      · exact List.Subset.trans hsearched.kept (subset_cons_self _ _)
      · exact cons_subset.mpr ⟨mem_cons_self, nil_subset _⟩

theorem foldlM_error {ids before : List Text}
    {e : String} (h : ids.foldlM search before = .error e) :
    ∃ middle, ∃ id ∈ ids, search middle id = .error e := by
  induction ids generalizing before with
  | nil => cases h
  | cons id ids ih =>
    rw [foldlM_cons] at h
    cases hfirst : search before id with
    | error e' =>
      rw [hfirst] at h
      cases h
      exact ⟨before, id, mem_cons_self, hfirst⟩
    | ok middle =>
      rw [hfirst] at h
      obtain ⟨middle', x, hx, hfails⟩ := ih h
      exact ⟨middle', x, mem_cons_of_mem _ hx, hfails⟩

/-- The search is never too deep: it stands in different ids of the rows. -/
theorem visit_depth {depth : Nat} {visiting before : List Text}
    {id : Text} (hnodup : visiting.Nodup) (hrows : visiting ⊆ rows.map PlanRecord.id)
    (hdepth : rows.length < depth + visiting.length) :
    visit rows depth visiting before id ≠ .error "search depth" := by
  induction depth generalizing visiting before id with
  | zero =>
    have hle := (List.Nodup.subperm hnodup hrows).length_le
    rw [length_map] at hle
    omega
  | succ depth ih =>
    intro h
    unfold visit at h
    split at h
    · cases h
    split at h
    · exact absurd (Except.error.inj h) (by decide)
    next hnew =>
      split at h
      · exact absurd (Except.error.inj h) (by decide)
      next row hrow =>
        obtain ⟨hmem, hid⟩ := rowOf_mem hrow
        cases hdeps : row.dependsOn.foldlM (visit rows depth (id :: visiting)) before with
        | ok middle =>
          rw [hdeps] at h
          cases h
        | error e =>
          rw [hdeps] at h
          cases h
          obtain ⟨middle, d, _, hfails⟩ := foldlM_error hdeps
          refine ih (nodup_cons.mpr ⟨hnew, hnodup⟩) ?_ ?_ hfails
          · exact cons_subset.mpr ⟨hid ▸ mem_map_of_mem hmem, hrows⟩
          · rw [length_cons]
            omega

/-- The depth of a search never exceeds the number of rows. -/
theorem visitRows_depth (rows : List PlanRecord) : visitRows rows ≠ .error "search depth" := by
  intro h
  obtain ⟨before, id, _, hfails⟩ := foldlM_error h
  exact visit_depth nodup_nil (nil_subset _) (by rw [length_nil]; omega) hfails

theorem settled_mem {ids : List Text} (h : Settled rows ids) {id : Text}
    (hid : id ∈ ids) : ∃ row, rowOf rows id = some row ∧ ∀ d ∈ row.dependsOn, d ∈ ids := by
  induction ids with
  | nil => cases hid
  | cons first rest ih =>
    rcases mem_cons.mp hid with rfl | hid
    · obtain ⟨row, hrow, hdeps⟩ := h.2
      exact ⟨row, hrow, fun d hd => mem_cons_of_mem _ (hdeps d hd)⟩
    · obtain ⟨row, hrow, hdeps⟩ := ih h.1 hid
      exact ⟨row, hrow, fun d hd => mem_cons_of_mem _ (hdeps d hd)⟩

theorem settled_acc (hdistinct : (rows.map PlanRecord.id).Nodup)
    {ids : List Text} (h : Settled rows ids) {id : Text} (hid : id ∈ ids) :
    Acc (DependsOn rows) id := by
  induction ids generalizing id with
  | nil => cases hid
  | cons first rest ih =>
    rcases mem_cons.mp hid with rfl | hid
    · obtain ⟨row, hrow, hdeps⟩ := h.2
      refine Acc.intro _ (fun d hd => ?_)
      obtain ⟨other, hother, hsame, hmem⟩ := hd
      rw [← hsame, rowOf_id hdistinct hother] at hrow
      cases hrow
      exact ih h.1 (hdeps d hmem)
    · exact ih h.1 hid

/-- Rows with different ids that a search accepts are sound. -/
theorem sound_of_search (hdistinct : (rows.map PlanRecord.id).Nodup)
    {visited : List Text} (h : visitRows rows = .ok visited) : Sound rows := by
  have hsearched := searched_list (fun hb h => visit_searched hb h)
    (show Settled rows [] from trivial) h
  refine ⟨hdistinct, ?_, ?_⟩
  · intro row hrow d hd
    obtain ⟨found, hfound, hdeps⟩ := settled_mem hsearched.settled
      (hsearched.done (mem_map_of_mem hrow))
    rw [rowOf_id hdistinct hrow] at hfound
    cases hfound
    obtain ⟨other, hother, _⟩ := settled_mem hsearched.settled (hdeps d hd)
    obtain ⟨hmem, hid⟩ := rowOf_mem hother
    exact hid ▸ mem_map_of_mem hmem
  · intro row hrow
    exact settled_acc hdistinct hsearched.settled (hsearched.done (mem_map_of_mem hrow))

theorem Sound.map (h : Sound rows) {f : PlanRecord → PlanRecord}
    (hid : ∀ row, (f row).id = row.id) (hdeps : ∀ row, (f row).dependsOn = row.dependsOn) :
    Sound (rows.map f) := by
  have hids : (rows.map f).map PlanRecord.id = rows.map PlanRecord.id := by
    rw [map_map]
    exact map_congr_left (fun row _ => hid row)
  have hsame : DependsOn (rows.map f) = DependsOn rows := by
    funext d id
    apply propext
    constructor
    · rintro ⟨row, hrow, rfl, hd⟩
      obtain ⟨old, hold, rfl⟩ := mem_map.mp hrow
      exact ⟨old, hold, (hid old).symm, hdeps old ▸ hd⟩
    · rintro ⟨row, hrow, rfl, hd⟩
      exact ⟨f row, mem_map_of_mem hrow, hid row, (hdeps row).symm ▸ hd⟩
  refine ⟨hids ▸ h.distinct, ?_, ?_⟩
  · intro row hrow d hd
    obtain ⟨old, hold, rfl⟩ := mem_map.mp hrow
    rw [hids]
    exact h.named old hold d (hdeps old ▸ hd)
  intro row hrow
  obtain ⟨old, hold, rfl⟩ := mem_map.mp hrow
  rw [hsame, hid]
  exact h.founded old hold

theorem placeRecord_ids (record : PlanRecord) (rows : List PlanRecord) :
    (placeRecord record rows).map PlanRecord.id =
      if record.id ∈ rows.map PlanRecord.id then rows.map PlanRecord.id
      else rows.map PlanRecord.id ++ [record.id] := by
  induction rows with
  | nil => rfl
  | cons row rest ih =>
    unfold placeRecord
    by_cases hid : row.id = record.id
    · rw [if_pos hid, map_cons, map_cons, if_pos (by rw [hid]; exact mem_cons_self),
        hid]
    rw [if_neg hid, map_cons, map_cons, ih]
    have hother : record.id ≠ row.id := fun h => hid h.symm
    by_cases hmem : record.id ∈ rest.map PlanRecord.id
    · rw [if_pos hmem, if_pos (mem_cons_of_mem _ hmem)]
    · rw [if_neg hmem, if_neg (by rw [mem_cons, not_or]; exact ⟨hother, hmem⟩)]
      rfl

theorem patchRows_ids (numbers : NumberContext) {records : List Json}
    {rows rows' : List PlanRecord} (hdistinct : (rows.map PlanRecord.id).Nodup)
    (h : patchRows numbers rows records = .ok rows') :
    (rows'.map PlanRecord.id).Nodup ∧ rows.map PlanRecord.id ⊆ rows'.map PlanRecord.id := by
  induction records generalizing rows with
  | nil =>
    cases h
    exact ⟨hdistinct, List.Subset.refl _⟩
  | cons j records ih =>
    unfold patchRows at h
    simp only [except_bind_ok] at h
    obtain ⟨record, _, middle, hstore, h⟩ := h
    unfold storeRecord at hstore
    split at hstore
    · cases hstore
    cases hstore
    have hids := placeRecord_ids record rows
    have hmiddle : ((placeRecord record rows).map PlanRecord.id).Nodup ∧
        rows.map PlanRecord.id ⊆ (placeRecord record rows).map PlanRecord.id := by
      rw [hids]
      split
      · exact ⟨hdistinct, List.Subset.refl _⟩
      next hnew =>
        refine ⟨nodup_append.mpr ⟨hdistinct, nodup_singleton _, ?_⟩,
          subset_append_left _ _⟩
        intro x hx y hy hsame
        rw [mem_singleton.mp hy] at hsame
        exact hnew (hsame ▸ hx)
    obtain ⟨hnodup, hkept⟩ := ih hmiddle.1 h
    exact ⟨hnodup, List.Subset.trans hmiddle.2 hkept⟩

variable {numbers : NumberContext} {s s' : InvestigationState}

/-- What an accepted plan has checked and written. -/
theorem investigationPlan_ok {r : Json} (h : investigationPlan numbers s r = .ok s') :
    ∃ c records rows visited next, patchRows numbers (s.rows c) records = .ok rows ∧
      visitRows rows = .ok visited ∧ withActiveTask (s.withRows c rows) r = .ok next ∧
      s' = { next with planned := true, revision := countUp s.revision } := by
  unfold investigationPlan at h
  rw [except_bind_ok] at h
  obtain ⟨_, _, h⟩ := h
  rw [except_bind_ok] at h
  obtain ⟨expected, _, h⟩ := h
  split at h
  · cases h
  simp only [except_bind_ok] at h
  obtain ⟨c, _, records, _, rows, hpatch, visited, hvisit, next, hactive, h⟩ := h
  split at h
  · cases h
  · cases h
    exact ⟨c, records, rows, visited, next, hpatch, hvisit, hactive, rfl⟩

/-- What a plan does to a state: its own patch, or nothing. -/
def planStep (numbers : NumberContext) (s : InvestigationState) (r : Json) :
    InvestigationState × Access Unit :=
  match investigationPlan numbers s r with
  | .ok s' => (s', .ok ())
  | .error e => (s, .error e)

/-- What holds of a state between plans and observations. -/
structure PlanSound (s : InvestigationState) : Prop where
  sound : ∀ c, Sound (s.rows c)
  active : ∀ id, s.activeTask = some id →
    id ∈ (s.rows .tasks).map PlanRecord.id ∨ id ∈ (s.rows .goals).map PlanRecord.id

theorem withActiveTask_ok {r : Json} (h : withActiveTask s r = .ok s') : s'.rows = s.rows ∧
      (s'.activeTask = s.activeTask ∨ ∃ id, s'.activeTask = some id ∧ s.names id = true) := by
  unfold withActiveTask at h
  split at h
  · cases h
    exact ⟨rfl, Or.inl rfl⟩
  next v _ =>
    rw [except_bind_ok] at h
    obtain ⟨active, _, h⟩ := h
    split at h
    · next hnames =>
        cases h
        exact ⟨rfl, Or.inr ⟨active, rfl, hnames⟩⟩
    · cases h

theorem names_iff (s : InvestigationState) (id : Text) : s.names id = true ↔
    id ∈ (s.rows .tasks).map PlanRecord.id ∨ id ∈ (s.rows .goals).map PlanRecord.id := by
  unfold InvestigationState.names
  simp only [Bool.or_eq_true, any_eq_true, decide_eq_true_eq, mem_map]

/-- A plan keeps the invariant. -/
theorem PlanSound.plan {numbers : NumberContext} {s s' : InvestigationState} {r : Json}
    (hs : PlanSound s) (h : investigationPlan numbers s r = .ok s') : PlanSound s' := by
  obtain ⟨c, records, rows, visited, next, hpatch, hvisit, hactive, rfl⟩ := investigationPlan_ok h
  obtain ⟨hdistinct, hkept⟩ := patchRows_ids numbers (hs.sound c).distinct hpatch
  obtain ⟨hrows, htask⟩ := withActiveTask_ok hactive
  have hids : ∀ c', (s.rows c').map PlanRecord.id ⊆ (next.rows c').map PlanRecord.id := by
    intro c'
    rw [hrows]
    by_cases hc : c' = c
    · subst hc
      rw [InvestigationState.withRows_rows_self]
      exact hkept
    · rw [InvestigationState.withRows_rows_ne s rows hc]
      exact List.Subset.refl _
  constructor
  · intro c'
    show Sound (next.rows c')
    rw [hrows]
    by_cases hc : c' = c
    · subst hc
      rw [InvestigationState.withRows_rows_self]
      exact sound_of_search hdistinct hvisit
    · rw [InvestigationState.withRows_rows_ne s rows hc]
      exact hs.sound c'
  · intro id hid
    have hid : next.activeTask = some id := hid
    rcases htask with hsame | ⟨active, htask, hnames⟩
    · rw [hsame] at hid
      exact (hs.active id hid).imp (fun h => hids .tasks h) (fun h => hids .goals h)
    rw [htask] at hid
    cases hid
    have hnamed := (names_iff _ _).mp hnames
    rw [← hrows] at hnamed
    exact hnamed

theorem reopen_keeps (row : PlanRecord) :
    (reopen row).id = row.id ∧ (reopen row).dependsOn = row.dependsOn := by
  unfold reopen
  split
  · exact ⟨rfl, rfl⟩
  · exact ⟨rfl, rfl⟩

variable {s : InvestigationState}

theorem PlanSound.reopenRows (hs : PlanSound s) : PlanSound (reopenRows s) := by
  have hmap : ∀ rows, Sound rows → Sound (rows.map reopen) := fun _ h =>
    h.map (fun row => (reopen_keeps row).1) (fun row => (reopen_keeps row).2)
  have hids : ∀ rows : List PlanRecord,
      (rows.map reopen).map PlanRecord.id = rows.map PlanRecord.id := by
    intro rows
    rw [map_map]
    exact map_congr_left (fun row _ => (reopen_keeps row).1)
  constructor
  · intro c
    cases c with
    | summaries => exact hs.sound .summaries
    | goals => exact hmap _ (hs.sound .goals)
    | tasks => exact hmap _ (hs.sound .tasks)
    | hypotheses => exact hmap _ (hs.sound .hypotheses)
  · intro id hid
    have hactive := hs.active id hid
    rw [← hids (s.rows .tasks), ← hids (s.rows .goals)] at hactive
    exact hactive

variable (sha256 : Text → Text)

theorem observe_rows (s : InvestigationState) (d : InvestigationDecision)
    (f : InvestigationFeedback) (generation : Int) (nativeFingerprint : Text) :
    let s' := (investigationObserve sha256 s d f generation nativeFingerprint).1
    (s'.rows = s.rows ∨ s'.rows = (Investigation.reopenRows s).rows) ∧
      s'.activeTask = s.activeTask := by
  intro s'
  have hcounted : ∀ counted, counted = accounted sha256 s d f generation nativeFingerprint →
      (counted.rows = s.rows ∨ counted.rows = (Investigation.reopenRows s).rows) ∧
        counted.activeTask = s.activeTask := by
    rintro counted rfl
    have hquery : (countQuery sha256 { s with lastGeneration := generation } d f
          nativeFingerprint).rows = s.rows ∧
        (countQuery sha256 { s with lastGeneration := generation } d f
          nativeFingerprint).activeTask = s.activeTask := by
      unfold countQuery
      dsimp only
      split
      · exact ⟨rfl, rfl⟩
      · exact ⟨rfl, rfl⟩
    unfold accounted
    dsimp only
    split
    · refine ⟨Or.inr ?_, hquery.2⟩
      unfold Investigation.reopenRows
      dsimp only
      rw [hquery.1]
    · exact ⟨Or.inl hquery.1, hquery.2⟩
  have hadded : ∀ counted record added, addRecord counted record = .ok added →
      added.rows = counted.rows ∧ added.activeTask = counted.activeTask := by
    intro counted record added h
    unfold addRecord at h
    split at h
    · cases h
    split at h
    · cases h
    · cases h
      exact ⟨rfl, rfl⟩
  have hs := hcounted _ rfl
  unfold s' investigationObserve
  split
  · exact ⟨Or.inl rfl, rfl⟩
  dsimp only
  split
  · exact hs
  next added hadd =>
    split at hadd
    · cases hadd
      exact hs
    obtain ⟨hrows, hactive⟩ := hadded _ _ _ hadd
    dsimp only
    rw [hrows, hactive]
    exact hs

/-- An observation keeps the invariant. -/
theorem PlanSound.observe (hs : PlanSound s) (sha256 : Text → Text)
    (d : InvestigationDecision) (f : InvestigationFeedback) (generation : Int)
    (nativeFingerprint : Text) :
    PlanSound (investigationObserve sha256 s d f generation nativeFingerprint).1 := by
  obtain ⟨hrows, hactive⟩ := observe_rows sha256 s d f generation nativeFingerprint
  have hreopened := hs.reopenRows
  rcases hrows with hrows | hrows
  · constructor
    · rw [hrows]
      exact hs.sound
    · rw [hrows, hactive]
      exact hs.active
  · constructor
    · rw [hrows]
      exact hreopened.sound
    · rw [hrows, hactive]
      exact hreopened.active

theorem PlanSound.start : PlanSound investigationState := by
  have hgoals : Sound (investigationState.rows .goals) := by
    have hnone : ∀ row ∈ investigationState.rows .goals, row.dependsOn = [] := by
      intro row hrow
      obtain ⟨name, _, rfl⟩ := mem_map.mp hrow
      rfl
    refine ⟨by decide, ?_, ?_⟩
    · intro row hrow d hd
      rw [hnone row hrow] at hd
      cases hd
    intro row hrow
    refine Acc.intro _ (fun d hd => ?_)
    obtain ⟨other, hother, _, hd⟩ := hd
    rw [hnone other hother] at hd
    cases hd
  have hempty : Sound [] :=
    ⟨nodup_nil, fun _ h => absurd h not_mem_nil, fun _ h => absurd h not_mem_nil⟩
  constructor
  · intro c
    cases c with
    | goals => exact hgoals
    | tasks | summaries | hypotheses => exact hempty
  · intro id hid
    cases hid

/-- The states that plans and observations reach, in any order. -/
inductive PlanRun (numbers : NumberContext) (sha256 : Text → Text) : InvestigationState → Prop
  | start : PlanRun numbers sha256 investigationState
  | plan {s : InvestigationState} (h : PlanRun numbers sha256 s) (r : Json) :
      PlanRun numbers sha256 (planStep numbers s r).1
  | observe {s : InvestigationState} (h : PlanRun numbers sha256 s) (d : InvestigationDecision)
      (f : InvestigationFeedback) (generation : Int) (nativeFingerprint : Text) :
      PlanRun numbers sha256 (investigationObserve sha256 s d f generation nativeFingerprint).1

/-- Every state that plans and observations reach is sound. -/
theorem PlanRun.sound {sha256 : Text → Text} (h : PlanRun numbers sha256 s) : PlanSound s := by
  induction h with
  | start => exact PlanSound.start
  | @plan s _ r ih =>
    unfold planStep
    cases hplan : investigationPlan numbers s r with
    | ok s' => exact ih.plan hplan
    | error e => exact ih
  | observe _ d f generation nativeFingerprint ih =>
    exact ih.observe sha256 d f generation nativeFingerprint

/-- Every dependency is supported. -/
def Supported (rows : List PlanRecord) (task : PlanRecord) : Prop :=
  ∀ d ∈ task.dependsOn, ∃ row ∈ rows, row.id = d ∧ row.status = .supported

theorem isReady_iff (h : (rows.map PlanRecord.id).Nodup)
    (task : PlanRecord) : isReady rows task = true ↔ Supported rows task := by
  unfold isReady Supported
  rw [all_eq_true]
  refine forall_congr' (fun d => forall_congr' (fun _ => ?_))
  rw [decide_eq_true_iff, Option.map_eq_some_iff]
  constructor
  · rintro ⟨row, hrow, hstatus⟩
    obtain ⟨hmem, hid⟩ := rowOf_mem hrow
    exact ⟨row, hmem, hid, hstatus⟩
  · rintro ⟨row, hmem, rfl, hstatus⟩
    exact ⟨row, rowOf_id h hmem, hstatus⟩

/-- What the queue of a state shows. -/
structure QueueLaw (s : InvestigationState) : Prop where
  /-- The queue is the beginning of all records that are ready, sorted by their scores, where
  records with one score stand in their own order. -/
  shown : ∃ all : List QueueEntry,
    (investigationQueue s).records = all.take 8 ∧ (investigationQueue s).readyTotal = all.length ∧
    (∀ task, task ∈ all.map QueueEntry.record ↔
      task ∈ scheduled s ∧ task.status = .opened ∧ Supported (scheduled s) task) ∧
    (∀ entry ∈ all, entry.score = scoreOf (scheduled s) entry.record) ∧
    all.Pairwise (fun a b => b.score ≤ a.score) ∧
    ∀ score, ((all.filter (fun e => e.score = score)).map QueueEntry.record).Sublist (scheduled s)
  /-- Where nothing is ready, an open record waits for one that is given up. -/
  waits : (investigationQueue s).readyTotal = 0 → ∀ task ∈ scheduled s, task.status = .opened →
    ∃ row ∈ scheduled s, Relation.TransGen (DependsOn (scheduled s)) row.id task.id ∧
      (row.status = .contradicted ∨ row.status = .blocked ∨ row.status = .superseded)

instance : IsTrans QueueEntry (fun a b => b.score ≤ a.score) :=
  ⟨fun _ _ _ hab hbc => Nat.le_trans hbc hab⟩

instance : Std.Total (fun a b : QueueEntry => b.score ≤ a.score) :=
  ⟨fun a b => Nat.le_total b.score a.score⟩

theorem sortedEntries_mem {entry : QueueEntry} :
    entry ∈ sortedEntries rows ↔ entry ∈ readyEntries rows :=
  (perm_insertionSort _ _).mem_iff

theorem readyEntries_records (rows : List PlanRecord) : (readyEntries rows).map QueueEntry.record =
      rows.filter (fun task => task.status = .opened && isReady rows task) := by
  unfold readyEntries
  rw [map_map]
  exact map_id _

theorem readyEntries_mem (h : (rows.map PlanRecord.id).Nodup)
    (task : PlanRecord) : task ∈ (readyEntries rows).map QueueEntry.record ↔
      task ∈ rows ∧ task.status = .opened ∧ Supported rows task := by
  rw [readyEntries_records, mem_filter, Bool.and_eq_true, decide_eq_true_iff, isReady_iff h]

/-- An open record that is not ready waits for one that is given up, or for an open one. -/
theorem waits_of_acc (hsound : Sound rows)
    (hnone : ∀ task ∈ rows, task.status = .opened → ¬ Supported rows task) {id : Text}
    (hacc : Acc (DependsOn rows) id) : ∀ task ∈ rows, task.id = id → task.status = .opened →
      ∃ row ∈ rows, Relation.TransGen (DependsOn rows) row.id task.id ∧
        (row.status = .contradicted ∨ row.status = .blocked ∨ row.status = .superseded) := by
  induction hacc with
  | intro id _ ih =>
    rintro task htask rfl hopen
    have hwaits : ∃ d ∈ task.dependsOn, ∀ row ∈ rows, row.id = d → row.status ≠ .supported := by
      by_contra hall
      refine hnone task htask hopen (fun d hd => ?_)
      by_contra hmissing
      refine hall ⟨d, hd, fun row hrow hid hstatus => hmissing ⟨row, hrow, hid, hstatus⟩⟩
    obtain ⟨d, hd, hunsupported⟩ := hwaits
    obtain ⟨row, hrow, rfl⟩ := mem_map.mp (hsound.named task htask d hd)
    have hstep : DependsOn rows row.id task.id := ⟨task, htask, rfl, hd⟩
    have hstatus := hunsupported row hrow rfl
    cases hcase : row.status with
    | opened =>
      obtain ⟨last, hlast, hchain, hgiven⟩ := ih row.id hstep row hrow rfl hcase
      exact ⟨last, hlast, hchain.tail hstep, hgiven⟩
    | supported => exact absurd hcase hstatus
    | contradicted => exact ⟨row, hrow, Relation.TransGen.single hstep, Or.inl hcase⟩
    | blocked => exact ⟨row, hrow, Relation.TransGen.single hstep, Or.inr (Or.inl hcase)⟩
    | superseded => exact ⟨row, hrow, Relation.TransGen.single hstep, Or.inr (Or.inr hcase)⟩

theorem PlanSound.scheduled (hs : PlanSound s) : Sound (scheduled s) := by
  unfold Investigation.scheduled
  split
  · exact hs.sound .goals
  · exact hs.sound .tasks

/-- The queue of a sound state obeys its law. -/
theorem PlanSound.queue (hs : PlanSound s) : QueueLaw s := by
  have hsound := hs.scheduled
  have hsorted : (sortedEntries (Investigation.scheduled s)).length =
      (readyEntries (Investigation.scheduled s)).length := length_insertionSort _ _
  constructor
  · refine ⟨sortedEntries (Investigation.scheduled s), rfl, rfl, ?_, ?_, ?_, ?_⟩
    · intro task
      rw [← readyEntries_mem hsound.distinct]
      exact ((perm_insertionSort _ _).map QueueEntry.record).mem_iff
    · intro entry hentry
      obtain ⟨task, _, rfl⟩ := mem_map.mp (sortedEntries_mem.mp hentry)
      rfl
    · exact pairwise_insertionSort _ _
    intro score
    have htied : ((readyEntries (Investigation.scheduled s)).filter
        (fun e => e.score = score)).Pairwise (fun a b => b.score ≤ a.score) := by
      refine pairwise_iff_forall_sublist.mpr (fun {a b} hab => ?_)
      have ha := hab.subset mem_cons_self
      have hb := hab.subset (mem_cons_of_mem _ mem_cons_self)
      have hsame := of_decide_eq_true (mem_filter.mp ha).2
      have hsame' := of_decide_eq_true (mem_filter.mp hb).2
      rw [hsame, hsame']
    have hkept : (sortedEntries (Investigation.scheduled s)).filter (fun e => e.score = score) =
        (readyEntries (Investigation.scheduled s)).filter (fun e => e.score = score) :=
      Paging.filter_insertionSort_of_sorted _ htied
    rw [hkept]
    refine (filter_sublist.map QueueEntry.record).trans ?_
    rw [readyEntries_records]
    exact filter_sublist
  · intro hnone task htask hopen
    have hempty : readyEntries (Investigation.scheduled s) = [] := by
      rw [← length_eq_zero_iff, ← hsorted]
      exact hnone
    refine waits_of_acc hsound ?_ (hsound.founded task htask) task htask rfl hopen
    intro task htask hopen hready
    have hmem := (readyEntries_mem hsound.distinct task).mpr ⟨htask, hopen, hready⟩
    rw [hempty] at hmem
    cases hmem

/-- What holds of the state of an investigation after plans and observations. -/
structure PlanLaw (numbers : NumberContext) (s : InvestigationState) : Prop where
  distinct : ∀ c, ((s.rows c).map PlanRecord.id).Nodup
  named : ∀ c, ∀ row ∈ s.rows c, ∀ d ∈ row.dependsOn, ∃ other ∈ s.rows c, other.id = d
  acyclic : ∀ c id, ¬ Relation.TransGen (DependsOn (s.rows c)) id id
  /-- The search of a plan for a cycle is never too deep. -/
  searched : ∀ rows, visitRows rows ≠ .error "search depth"
  accepted : ∀ {r : Json}, (planStep numbers s r).2 = .ok () →
    (planStep numbers s r).1.revision = (s.revision + 1) % 4294967296
  rejected : ∀ {r : Json}, (planStep numbers s r).2 ≠ .ok () → (planStep numbers s r).1 = s
  active : ∀ id, s.activeTask = some id → ∃ row, (row ∈ s.rows .tasks ∨ row ∈ s.rows .goals) ∧
    row.id = id
  queue : QueueLaw s

/-- Plans and observations keep the law of the state, in any order. -/
theorem investigation_plans {numbers : NumberContext} {sha256 : Text → Text}
    {s : InvestigationState} (h : PlanRun numbers sha256 s) : PlanLaw numbers s where
  distinct := fun c => (h.sound.sound c).distinct
  named := by
    intro c row hrow d hd
    obtain ⟨other, hother, hid⟩ := mem_map.mp ((h.sound.sound c).named row hrow d hd)
    exact ⟨other, hother, hid⟩
  acyclic := fun c => (h.sound.sound c).acyclic
  searched := visitRows_depth
  accepted := by
    intro r hok
    unfold planStep at hok ⊢
    cases hplan : investigationPlan numbers s r with
    | error e =>
      rw [hplan] at hok
      cases hok
    | ok s' =>
      obtain ⟨_, _, _, _, _, _, _, _, rfl⟩ := investigationPlan_ok hplan
      rfl
  rejected := by
    intro r hfails
    unfold planStep at hfails ⊢
    cases hplan : investigationPlan numbers s r with
    | error e => rfl
    | ok s' =>
      rw [hplan] at hfails
      exact absurd rfl hfails
  active := by
    intro id hid
    rcases h.sound.active id hid with hmem | hmem
    · obtain ⟨row, hrow, hid⟩ := mem_map.mp hmem
      exact ⟨row, Or.inl hrow, hid⟩
    · obtain ⟨row, hrow, hid⟩ := mem_map.mp hmem
      exact ⟨row, Or.inr hrow, hid⟩
  queue := h.sound.queue

/-- A plan of two tasks, one after the other. -/
def twoTasks : Json :=
  let task := fun (id : String) (dependsOn : List Json) => object [("id", .str id.toList),
    ("question", .str "q"), ("status", .str "open"),
    ("depends_on", .arr dependsOn), ("summary", .str [])]
  object [("expected_revision", .int 0), ("collection", .str "tasks"),
    ("records", .arr [task "b" [.str "a"], task "a" []])]

theorem investigation_plans_two : PlanLaw ⟨fun _ => 0, fun _ _ => false⟩
      (planStep ⟨fun _ => 0, fun _ _ => false⟩ investigationState twoTasks).1 :=
  investigation_plans (PlanRun.plan (PlanRun.start : PlanRun _ (fun t => t) _) twoTasks)

/-- Feedback that contradicts what was supported. -/
def contradiction : InvestigationFeedback where
  json := .obj [("status".toList, .str "contradicted".toList)]
  object := rfl
  flags := by
    intro key hkey v hv
    have hfind : [("status".toList, Json.str "contradicted".toList)].lookup key = some v := hv
    have hother : ∀ key ∈ ["omitted".toList, "source_verified".toList],
        (key == "status".toList) = false := by decide
    rw [lookup_cons, hother key hkey] at hfind
    cases hfind
  texts := fun _ hv => ⟨_, (Option.some.inj hv).symm⟩

/-- The first state after so many contradictions. -/
def contradictedState (n : Nat) : InvestigationState :=
  { investigationState with
    revision := n
    lastGeneration := if n = 0 then -1 else ((n + 1) % 2 : Nat) }

theorem contradictedState_next {n : Nat} (hn : n + 1 < 4294967296) :
    (investigationObserve sha256 (contradictedState n) ⟨"state", .null⟩ contradiction
      ((n % 2 : Nat) : Int) []).1 = contradictedState (n + 1) := by
  have hgeneration : (contradictedState n).lastGeneration ≠ ((n % 2 : Nat) : Int) := by
    show (if n = 0 then (-1 : Int) else ((n + 1) % 2 : Nat)) ≠ ((n % 2 : Nat) : Int)
    split
    · omega
    · omega
  have hrows : (reopenRows investigationState).rows = investigationState.rows := by
    funext c
    cases c with
    | goals | tasks | summaries | hypotheses => rfl
  have hlast : contradictedState (n + 1) = { investigationState with
      rows := (reopenRows investigationState).rows
      revision := countUp n
      lastGeneration := ((n % 2 : Nat) : Int) } := by
    unfold contradictedState countUp
    rw [hrows, Nat.mod_eq_of_lt hn, if_neg (Nat.succ_ne_zero n),
      show (n + 1 + 1) % 2 = n % 2 by omega]
  unfold investigationObserve
  rw [if_neg hgeneration, hlast]
  rfl

theorem contradictedState_reached (numbers : NumberContext) (sha256 : Text → Text) {n : Nat}
    (hn : n < 4294967296) : PlanRun numbers sha256 (contradictedState n) := by
  induction n with
  | zero => exact PlanRun.start
  | succ n ih =>
    rw [← contradictedState_next sha256 hn]
    exact PlanRun.observe (ih (by omega)) _ _ _ _

/-- A plan without records. -/
def emptyPlan (revision : Nat) : Json :=
  object [("expected_revision", .int revision), ("collection", .str "tasks"), ("records", .arr [])]

theorem emptyPlan_accepted (htasks : s.rows .tasks = []) (hsize : { s.withRows .tasks [] with
      planned := true
      revision := countUp s.revision }.size ≤ stateBytes) :
    investigationPlan numbers s (emptyPlan s.revision) = .ok { s.withRows .tasks [] with
      planned := true
      revision := countUp s.revision } := by
  have hkeys : checkKeys planKeys (emptyPlan s.revision) = .ok () := rfl
  have hexpected : (emptyPlan s.revision).at? "expected_revision" =
      .ok (.int s.revision) := rfl
  have hcollection : planCollectionOf (emptyPlan s.revision) = .ok .tasks := rfl
  have hrecords : planRecords (emptyPlan s.revision) = .ok [] := rfl
  have hactive : ∀ s', withActiveTask s' (emptyPlan s.revision) = .ok s' := fun _ => rfl
  have hsame : isInt numbers (.int s.revision) s.revision = true := beq_self_eq_true _
  have hvisit : visitRows [] = .ok [] := rfl
  have hpatch : patchRows numbers [] [] = .ok [] := rfl
  unfold investigationPlan
  simp only [hkeys, hexpected, hcollection, hrecords, hactive, hsame, htasks, hpatch, hvisit, bind,
    Except.bind, Bool.not_true, Bool.false_eq_true, if_false, if_neg (Nat.not_lt.mpr hsize)]
  rfl

theorem contradictedState_size : { (contradictedState 4294967295).withRows .tasks [] with
      planned := true
      revision := countUp (contradictedState 4294967295).revision }.size ≤ stateBytes := by
  set_option maxRecDepth 20000 in decide

/-- An accepted plan after so many contradictions takes the revision back to zero. -/
theorem revision_returns : ¬ ∀ s : InvestigationState,
    PlanRun ⟨fun _ => 0, fun _ _ => false⟩ (fun t => t) s → ∀ r : Json,
      (planStep ⟨fun _ => 0, fun _ _ => false⟩ s r).2 = .ok () →
        (planStep ⟨fun _ => 0, fun _ _ => false⟩ s r).1.revision = s.revision + 1 := by
  intro h
  have hplan : ∃ s', investigationPlan ⟨fun _ => 0, fun _ _ => false⟩
      (contradictedState 4294967295) (emptyPlan 4294967295) = .ok s' :=
    ⟨_, emptyPlan_accepted rfl contradictedState_size⟩
  obtain ⟨s', hplan⟩ := hplan
  have hreached := contradictedState_reached ⟨fun _ => 0, fun _ _ => false⟩ (fun t => t)
    (show 4294967295 < 4294967296 by omega)
  have hnext := h _ hreached _ (by unfold planStep; rw [hplan])
  obtain ⟨_, _, _, _, _, _, _, _, rfl⟩ := investigationPlan_ok hplan
  unfold planStep at hnext
  rw [hplan] at hnext
  have hvalue : countUp 4294967295 = 4294967295 + 1 := hnext
  exact absurd hvalue (by decide)

end Indago.Investigation
