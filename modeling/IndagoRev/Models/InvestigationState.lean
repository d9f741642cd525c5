import IndagoRev.Workbench.Batch
import IndagoRev.Workbench.Calculation
import IndagoRev.Workbench.Pagination
import IndagoRev.Workbench.StaticIndex

/-!
# The state of an investigation

Goals, tasks, summaries and hypotheses are assessed records that a plan edits.
Observations, values and turns are added while decisions are carried out.  The state
also counts queries and the steps without news.  None of it is a proof.
-/

namespace Indago.Investigation

open StdText JsonValues JsonValues.Json StaticIndex

/-- The status that a record is assessed with. -/
inductive Assessment where
  | opened
  | supported
  | contradicted
  | blocked
  | superseded
  deriving DecidableEq

def Assessment.text : Assessment → Text
  | .opened => "open"
  | .supported => "supported"
  | .contradicted => "contradicted"
  | .blocked => "blocked"
  | .superseded => "superseded"

def Assessment.all : List Assessment := [.opened, .supported, .contradicted, .blocked, .superseded]

def Assessment.ofText (t : Text) : Option Assessment := Assessment.all.find? (fun a => a.text = t)

/-- A goal, task, summary or hypothesis. -/
structure PlanRecord where
  id : Text
  question : Text
  status : Assessment
  dependsOn : List Text
  priority : Nat
  summary : Text
  /-- The fields that a record may also have. -/
  others : List (Text × Json)

def PlanRecord.fields (record : PlanRecord) : List (Text × Json) :=
  [("id".toList, .str record.id), ("question".toList, .str record.question),
    ("status".toList, .str record.status.text),
    ("depends_on".toList, .arr (record.dependsOn.map .str)),
    ("priority".toList, .int record.priority), ("summary".toList, .str record.summary)] ++
  record.others

def PlanRecord.toJson (record : PlanRecord) : Json := object record.fields

/-- A goal of the initial state. -/
def initialGoal (name : Text) : PlanRecord where
  id := name
  question := "Establish " ++ name
  status := .opened
  dependsOn := []
  priority := 5
  summary := []
  others := []

/-- The collections that a plan may edit. -/
inductive PlanCollection where
  | goals
  | tasks
  | summaries
  | hypotheses
  deriving DecidableEq

def PlanCollection.text : PlanCollection → Text
  | .goals => "goals"
  | .tasks => "tasks"
  | .summaries => "summaries"
  | .hypotheses => "hypotheses"

def PlanCollection.all : List PlanCollection := [.goals, .tasks, .summaries, .hypotheses]

def PlanCollection.ofText (t : Text) : Option PlanCollection :=
  PlanCollection.all.find? (fun c => c.text = t)

structure InvestigationState where
  revision : Nat
  planned : Bool
  rows : PlanCollection → List PlanRecord
  observations : List Json
  values : List Json
  turns : List Json
  queryCounts : List (Text × Nat)
  seen : List (Text × List Text)
  idleSteps : Nat
  activeTask : Option Text
  lastGeneration : Int

/-- `investigation_state`. -/
def investigationState : InvestigationState where
  revision := 0
  planned := false
  rows := fun
    | .goals => ["input".toList, "transformation".toList, "constraints".toList,
        "acceptance".toList, "output".toList].map initialGoal
    | .tasks | .summaries | .hypotheses => []
  observations := []
  values := []
  turns := []
  queryCounts := []
  seen := []
  idleSteps := 0
  activeTask := none
  lastGeneration := -1

namespace InvestigationState

variable (s : InvestigationState)

def fields : List (Text × Json) :=
  [("schema".toList, .str "indago.investigation-state.v1".toList),
    ("revision".toList, .int s.revision), ("planned".toList, .bool s.planned)] ++
    PlanCollection.all.map (fun c => (c.text, .arr ((s.rows c).map PlanRecord.toJson))) ++
    [("observations".toList, .arr s.observations), ("values".toList, .arr s.values),
      ("turns".toList, .arr s.turns),
      ("query_counts".toList, .obj (s.queryCounts.map (fun e => (e.1, .int e.2)))),
      ("seen".toList, .obj (s.seen.map (fun e => (e.1, .arr (e.2.map .str))))),
      ("idle_steps".toList, .int s.idleSteps),
      ("active_task".toList, (s.activeTask.map Json.str).getD .null),
      ("last_generation".toList, .int s.lastGeneration)]

def toJson : Json := object s.fields

/-- `dump().size()`. -/
def size : Nat := utf8Length s.toJson.dump

def withRows (c : PlanCollection) (rows : List PlanRecord) : InvestigationState :=
  { s with rows := fun c' => if c' = c then rows else s.rows c' }

@[simp] theorem withRows_rows_self (c : PlanCollection) (rows : List PlanRecord) :
    (s.withRows c rows).rows c = rows := by
  simp [withRows]

theorem withRows_rows_ne {c c' : PlanCollection} (rows : List PlanRecord) (h : c' ≠ c) :
    (s.withRows c rows).rows c' = s.rows c' := by
  simp [withRows, h]

end InvestigationState

/-- `2*1024*1024`. -/
def stateBytes : Nat := 2097152

/-- An unsigned counter of the state, one up. -/
def countUp (n : Nat) : Nat := (n + 1) % 4294967296

/-- An entry takes the place of the one with its key, or its place in the order. -/
def setKey {α : Type} (key : Text) (v : α) : List (Text × α) → List (Text × α)
  | [] => [(key, v)]
  | (k, w) :: rest =>
    if k = key then (key, v) :: rest
    else if key < k then (key, v) :: (k, w) :: rest
    else (k, w) :: setKey key v rest

theorem lookup_setKey {α : Type} (key : Text) (v : α) (entries : List (Text × α)) (other : Text) :
    (setKey key v entries).lookup other = if other = key then some v else entries.lookup other := by
  induction entries with
  | nil =>
    by_cases hk : other = key
    · simp [setKey, hk]
    · simp [setKey, List.lookup_cons, hk, beq_eq_false_iff_ne.mpr hk]
  | cons e rest ih =>
    obtain ⟨k, w⟩ := e
    unfold setKey
    by_cases hk : other = key
    · subst hk
      by_cases hsame : k = other
      · simp [hsame]
      · by_cases hlt : other < k
        · simp [hsame, hlt]
        · simp [hsame, hlt, List.lookup_cons, beq_eq_false_iff_ne.mpr (Ne.symm hsame), ih]
    · have hfalse := beq_eq_false_iff_ne.mpr hk
      by_cases hsame : k = key
      · simp [hsame, List.lookup_cons, hk, hfalse]
      · by_cases hlt : key < k
        · simp [hsame, hlt, List.lookup_cons, hk, hfalse]
        · simp [hsame, hlt, List.lookup_cons, hk, ih]

theorem get?_object (fields : List (Text × Json)) (key : Text) :
    (object fields).get? key = fields.reverse.lookup key := by
  have hfold : ∀ (fields rest : List (Text × Json)),
      (fields.foldl (fun rest f => insertField f.1 f.2 rest) rest).lookup key =
        (fields.reverse ++ rest).lookup key := by
    intro fields
    induction fields with
    | nil => exact fun _ => rfl
    | cons f fields ih =>
      intro rest
      rw [List.foldl_cons, ih, List.reverse_cons, List.append_assoc, List.lookup_append,
        List.lookup_append, lookup_insertField, List.singleton_append, List.lookup_cons]
      by_cases hk : key = f.1
      · rw [if_pos hk, beq_iff_eq.mpr hk]
      · rw [if_neg hk, beq_eq_false_iff_ne.mpr hk]
  unfold object
  rw [get?, hfold, List.append_nil]

theorem get?_object_append (fields more : List (Text × Json)) {key : Text}
    (h : ∀ e ∈ more, e.1 ≠ key) : (object (fields ++ more)).get? key = (object fields).get? key := by
  have hmore : more.reverse.lookup key = none := by
    refine List.lookup_eq_none_iff.mpr (fun e he => ?_)
    exact bne_iff_ne.mpr (Ne.symm (h e (List.mem_reverse.mp he)))
  rw [get?_object, get?_object, List.reverse_append, List.lookup_append, hmore, Option.none_or]

theorem dump_str (t : Text) : (Json.str t).dump = quoted t := rfl

theorem escape_size (c : Char) : utf8Length (escape c) ≤ 6 := by
  have hsize : c.utf8Size ≤ 4 := Char.utf8Size_le_four c
  by_cases hcontrol : c.toNat < 32
  · have hall : ∀ n < 32, utf8Length (escape (Char.ofNat n)) ≤ 6 := by decide
    have hle := hall c.toNat hcontrol
    rw [Char.ofNat_toNat] at hle
    exact hle
  · unfold escape
    rw [if_neg (show ¬ c.toNat < 16 by omega), if_neg hcontrol]
    split_ifs
    all_goals simp only [utf8Length_cons, utf8Length_nil]
    all_goals first | decide | omega

theorem quoted_size (t : Text) :
    t.length ≤ utf8Length (quoted t) ∧ utf8Length (quoted t) ≤ 6 * t.length + 2 := by
  refine ⟨Nat.le_trans (length_le_quoted t) (length_le_utf8Length _), ?_⟩
  have hinside : utf8Length (t.flatMap escape) ≤ 6 * t.length := by
    induction t with
    | nil => exact Nat.le_refl _
    | cons c rest ih =>
      rw [List.flatMap_cons, utf8Length_append, List.length_cons]
      have hc := escape_size c
      omega
  unfold quoted
  rw [utf8Length_append, utf8Length_cons]
  show 1 + utf8Length (t.flatMap escape) + 1 ≤ _
  omega

/-- An object is as long as its keys at least, and no longer than its fields with six bytes
for a character of a key. -/
theorem dumpFields_size (fields : List (Text × Json)) :
    (fields.map (fun f => f.1.length + utf8Length f.2.dump)).sum ≤ utf8Length (dumpFields fields) ∧
      utf8Length (dumpFields fields) ≤
        (fields.map (fun f => 6 * f.1.length + utf8Length f.2.dump + 4)).sum := by
  induction fields with
  | nil => exact ⟨Nat.le_refl _, Nat.le_refl _⟩
  | cons f fields ih =>
    obtain ⟨k, v⟩ := f
    have hk := quoted_size k
    rw [List.map_cons, List.map_cons, List.sum_cons, List.sum_cons]
    cases fields with
    | nil =>
      show _ ≤ utf8Length (quoted k ++ ':' :: v.dump) ∧
        utf8Length (quoted k ++ ':' :: v.dump) ≤ _
      rw [utf8Length_append, utf8Length_cons, List.map_nil, List.map_nil, List.sum_nil]
      have hcolon : ':'.utf8Size = 1 := rfl
      dsimp only at *
      omega
    | cons f fields =>
      show _ ≤ utf8Length (quoted k ++ ':' :: v.dump ++ ',' :: dumpFields (f :: fields)) ∧
        utf8Length (quoted k ++ ':' :: v.dump ++ ',' :: dumpFields (f :: fields)) ≤ _
      rw [utf8Length_append, utf8Length_append, utf8Length_cons, utf8Length_cons]
      have hcolon : ':'.utf8Size = 1 := rfl
      have hcomma : ','.utf8Size = 1 := rfl
      dsimp only at *
      omega

theorem dump_obj (fields : List (Text × Json)) :
    utf8Length (Json.obj fields).dump = utf8Length (dumpFields fields) + 2 := by
  show utf8Length ('\x7b' :: dumpFields fields ++ ['\x7d']) = _
  rw [utf8Length_append, utf8Length_cons]
  show 1 + utf8Length (dumpFields fields) + 1 = _
  omega

end Indago.Investigation
