import IndagoRev.Models.InvestigationObserve
import IndagoRev.Models.InvestigationPlan
import IndagoRev.Workbench.EvidencePages

/-!
# Pages over the state of an investigation

A page shows the records of one collection that fit into 12000 bytes.  Its first record is
measured like every other one: where a record alone is longer than a page, the page is
empty and the next one begins where it has begun.  The writers of the collections do not
keep to that length: the values of one page of evidence stand under their whole pointers.
-/

namespace Indago.Investigation

open StdText JsonValues JsonValues.Json StaticIndex Cursors List

/-- `values[pointer] = value`. -/
def keepValue (values : List (Text × Json)) (e : Text × Json) : List (Text × Json) :=
  insertField e.1 e.2 values

variable (item : PageItem)

/-- The value of an item, when it is short. -/
def itemValues : List (Text × Json) :=
  match item.pointer, item.value with
  | some pointer, some v =>
    if isPrimitive v ∧ utf8Length v.dump ≤ 256 then [(pointer, v)] else []
  | _, _ => []

/-- The fields of an item that is shown as its scalars. -/
def itemFields : List (Text × Json) :=
  match item.pointer, item.value with
  | some pointer, some (.obj fields) =>
    if item.projected then
      (fields.map (fun f => (pointer ++ '/' :: JsonPointers.escapeToken f.1, f.2))).filter
        (fun e => decide (utf8Length e.1 ≤ 1024) && isPrimitive e.2)
    else []
  | _, _ => []

variable (page : EvidencePage)

/-- The text of a page, or the value of one that is shown as a whole. -/
def wholeValues : List (Text × Json) :=
  match page.text with
  | some t => [(page.pointer, .str t)]
  | none =>
    match page.value with
    | some v =>
      if page.isPartial = some false ∧ isPrimitive v ∧ utf8Length v.dump ≤ 256 then
        [(page.pointer, v)]
      else []
    | none => []

/-- The values that are kept of a page of evidence. -/
def pageValues : List (Text × Json) :=
  ((page.items.getD []).flatMap itemValues ++ (page.items.getD []).flatMap itemFields ++
    wholeValues page).foldl keepValue []

def valuesRecord : Json :=
  object [("evidence_id", .str page.id), ("raw_sha256", .str page.rawSha256),
    ("revision", page.revision), ("pointer", .str page.pointer),
    ("offset", .int page.offset), ("partial", .bool (page.isPartial.getD true)),
    ("values", .obj (pageValues page))]

/-- The values of a verified page are saved. -/
def saveValues (s : InvestigationState) (page : EvidencePage) : Access InvestigationState :=
  if !page.sourceVerified || (pageValues page).isEmpty then .ok s
  else
    let observed := s.values ++ [valuesRecord page]
    if 1024 < observed.length ∨ 1048576 < utf8Length (Json.arr observed).dump then
      .error "Native value storage budget exhausted; summarize and finish"
    else .ok { s with values := observed }

section Turns

variable (sha256 : Text → Text) (generation : Int)

def turnJson (decision feedback : Json) : Json :=
  object [("generation", .int generation), ("decision", decision), ("feedback", feedback)]

/-- The record of a turn.  A long one refers to its feedback, and then to its decision. -/
def turnRecord (d : InvestigationDecision) (f : InvestigationFeedback) : Json :=
  let turn := turnJson generation d.toJson f.json
  if utf8Length turn.dump ≤ 10000 then turn
  else
    let feedback := object [("omitted", .bool true),
      ("sha256", .str (sha256 f.json.dump)),
      ("evidence_ids", (f.json.get? "evidence_ids").getD (.arr [])),
      ("instruction", .str ("Read the stored native evidence; the complete " ++
        "input/decision transcript is in model.generation events").toList)]
    let turn := turnJson generation d.toJson feedback
    if utf8Length turn.dump ≤ 10000 then turn
    else turnJson generation (object [("kind", .str d.kind),
      ("sha256", .str (sha256 d.toJson.dump)), ("omitted", .bool true)]) feedback

/-- The generation of the last turn. -/
def lastTurn (s : InvestigationState) : Option Int :=
  match s.turns.getLast?.bind (fun turn => turn.get? "generation") with
  | some (.int n) => some n
  | _ => none

/-- The turn of a generation is saved once. -/
def saveTurn (s : InvestigationState) (generation : Int) (d : InvestigationDecision)
    (f : InvestigationFeedback) : Access InvestigationState :=
  let turn := turnRecord sha256 generation d f
  if stateBytes < s.size + utf8Length turn.dump then
    .error ("Investigation transcript storage budget exhausted; " ++
      "finish or create a follow-up investigation")
  else if lastTurn s = some generation then .ok s
  else .ok { s with turns := s.turns ++ [turn] }

/-- The states that the writers of an investigation reach. -/
inductive Reached (numbers : NumberContext) : InvestigationState → Prop
  | start : Reached numbers investigationState
  | plan {s s' : InvestigationState} {r : Json} (h : Reached numbers s)
      (hplan : investigationPlan numbers s r = .ok s') : Reached numbers s'
  | observe {s : InvestigationState} (h : Reached numbers s) (d : InvestigationDecision)
      (f : InvestigationFeedback) (generation : Int) (nativeFingerprint : Text) :
      Reached numbers (investigationObserve sha256 s d f generation nativeFingerprint).1
  | values {s s' : InvestigationState} {page : EvidencePage} (h : Reached numbers s)
      (hsave : saveValues s page = .ok s') : Reached numbers s'
  | turn {s s' : InvestigationState} {generation : Int} {d : InvestigationDecision}
      {f : InvestigationFeedback} (h : Reached numbers s)
      (hsave : saveTurn sha256 s generation d f = .ok s') : Reached numbers s'

end Turns

/-- The collections that a page may show. -/
def pagedCollections : List Text :=
  ["goals", "tasks", "summaries", "hypotheses", "observations", "facts", "values", "turns"]

/-- The records of a collection from an offset on. -/
def recordsFrom (all : Json) (offset : Nat) : Access (List Json) :=
  match all with
  | .arr records => .ok (records.drop offset)
  | all => if offset < all.size then .error "type_error.305" else .ok []

/-- Whether records are no more than a page may show. -/
def hasRoom (limit : Nat) (records : List Json) : Bool :=
  decide (records.length ≤ limit) && decide (utf8Length (Json.arr records).dump ≤ 12000)

/-- `investigation_page`. -/
def investigationPage (state r : Json) : Access Json := do
  checkKeys ["collection", "offset", "limit"] r
  let name ← (← r.at? "collection").asText
  if !pagedCollections.contains name then .error "unknown investigation collection"
  else do
    let offset ← boundOf r "offset" 0 4096
    let limit ← boundOf r "limit" 8 32
    let all ← state.at? name
    if all.size < offset ∨ limit = 0 then .error "invalid state page"
    else do
      let rest ← recordsFrom all offset
      let records := pack (hasRoom limit) [] rest
      let cursor := offset + records.length
      let revision ← state.at? "revision"
      pure (object [("collection", .str name), ("revision", revision),
        ("records", .arr records), ("total", .int all.size),
        ("offset", .int offset),
        ("next_offset", if cursor < all.size then .int cursor else .null),
        ("trust", .str ("Model assessments and historical observations; " ++
          "re-read native evidence before proof publication").toList)])

/-- A request for a page, where the limit may be left out. -/
def pageRequest (name : Text) (limit : Option Nat) (offset : Nat) : Json :=
  object ([("collection".toList, .str name), ("offset".toList, .int offset)] ++
    optionalField "limit" (limit.map (fun n => .int n)))

/-- What a reader takes from a page: its records, and where the next one begins. -/
def shownPage (page : Json) : Access (List Json × Option Nat) := do
  match ← page.at? "records", ← page.at? "next_offset" with
  | .arr records, .int next => pure (records, some next.toNat)
  | .arr records, .null => pure (records, none)
  | _, _ => .error "type_error.302"

/-- The page that is shown for an offset. -/
def pageAt (state : Json) (name : Text) (limit : Option Nat) (offset : Nat) :
    Access (List Json × Option Nat) := do
  let page ← investigationPage state (pageRequest name limit offset)
  shownPage page

section Following

variable {state : Json} {name : Text} {limit : Option Nat} {rows : List Json} {revision : Json}

/-- What the limit of a request may be. -/
def validLimit (limit : Option Nat) : Prop := 1 ≤ limit.getD 8 ∧ limit.getD 8 ≤ 32

theorem hasRoom_nil (limit : Nat) : hasRoom limit [] = true := by
  unfold hasRoom
  rw [length_nil, decide_eq_true (Nat.zero_le _)]
  rfl

theorem request_keys (name : Text) (limit : Option Nat) (offset : Nat) :
    checkKeys ["collection".toList, "offset".toList, "limit".toList]
      (pageRequest name limit offset) = .ok () := by
  cases limit with
  | none => rfl
  | some n => rfl

theorem request_field (name : Text) (limit : Option Nat) (offset : Nat) :
    (pageRequest name limit offset).at? "collection" = .ok (.str name) ∧
      (pageRequest name limit offset).get? "offset" = some (.int offset) ∧
      (pageRequest name limit offset).get? "limit" = limit.map (fun n => .int n) := by
  unfold pageRequest
  refine ⟨at?_ok.mpr ?_, ?_, ?_⟩
  all_goals
    rw [get?_object]
    cases limit with
    | none => rfl
    | some n => rfl

theorem request_limit (hlimit : validLimit limit) (offset : Nat) :
    boundOf (pageRequest name limit offset) "limit" 8 32 = .ok (limit.getD 8) := by
  unfold boundOf
  rw [(request_field name limit offset).2.2]
  cases limit with
  | none => rfl
  | some n =>
    have hn : (0 : Int) ≤ (n : Int) ∧ (n : Int) ≤ (32 : Nat) :=
      ⟨Int.natCast_nonneg n, Int.ofNat_le.mpr hlimit.2⟩
    exact if_pos hn

theorem request_offset (name : Text) (limit : Option Nat) (offset : Nat) :
    (offset ≤ 4096 → boundOf (pageRequest name limit offset) "offset" 0 4096 = .ok offset) ∧
    (4096 < offset → ∃ e, boundOf (pageRequest name limit offset) "offset" 0 4096 = .error e) := by
  unfold boundOf
  rw [(request_field name limit offset).2.1]
  constructor
  · intro hle
    exact if_pos ⟨Int.natCast_nonneg offset, Int.ofNat_le.mpr hle⟩
  · intro hless
    refine ⟨_, if_neg ?_⟩
    rintro ⟨_, hle⟩
    exact absurd (Int.ofNat_le.mp hle) (by omega)

variable (records : List Json)

theorem shownPage_object (name : Text) (revision : Json)
    (total offset : Nat) (next : Option Nat) (trust : Text) :
    shownPage (object [("collection", .str name), ("revision", revision),
        ("records", .arr records), ("total", .int total), ("offset", .int offset),
        ("next_offset", (next.map (fun n => Json.int n)).getD .null),
        ("trust", .str trust)]) = .ok (records, next) := by
  unfold shownPage
  rw [at?_ok.mpr (show _ = some (Json.arr records) by rw [get?_object]; rfl),
    at?_ok.mpr (show _ = some ((next.map (fun n => Json.int n)).getD .null) by
      rw [get?_object]; rfl)]
  cases next with
  | none => rfl
  | some n => rfl

/-- The pages of a collection pack its records one after the other. -/
theorem pageAt_packs (hname : name ∈ pagedCollections) (hlimit : validLimit limit)
    (hrows : state.at? name = .ok (.arr rows)) (hrevision : state.at? "revision" = .ok revision) :
    Packs (hasRoom (limit.getD 8)) 4096 rows (pageAt state name limit) := by
  intro offset hle
  have hknown : ¬ (!pagedCollections.contains name) = true := by
    rw [contains_iff_mem.mpr hname]
    exact Bool.false_ne_true
  have hinside : ¬ ((Json.arr rows).size < offset ∨ limit.getD 8 = 0) := by
    have hpos := hlimit.1
    show ¬ (rows.length < offset ∨ limit.getD 8 = 0)
    omega
  unfold pageAt investigationPage
  rw [request_keys, (request_field name limit offset).1]
  simp only [bind, Except.bind, asText, if_neg hknown, request_limit hlimit, hrows, hrevision]
  constructor
  · intro hmost
    rw [(request_offset name limit offset).1 hmost]
    simp only [recordsFrom, if_neg hinside, pure, Except.pure]
    have hshown := shownPage_object (pack (hasRoom (limit.getD 8)) [] (rows.drop offset)) name
      revision rows.length offset
      (if offset + (pack (hasRoom (limit.getD 8)) [] (rows.drop offset)).length < rows.length then
        some (offset + (pack (hasRoom (limit.getD 8)) [] (rows.drop offset)).length) else none)
      ("Model assessments and historical observations; " ++
        "re-read native evidence before proof publication").toList
    rw [← hshown]
    congr 2
    split <;> split <;> first | rfl | contradiction
  · intro hbeyond
    obtain ⟨e, he⟩ := (request_offset name limit offset).2 hbeyond
    rw [he]
    exact ⟨e, rfl⟩

theorem dumpItems_append (a b : List Json) :
    utf8Length (dumpItems a) ≤ utf8Length (dumpItems (a ++ b)) := by
  induction a with
  | nil => exact Nat.zero_le _
  | cons v a ih =>
    cases a with
    | nil =>
      cases b with
      | nil => exact Nat.le_refl _
      | cons w b =>
        show utf8Length v.dump ≤ utf8Length (v.dump ++ ',' :: dumpItems (w :: b))
        rw [utf8Length_append]
        omega
    | cons w a =>
      show utf8Length (v.dump ++ ',' :: dumpItems (w :: a)) ≤
        utf8Length (v.dump ++ ',' :: dumpItems (w :: (a ++ b)))
      rw [utf8Length_append, utf8Length_append, utf8Length_cons, utf8Length_cons]
      have hrest : utf8Length (dumpItems (w :: a)) ≤ utf8Length (dumpItems (w :: (a ++ b))) := ih
      omega

variable {records : List Json} {record : Json}

theorem dumpItems_member (h : record ∈ records) :
    utf8Length record.dump ≤ utf8Length (dumpItems records) := by
  induction records with
  | nil => cases h
  | cons v records ih =>
    cases records with
    | nil =>
      rw [mem_singleton.mp h]
      exact Nat.le_refl _
    | cons w records =>
      show utf8Length record.dump ≤ utf8Length (v.dump ++ ',' :: dumpItems (w :: records))
      rw [utf8Length_append, utf8Length_cons]
      rcases mem_cons.mp h with rfl | hrest
      · omega
      · have hle := ih hrest
        omega

theorem dump_arr : utf8Length (Json.arr records).dump = utf8Length (dumpItems records) + 2 := by
  show utf8Length ('[' :: dumpItems records ++ [']']) = _
  rw [utf8Length_append, utf8Length_cons]
  show 1 + utf8Length (dumpItems records) + 1 = _
  omega

theorem dumpItems_single (record : Json) : dumpItems [record] = record.dump := rfl

variable {limit : Nat}

theorem hasRoom_iff : hasRoom limit records = true ↔
    records.length ≤ limit ∧ utf8Length (dumpItems records) ≤ 11998 := by
  unfold hasRoom
  rw [Bool.and_eq_true, decide_eq_true_iff, decide_eq_true_iff, dump_arr]
  omega

theorem hasRoom_append {a b : List Json} (h : hasRoom limit (a ++ b) = true) :
    hasRoom limit a = true := by
  rw [hasRoom_iff] at h ⊢
  rw [length_append] at h
  exact ⟨by omega, Nat.le_trans (dumpItems_append a b) h.2⟩

/-- A record on a page of its own. -/
def fitsAlone (record : Json) : Prop := utf8Length (Json.arr [record]).dump ≤ 12000

/-- A record has room on an empty page when it fits alone. -/
theorem hasRoom_single (hlimit : 1 ≤ limit) : hasRoom limit [record] = true ↔ fitsAlone record := by
  unfold hasRoom fitsAlone
  rw [Bool.and_eq_true, decide_eq_true_iff, decide_eq_true_iff]
  exact ⟨fun h => h.2, fun h => ⟨hlimit, h⟩⟩

theorem hasRoom_member (h : hasRoom limit records = true) (hmem : record ∈ records) :
    hasRoom limit [record] = true := by
  rw [hasRoom_iff] at h ⊢
  have hpos := length_pos_of_mem hmem
  exact ⟨Nat.le_trans hpos h.1, Nat.le_trans (dumpItems_member hmem) h.2⟩

end Following

/-- A collection that a page may show. -/
inductive PagedCollection where
  | planned (c : PlanCollection)
  | observations
  | facts
  | values
  | turns

def PagedCollection.text : PagedCollection → Text
  | .planned c => c.text
  | .observations => "observations"
  | .facts => "facts"
  | .values => "values"
  | .turns => "turns"

/-- The records of a collection, where the facts come from the ledger. -/
def recordsOf (s : InvestigationState) (facts : List Json) : PagedCollection → List Json
  | .planned c => (s.rows c).map PlanRecord.toJson
  | .observations => s.observations
  | .facts => facts
  | .values => s.values
  | .turns => s.turns

/-- The state that pages are taken from: `paged["facts"] = ledger`. -/
def pagedState (s : InvestigationState) (facts : List Json) : Json :=
  object (s.fields ++ [("facts".toList, .arr facts)])

theorem pagedState_at (s : InvestigationState) (facts : List Json) (c : PagedCollection) :
    (pagedState s facts).at? c.text = .ok (.arr (recordsOf s facts c)) := by
  refine at?_ok.mpr ?_
  unfold pagedState
  rw [get?_object]
  cases c with
  | planned c =>
    cases c with
    | goals | tasks | summaries | hypotheses => rfl
  | observations | facts | values | turns => rfl

theorem pagedState_revision (s : InvestigationState) (facts : List Json) :
    (pagedState s facts).at? "revision" = .ok (.int s.revision) := by
  refine at?_ok.mpr ?_
  unfold pagedState
  rw [get?_object]
  rfl

theorem text_mem (c : PagedCollection) : c.text ∈ pagedCollections := by
  cases c with
  | planned c =>
    cases c with
    | goals | tasks | summaries | hypotheses => decide
  | observations | facts | values | turns => decide

/-- The pages of a collection, from its first record on, show every record once and in
order exactly when each record fits on a page of its own and no page has to begin beyond
record 4096. -/
theorem pages_cover_iff (s : InvestigationState) (facts : List Json) (c : PagedCollection)
    {limit : Option Nat} (hlimit : validLimit limit) :
    Visit (pageAt (pagedState s facts) c.text limit) 0 (recordsOf s facts c) ↔
      (∀ record ∈ recordsOf s facts c, fitsAlone record) ∧
        ∀ offset, Begins (hasRoom (limit.getD 8)) (recordsOf s facts c) offset → offset ≤ 4096 := by
  rw [visit_packed_iff (hasRoom_nil _) hasRoom_append hasRoom_member
    (pageAt_packs (text_mem c) hlimit (pagedState_at s facts c) (pagedState_revision s facts))]
  simp only [hasRoom_single hlimit.1]

/-- The goals of a new investigation, two on a page. -/
theorem pages_cover_start :
    Visit (pageAt (pagedState investigationState []) (PagedCollection.planned .goals).text (some 2))
      0 (recordsOf investigationState [] (.planned .goals)) := by
  refine (pages_cover_iff investigationState [] (.planned .goals) ⟨by decide, by decide⟩).mpr ⟨?_, ?_⟩
  · unfold fitsAlone
    decide +kernel
  · intro offset hbegins
    have hfew : (recordsOf investigationState [] (.planned .goals)).length ≤ 4096 := by decide
    exact Nat.le_trans hbegins.le_length hfew

theorem keepValue_perm {entries values : List (Text × Json)}
    (h : ((values ++ entries).map Prod.fst).Nodup) :
    (entries.foldl keepValue values).Perm (values ++ entries) := by
  have hinsert : ∀ (fields : List (Text × Json)) (key : Text) (v : Json),
      key ∉ fields.map Prod.fst → (insertField key v fields).Perm ((key, v) :: fields) := by
    intro fields key v hnew
    induction fields with
    | nil => exact List.Perm.refl _
    | cons f rest ih =>
      obtain ⟨k, w⟩ := f
      rw [map_cons, mem_cons, not_or] at hnew
      unfold insertField
      rw [if_neg (Ne.symm hnew.1)]
      split
      · exact List.Perm.refl _
      · exact ((ih hnew.2).cons _).trans (List.Perm.swap _ _ _)
  induction entries generalizing values with
  | nil => rw [append_nil]; exact List.Perm.refl _
  | cons e entries ih =>
    obtain ⟨k, v⟩ := e
    have hmiddle : (values ++ (k, v) :: entries).Perm ((k, v) :: values ++ entries) :=
      perm_middle
    have hnodup : (((k, v) :: values ++ entries).map Prod.fst).Nodup :=
      (hmiddle.map Prod.fst).nodup_iff.mp h
    have hnew : k ∉ values.map Prod.fst := by
      intro hmem
      rw [cons_append, map_cons, nodup_cons, map_append,
        mem_append] at hnodup
      exact hnodup.1 (Or.inl hmem)
    have hkept := hinsert values k v hnew
    rw [foldl_cons]
    refine (ih (((hkept.append_right entries).map Prod.fst).nodup_iff.mpr hnodup)).trans ?_
    exact (hkept.append_right entries).trans hmiddle.symm

def deepPointer : Text := '/' :: List.replicate 900 'a'

def deepFields : List (Text × Json) := "abcdefghijklmn".toList.map (fun c => ([c], .int 1))

/-- Fourteen numbers in an object below a long pointer. -/
def deepPage : EvidencePage where
  id := "e"
  artifact := .str "f"
  rawSha256 := "0"
  revision := .int 1
  producer := .str "g"
  nativeStatus := .str "complete"
  pointer := deepPointer
  offset := 0
  sourceVerified := true
  type := some "array"
  diagnostic := none
  text := none
  items := some [{
    index := 0
    type := "object"
    pointer := some (deepPointer ++ "/0")
    key := none
    keySha256 := none
    totalBytes := none
    totalItems := some 14
    value := some (.obj deepFields)
    projected := true
    valueOmitted := some false }]
  value := none
  total := some 1
  nextOffset := some none
  isPartial := some false

def deepEntries : List (Text × Json) :=
  deepFields.map (fun f => (deepPointer ++ "/0" ++ '/' :: f.1, f.2))

theorem deepFields_spec : ∀ f ∈ deepFields, JsonPointers.escapeToken f.1 = f.1 ∧
    f.1.length = 1 ∧ utf8Length f.1 = 1 ∧ isPrimitive f.2 = true ∧ utf8Length f.2.dump = 1 := by
  intro f hf
  obtain ⟨c, hc, rfl⟩ := mem_map.mp hf
  have hall : ∀ c ∈ "abcdefghijklmn".toList, JsonPointers.escapeToken [c] = [c] ∧
      [c].length = 1 ∧ utf8Length [c] = 1 := by decide
  obtain ⟨hescape, hlength, hsize⟩ := hall c hc
  have hdump : utf8Length (Json.int 1).dump = 1 := by decide
  exact ⟨hescape, hlength, hsize, rfl, hdump⟩

theorem deepPointer_length : (deepPointer ++ "/0").length = 903 ∧
    utf8Length (deepPointer ++ "/0") = 903 := by
  have hchar : ('a').utf8Size = 1 := rfl
  have hslash : ('/').utf8Size = 1 := rfl
  have htail : utf8Length "/0" = 2 := by decide
  have htail' : "/0".toList.length = 2 := by decide
  unfold deepPointer
  rw [length_append, length_cons, length_replicate, utf8Length_append,
    utf8Length_cons, utf8Length_replicate, hchar, hslash, htail, htail']
  exact ⟨rfl, rfl⟩

theorem deepPage_values : pageValues deepPage = deepEntries.foldl keepValue [] := by
  have hmap : deepFields.map (fun f : Text × Json =>
      (deepPointer ++ "/0" ++ '/' :: JsonPointers.escapeToken f.1, f.2)) =
        deepEntries := by
    refine map_congr_left (fun f hf => ?_)
    rw [(deepFields_spec f hf).1]
  have hfields : deepEntries.filter
      (fun e : Text × Json => decide (utf8Length e.1 ≤ 1024) && isPrimitive e.2) =
        deepEntries := by
    refine filter_eq_self.mpr (fun e he => ?_)
    obtain ⟨f, hf, rfl⟩ := mem_map.mp he
    obtain ⟨_, _, hsize, hprimitive, _⟩ := deepFields_spec f hf
    have hslash : ('/').utf8Size = 1 := rfl
    rw [Bool.and_eq_true, decide_eq_true_iff]
    refine ⟨?_, hprimitive⟩
    show utf8Length (deepPointer ++ "/0" ++ '/' :: f.1) ≤ 1024
    rw [utf8Length_append, deepPointer_length.2, utf8Length_cons, hslash, hsize]
    omega
  have hitems : pageValues deepPage = (([] ++ ((deepFields.map (fun f : Text × Json =>
      (deepPointer ++ "/0" ++ '/' :: JsonPointers.escapeToken f.1, f.2))).filter
        (fun e : Text × Json => decide (utf8Length e.1 ≤ 1024) && isPrimitive e.2) ++ [])) ++
          []).foldl keepValue [] := rfl
  rw [hitems, hmap, hfields, nil_append, append_nil, append_nil]

/-- The values of the page take more than 12000 bytes, and less than the storage for them. -/
theorem deepPage_size : 12000 < utf8Length (Json.obj (pageValues deepPage)).dump ∧
    utf8Length (Json.obj (pageValues deepPage)).dump ≤ 80000 := by
  have hnodup : (([] ++ deepEntries).map Prod.fst).Nodup := by
    have hkeys : (([] ++ deepEntries).map Prod.fst) = deepFields.map
        (fun f => deepPointer ++ "/0" ++ '/' :: f.1) := by
      rw [nil_append]
      exact map_map
    rw [hkeys]
    have hletters : deepFields.Nodup :=
      List.Nodup.map (fun c c' h => (List.cons.inj (Prod.mk.inj h).1).1) (by decide)
    refine List.Nodup.map_on ?_ hletters
    intro f hf g hg heq
    have hkey := List.cons.inj (append_cancel_left heq)
    have hvalue : ∀ f ∈ deepFields, ∀ g ∈ deepFields, f.1 = g.1 → f = g := by
      intro f hf g hg h
      obtain ⟨c, _, rfl⟩ := mem_map.mp hf
      obtain ⟨c', _, rfl⟩ := mem_map.mp hg
      cases h
      rfl
    exact hvalue f hf g hg hkey.2
  have hperm := keepValue_perm hnodup
  rw [nil_append] at hperm
  have hsize := dumpFields_size (deepEntries.foldl keepValue [])
  have hconst : ∀ e ∈ deepEntries, e.1.length = 905 ∧ utf8Length e.2.dump = 1 := by
    intro e he
    obtain ⟨f, hf, rfl⟩ := mem_map.mp he
    obtain ⟨_, hlength, _, _, hdump⟩ := deepFields_spec f hf
    refine ⟨?_, hdump⟩
    show (deepPointer ++ "/0" ++ '/' :: f.1).length = 905
    rw [length_append, deepPointer_length.1, length_cons, hlength]
  have hcount : deepEntries.length = 14 := by
    unfold deepEntries deepFields
    rw [length_map, length_map]
    decide
  rw [deepPage_values, dump_obj]
  rw [(hperm.map _).sum_eq, (hperm.map _).sum_eq,
    map_congr_left (g := fun _ => 906) (fun e he => by
      rw [(hconst e he).1, (hconst e he).2]),
    map_congr_left (f := fun f : Text × Json => 6 * f.1.length + utf8Length f.2.dump + 4)
      (g := fun _ => 5435) (fun e he => by rw [(hconst e he).1, (hconst e he).2]),
    map_const', map_const', sum_replicate_nat, sum_replicate_nat, hcount] at hsize
  omega

/-- The state in which the values of the page are saved. -/
def deepState : InvestigationState :=
  { investigationState with values := [valuesRecord deepPage] }

/-- The record of a page in the order of its keys. -/
def valuesFields : List (Text × Json) :=
  [("evidence_id", .str page.id), ("offset", .int page.offset),
    ("partial", .bool (page.isPartial.getD true)),
    ("pointer", .str page.pointer), ("raw_sha256", .str page.rawSha256),
    ("revision", page.revision), ("values", .obj (pageValues page))]

theorem valuesRecord_eq : valuesRecord page = .obj (valuesFields page) := rfl

theorem saveValues_first {s : InvestigationState} {page : EvidencePage} (hs : s.values = [])
    (hverified : page.sourceVerified = true) (hvalues : pageValues page ≠ [])
    (hsize : utf8Length (valuesRecord page).dump ≤ 100000) :
    saveValues s page = .ok { s with values := [valuesRecord page] } := by
  have hsaved : ¬ (!page.sourceVerified || (pageValues page).isEmpty) = true := by
    rw [hverified, Bool.not_true, Bool.false_or, List.isEmpty_iff]
    exact hvalues
  have hstored : ¬ (1024 < [valuesRecord page].length ∨
      1048576 < utf8Length (Json.arr [valuesRecord page]).dump) := by
    rw [dump_arr, dumpItems_single, length_singleton]
    omega
  unfold saveValues
  rw [hs, nil_append, if_neg hsaved, if_neg hstored]

/-- A record is as long as its values at least, and not much longer than they are with the
pointer of the page. -/
theorem valuesRecord_size :
    utf8Length (Json.obj (pageValues page)).dump ≤ utf8Length (valuesRecord page).dump ∧
      utf8Length (valuesRecord page).dump ≤ utf8Length (Json.obj (pageValues page)).dump +
        6 * (page.id.length + page.pointer.length + page.rawSha256.length) +
        utf8Length page.revision.dump + utf8Length (Json.int page.offset).dump + 400 := by
  have hid := (quoted_size page.id).2
  have hpointer := (quoted_size page.pointer).2
  have hraw := (quoted_size page.rawSha256).2
  have hpartial : ∀ b, utf8Length (Json.bool b).dump ≤ 5 := by decide
  have hpartial := hpartial (page.isPartial.getD true)
  have hsize := dumpFields_size (valuesFields page)
  have hkeys : "evidence_id".toList.length = 11 ∧ "offset".toList.length = 6 ∧
      "partial".toList.length = 7 ∧ "pointer".toList.length = 7 ∧
      "raw_sha256".toList.length = 10 ∧ "revision".toList.length = 8 ∧
      "values".toList.length = 6 := by decide
  rw [valuesRecord_eq, dump_obj (valuesFields page)]
  unfold valuesFields at hsize ⊢
  simp only [map_cons, map_nil, sum_cons, sum_nil, dump_str] at hsize
  exact ⟨by omega, by omega⟩

theorem deepRecord_size : 12000 < utf8Length (valuesRecord deepPage).dump ∧
    utf8Length (valuesRecord deepPage).dump ≤ 100000 := by
  have hlength : deepPage.pointer.length = 901 := by
    show ('/' :: List.replicate 900 'a').length = 901
    rw [length_cons, length_replicate]
  have hrest : deepPage.id.length = 1 ∧ deepPage.rawSha256.length = 1 ∧
      utf8Length deepPage.revision.dump = 1 ∧ utf8Length (Json.int deepPage.offset).dump = 1 := by
    decide
  have hpage := deepPage_size
  have hsize := valuesRecord_size deepPage
  exact ⟨by omega, by omega⟩

/-- Saving a deep page is a call that reaches a state with its record. -/
theorem deepState_reached (sha256 : Text → Text) (numbers : NumberContext) :
    Reached sha256 numbers deepState := by
  have hvalues : pageValues deepPage ≠ [] := by
    intro hnil
    have hsize := deepPage_size.1
    have hempty : utf8Length (Json.obj []).dump = 2 := by decide
    rw [hnil, hempty] at hsize
    omega
  exact Reached.values Reached.start
    (saveValues_first rfl rfl hvalues deepRecord_size.2)

/-- The pages of the values never come to an end in this state. -/
theorem values_never_paged : ¬ ∀ (s : InvestigationState),
    Reached (fun t => t) ⟨fun _ => 0, fun _ _ => false⟩ s →
      ∀ (facts : List Json) (c : PagedCollection) (limit : Option Nat), validLimit limit →
        Visit (pageAt (pagedState s facts) c.text limit) 0 (recordsOf s facts c) := by
  intro h
  have hvisit := h deepState (deepState_reached _ _) [] .values none ⟨by decide, by decide⟩
  have hroom := ((visit_packed_iff (hasRoom_nil _) hasRoom_append hasRoom_member
    (pageAt_packs (text_mem .values) ⟨by decide, by decide⟩
      (pagedState_at deepState [] .values) (pagedState_revision deepState []))).mp hvisit).1
    (valuesRecord deepPage) mem_cons_self
  have hfits : fitsAlone (valuesRecord deepPage) := (hasRoom_single (by decide)).mp hroom
  have hsize := deepRecord_size
  unfold fitsAlone at hfits
  rw [dump_arr, dumpItems_single] at hfits
  omega

end Indago.Investigation
