import IndagoRev.Agent.QuestionInvariant

/-!
# Runs of a queue

Whatever calls are made on a queue, whatever becomes of the cited files and whenever
the file cannot be written, the questions keep their order, their dependencies lead
back, one of them is active at most, and what was decided stays decided.

`exec_end` says how a call ends. It refuses and leaves the file, or stores what
followed step by step; only `next` saves twice and may stop in between (`CallEnd`).
`queue_keeps_invariants` has what follows from this for any sequence of calls.
-/

namespace Agent

open StdText Transactions List

variable {lower sha256 : JsText → JsText} {checkpointWarnings : JsText → List String}
variable {disk : Disk} {d d' : QueueData} {q q' : Question} {file file' : Option QueueData}

theorem queue_bind {α β : Type} {x : QueueM α} {f : α → QueueM β} :
    (x >>= f) file = match x file with
      | (.ok a, file') => f a file'
      | (.error e, file') => (.error e, file') := by
  change (match x file with
    | (r, s) => (ExceptT.bindCont f r : StateM (Option QueueData) (Except String β)) s) = _
  cases x file with
  | mk r s => cases r <;> rfl

theorem queue_read_some {α : Type} {f : QueueData → QueueM α} :
    (readQueue >>= f) (some d) = f d (some d) := rfl

theorem queue_get {α : Type} {f : Option QueueData → QueueM α} :
    (get >>= f : QueueM α) file = f file file := rfl

theorem queue_check_ok {α β : Type} {a : α} {f : α → QueueM β} :
    (check (.ok a) >>= f) file = f a file := rfl

/-- How many questions a call activated. -/
def answerCount (answer : Option Question) : Nat := if answer.isSome then 1 else 0

/-- How a call on the file ends, where `count` tells what it activated. -/
inductive CallEnd {α : Type} (disk : Disk) (call : QueueCall) (count : α → Nat)
    (file : Option QueueData) : Except String α × Option QueueData → Prop where
  | refused (e : String) : CallEnd disk call count file (.error e, file)
  /-- The first of two saves is all that was done. -/
  | halfway (e : String) (d d' : QueueData) (hfile : file = some d)
      (hcall : ∃ maxAttempts, call = .next maxAttempts)
      (hvalid : (validateEvidence disk file).2 = some d')
      (hstep : QuestionsStep disk call d.questions 0 d'.questions) :
      CallEnd disk call count file (.error e, some d')
  | created (a : α) (d : QueueData) (brief : JsText) (hfile : file = none) (hcount : count a = 0)
      (hquestions : d.questions = [firstQuestion brief]) :
      CallEnd disk call count file (.ok a, some d)
  | stored (a : α) (d d' : QueueData) (hfile : file = some d)
      (hstep : QuestionsStep disk call d.questions (count a) d'.questions) :
      CallEnd disk call count file (.ok a, some d')

variable {call : QueueCall} {limit : AttemptLimit}

/-- A call that answers nothing ends as what it does. -/
theorem CallEnd.silent {x : QueueM QueueData} (h : CallEnd disk call (fun _ => 0) file (x file)) :
    CallEnd disk call answerCount file ((do
        let _ ← x
        return none : QueueM (Option Question)) file) := by
  rw [queue_bind]
  cases hx : x file with
  | mk result file' =>
    rw [hx] at h
    cases h with
    | refused e => exact .refused e
    | halfway e d d' hfile hcall hvalid hstep => exact .halfway e d d' hfile hcall hvalid hstep
    | created a d brief hfile hcount hquestions => exact .created none d brief hfile rfl hquestions
    | stored a d d' hfile hstep => exact .stored none d d' hfile hstep

variable {questions : List Question}

theorem step_same : QuestionsStep disk call questions 0 questions := by
  have hkept : Evolves disk questions questions :=
    ⟨Nat.le_refl _, fun i q hq => ⟨q, hq, .refl disk q⟩, fun i q hq hle => by
      have hlt := (List.getElem?_eq_some_iff.mp hq).1
      exact absurd hlt (Nat.not_lt.mpr hle)⟩
  exact ⟨hkept, id, rfl, fun _ _ h => h, fun _ h => h⟩

/-- A write leaves the file, or it holds the data. -/
theorem atomic_cases (disk : Disk) (d : QueueData) (file : Option QueueData) :
    (∃ e, atomic disk d file = (.error e, file)) ∨ atomic disk d file = (.ok d, some d) := by
  unfold atomic
  cases disk.refuses d with
  | some e => exact Or.inl ⟨e, rfl⟩
  | none => exact Or.inr rfl

/-- A save that may be refused stores what the step leads to. -/
theorem saveQueue_end (hstep : QuestionsStep disk call d.questions 0 d'.questions) :
    CallEnd disk call (fun _ => 0) (some d) (saveQueue disk d' (some d)) := by
  unfold saveQueue
  rcases atomic_cases disk { d' with revision := d'.revision + 1 } (some d) with ⟨e, he⟩ | hok
  · rw [he]
    exact .refused e
  · rw [hok]
    exact .stored _ d _ rfl hstep

/-- What follows from the evidence is stored, or nothing is. -/
theorem validateEvidence_some (disk : Disk) (d : QueueData) :
    (∃ e, validateEvidence disk (some d) = (.error e, some d)) ∨
    ∃ d', validateEvidence disk (some d) = (.ok d', some d') ∧
      d'.questions = d.questions.map (revalidate disk) := by
  unfold validateEvidence
  rw [queue_read_some]
  by_cases hrefuted : d.questions.any (Question.refuted disk) = true
  · rw [if_pos hrefuted]
    rcases atomic_cases disk { d with
      questions := d.questions.map (revalidate disk), revision := d.revision + 1 } (some d) with
      ⟨e, he⟩ | hok
    · exact Or.inl ⟨e, he⟩
    · exact Or.inr ⟨_, hok, rfl⟩
  rw [if_neg hrefuted]
  refine Or.inr ⟨d, rfl, ?_⟩
  conv => lhs; rw [← map_id d.questions]
  apply map_congr_left
  intro q hq
  simp only [any_eq_true, not_exists, not_and] at hrefuted
  simp [revalidate, hrefuted q hq]

/-- The questions as a call of `next` finds them. -/
def found (disk : Disk) (maxAttempts : AttemptLimit) (d : QueueData) : List Question :=
  prepareNext maxAttempts (d.questions.map (revalidate disk))

/-- `next` leaves the file, or what `validateEvidence` stored, or it answers. When it
activates nothing, no question that it found was ready. -/
theorem next_some (disk : Disk) (d : QueueData) (limit : AttemptLimit) :
    CallEnd disk (.next limit) answerCount (some d) (next disk limit (some d)) ∧
      ∀ d', next disk limit (some d) = (.ok none, some d') → d'.questions = found disk limit d ∧
        ∀ q ∈ found disk limit d, q.ready (found disk limit d) = false := by
  unfold next
  rw [queue_bind]
  rcases validateEvidence_some disk d with ⟨e, hvalid⟩ | ⟨mid, hvalid, hmid⟩
  · rw [hvalid]
    exact ⟨.refused e, fun d' h => by cases h⟩
  rw [hvalid]
  dsimp only
  have hfirst : QuestionsStep disk (.next limit) d.questions 0 mid.questions := by
    rw [hmid]
    exact step_validate
  have hhalfway : ∀ e, CallEnd disk (.next limit) answerCount (some d) (.error e, some mid) :=
    fun e => .halfway e d mid rfl ⟨limit, rfl⟩ (by rw [hvalid]) hfirst
  cases hrefuses : (mid.questions.map reopen).findSome? (refusal limit) with
  | some e => exact ⟨hhalfway e, fun d' h => by cases h⟩
  | none =>
    have hprepare : QuestionsStep disk (.next limit) mid.questions 0
        (prepareNext limit mid.questions) := step_prepare
    have hlength : mid.questions.length = d.questions.length ∧
        (prepareNext limit mid.questions).length = mid.questions.length := by
      simp [hmid, prepareNext]
    have hready := hfirst.trans hprepare hlength rfl
    have hfound : prepareNext limit mid.questions = found disk limit d := by
      rw [hmid]
      rfl
    dsimp only
    cases hfind : (prepareNext limit mid.questions).findIdx?
        (Question.ready (prepareNext limit mid.questions)) with
    | none =>
      dsimp only
      rw [queue_bind]
      rcases atomic_cases disk { mid with
        questions := prepareNext limit mid.questions, revision := mid.revision + 1 } (some mid) with
        ⟨e, he⟩ | hok
      · rw [saveQueue, he]
        exact ⟨hhalfway e, fun d' h => by cases h⟩
      rw [saveQueue, hok]
      refine ⟨.stored none d _ rfl hready, fun d' h => ?_⟩
      cases h
      refine ⟨hfound, fun q hq => ?_⟩
      rw [← hfound] at hq ⊢
      exact Bool.eq_false_iff.mpr (by simpa using findIdx?_eq_none_iff.mp hfind q hq)
    | some i =>
      have hactivate : QuestionsStep disk (.next limit) (prepareNext limit mid.questions) 1
          ((prepareNext limit mid.questions).modify i activate) := step_activate hfind
      obtain ⟨hlt, _⟩ := findIdx?_eq_some_iff_findIdx_eq.mp hfind
      have hat : ((prepareNext limit mid.questions).modify i activate)[i]? =
          some (activate (prepareNext limit mid.questions)[i]) := by
        rw [getElem?_modify, getElem?_eq_getElem hlt]
        simp
      dsimp only
      rw [queue_bind]
      rcases atomic_cases disk { mid with
        questions := (prepareNext limit mid.questions).modify i activate
        revision := mid.revision + 1 } (some mid) with ⟨e, he⟩ | hok
      · rw [saveQueue, he]
        exact ⟨hhalfway e, fun d' h => by cases h⟩
      rw [saveQueue, hok]
      dsimp only
      rw [hat]
      exact ⟨.stored (some _) d _ rfl
        (hready.trans hactivate ⟨hlength.2.trans hlength.1, by simp⟩ rfl), fun d' h => by cases h⟩

theorem initializeQueue_end {brief : Argument} {artifact : JsText} :
    CallEnd disk call (fun _ => 0) file (initializeQueue sha256 disk brief artifact file) := by
  unfold initializeQueue
  cases hbrief : bounded "brief" 65536 brief with
  | error e => exact .refused e
  | ok text =>
    rw [queue_check_ok, queue_get]
    cases file with
    | none =>
      dsimp only
      rcases atomic_cases disk ⟨artifact, text, sha256 text, 0, [firstQuestion text]⟩ none with
        ⟨e, he⟩ | hok
      · rw [he]
        exact .refused e
      · rw [hok]
        exact .created _ _ text rfl rfl rfl
    | some d =>
      dsimp only
      by_cases hchanged : d.briefHash ≠ sha256 text ∨ d.artifact ≠ artifact
      · rw [if_pos hchanged]
        exact .refused _
      · rw [if_neg hchanged]
        exact .stored d d d rfl step_same

theorem addQuestions_end {items : ArrayArgument NewQuestion} {parent : JsText} :
    CallEnd disk (.add items parent) (fun _ => 0) file
      (addQuestions lower disk items parent file) := by
  unfold addQuestions
  cases file with
  | none => exact .refused _
  | some d =>
    rw [queue_read_some]
    cases hparent : questionAt d.questions parent with
    | none => exact .refused _
    | some p =>
      dsimp only
      by_cases hclosed : p.status ≠ .active ∧ p.isOpen = false
      · rw [if_pos hclosed]
        exact .refused _
      rw [if_neg hclosed]
      have hopen : p.status = .active ∨ p.isOpen = true := by
        by_cases hactive : p.status = .active
        · exact Or.inl hactive
        right
        cases hisOpen : p.isOpen with
        | true => rfl
        | false => exact absurd ⟨hactive, hisOpen⟩ hclosed
      cases items with
      | absent | other => exact .refused _
      | items items =>
        dsimp only
        by_cases hcapacity : items = [] ∨ 12 < items.length ∨
            128 < d.questions.length + items.length
        · rw [if_pos hcapacity]
          exact .refused _
        rw [if_neg hcapacity]
        cases hadded : items.foldlM (addItem lower parent)
            (d.questions.map (fun q => normalized lower q.question), d.questions) with
        | error e => exact .refused e
        | ok added => exact saveQueue_end (step_add hparent hopen hadded)

theorem checkpointQuestion_end {id : JsText} {c : Checkpoint} : CallEnd disk call (fun _ => 0) file
      (checkpointQuestion checkpointWarnings disk id c file) := by
  unfold checkpointQuestion
  cases file with
  | none => exact .refused _
  | some d =>
    rw [queue_read_some]
    cases hquestion : questionAt d.questions id with
    | none => exact .refused _
    | some q =>
      dsimp only
      by_cases hactive : q.status = .active
      · rw [if_neg (not_not.mpr hactive)]
        cases hchange : checkpointChange checkpointWarnings disk c with
        | error e => exact .refused e
        | ok change => exact saveQueue_end (step_checkpoint hquestion hactive hchange)
      · rw [if_pos hactive]
        exact .refused _

theorem validateEvidence_end :
    CallEnd disk call (fun _ => 0) file (validateEvidence disk file) := by
  cases file with
  | none => exact .refused _
  | some d =>
    rcases validateEvidence_some disk d with ⟨e, hvalid⟩ | ⟨d', hvalid, hquestions⟩
    · exact hvalid ▸ .refused e
    rw [hvalid]
    refine .stored d' d d' rfl ?_
    rw [hquestions]
    exact step_validate

/-- Every call refuses and leaves the file, or stores what followed step by step. -/
theorem exec_end (call : QueueCall) (disk : Disk) (file : Option QueueData) :
    CallEnd disk call answerCount file
      (call.exec lower sha256 checkpointWarnings disk file) := by
  cases call with
  | create brief artifact => exact initializeQueue_end.silent
  | add items parent => exact addQuestions_end.silent
  | checkpoint id c => exact checkpointQuestion_end.silent
  | validateEvidence => exact validateEvidence_end.silent
  | next maxAttempts =>
    cases file with
    | none => exact .refused _
    | some d => exact (next_some disk d maxAttempts).1

/-- How many questions an answer tells of. -/
def resultCount : Except String (Option Question) → Nat
  | .ok answer => answerCount answer
  | .error _ => 0

theorem queueStep_end (lower sha256 : JsText → JsText) (checkpointWarnings : JsText → List String)
    (file : Option QueueData) (call : QueueCall × Disk) :
    ∃ result, CallEnd call.2 call.1 answerCount file
        (result, queueStep lower sha256 checkpointWarnings file call) ∧
      answerCount (activated lower sha256 checkpointWarnings file call) = resultCount result := by
  have hend : CallEnd call.2 call.1 answerCount file
      (call.1.exec lower sha256 checkpointWarnings call.2 file) := exec_end call.1 call.2 file
  refine ⟨(call.1.exec lower sha256 checkpointWarnings call.2 file).1, hend, ?_⟩
  unfold activated
  cases hexec : call.1.exec lower sha256 checkpointWarnings call.2 file with
  | mk result file' => cases result <;> rfl

/-- What the file keeps. -/
def FileSound (file : Option QueueData) : Prop := ∀ d, file = some d → QuestionsSound d.questions

theorem sound_first {brief : JsText} : QuestionsSound [firstQuestion brief] where
  ids := fun i q hq => by
    cases i with
    | zero =>
      cases hq
      rfl
    | succ i => cases hq
  earlier := fun i q hq id hid => by
    cases i with
    | zero =>
      cases hq
      cases hid
    | succ i => cases hq
  single := fun i j q p hq _ hactive _ => by
    cases i with
    | zero =>
      cases hq
      cases hactive
    | succ i => cases hq
  proven := fun q hq hanswered => by
    rw [mem_singleton.mp hq] at hanswered
    cases hanswered

variable {result : Except String (Option Question)}

theorem CallEnd.sound
    (h : CallEnd disk call answerCount file (result, file')) (hsound : FileSound file) :
    FileSound file' := by
  cases h with
  | refused e => exact hsound
  | halfway e d d' hfile hcall hvalid hstep =>
    intro d'' hd
    cases hd
    exact hstep.sound (hsound d hfile)
  | created a d brief hfile hcount hquestions =>
    intro d' hd
    cases hd
    rw [hquestions]
    exact sound_first
  | stored a d d' hfile hstep =>
    intro d'' hd
    cases hd
    exact hstep.sound (hsound d hfile)

theorem run_sound (hsound : FileSound file) (calls : List (QueueCall × Disk)) :
    FileSound (queueRun lower sha256 checkpointWarnings file calls) := by
  induction calls generalizing file with
  | nil => exact hsound
  | cons call rest ih =>
    obtain ⟨result, hend, _⟩ := queueStep_end lower sha256 checkpointWarnings file call
    exact ih (hend.sound hsound)

/-- No question has more attempts. -/
def FileBounded (m : Nat) (file : Option QueueData) : Prop :=
  ∀ d, file = some d → ∀ q ∈ d.questions, q.attempts ≤ m

variable {m : Nat}

theorem CallEnd.bounded
    (h : CallEnd disk call answerCount file (result, file')) (hlimit : ∀ l ∈ call.limit, l.Stops m)
    (hbounded : FileBounded m file) : FileBounded m file' := by
  cases h with
  | refused e => exact hbounded
  | halfway e d d' hfile hcall hvalid hstep =>
    intro d'' hd
    cases hd
    exact hstep.bounded m hlimit (hbounded d hfile)
  | created a d brief hfile hcount hquestions =>
    intro d' hd
    cases hd
    rw [hquestions]
    intro q hq
    rw [mem_singleton.mp hq]
    exact Nat.zero_le m
  | stored a d d' hfile hstep =>
    intro d'' hd
    cases hd
    exact hstep.bounded m hlimit (hbounded d hfile)

/-- The attempts that the file has counted. -/
def fileAttempts (file : Option QueueData) : Nat := (file.map (fun d => attempted d.questions)).getD 0

theorem CallEnd.attempts (h : CallEnd disk call answerCount file (result, file')) :
    fileAttempts file' = fileAttempts file + resultCount result := by
  cases h with
  | refused e => rfl
  | halfway e d d' hfile hcall hvalid hstep =>
    rw [hfile]
    exact hstep.attempted
  | created a d brief hfile hcount hquestions =>
    rw [hfile]
    have hnone : resultCount (.ok a) = 0 := hcount
    rw [hnone]
    simp [fileAttempts, hquestions, attempted, firstQuestion]
  | stored a d d' hfile hstep =>
    rw [hfile]
    exact hstep.attempted

/-- Question `b` is one that question `a` waits for. -/
def DependsOn (questions : List Question) (a b : JsText) : Prop :=
  ∃ q ∈ questions, q.id = a ∧ some b ∈ q.dependencies

theorem QuestionsSound.unique (h : QuestionsSound questions) {i j : Nat}
    (hq : questions[i]? = some q) (hq' : questions[j]? = some q') (hid : q.id = q'.id) : i = j := by
  have hsame := hid
  rw [h.ids i q hq, h.ids j q' hq'] at hsame
  have := questionId_injective hsame
  omega

theorem QuestionsSound.chain (h : QuestionsSound questions)
    {a b : JsText} (hchain : Relation.TransGen (DependsOn questions) a b) :
    ∃ (i j : Nat) (p q : Question), questions[i]? = some q ∧ q.id = a ∧ questions[j]? = some p ∧ p.id = b ∧ j < i := by
  -- one dependency
  have hone : ∀ a b, DependsOn questions a b → ∃ (i j : Nat) (p q : Question),
      questions[i]? = some q ∧ q.id = a ∧ questions[j]? = some p ∧ p.id = b ∧ j < i := by
    rintro a b ⟨q, hq, rfl, hb⟩
    obtain ⟨i, hi⟩ := mem_iff_getElem?.mp hq
    obtain ⟨j, hj, p, hp, hid⟩ := h.earlier i q hi b hb
    exact ⟨i, j, p, q, hi, rfl, hp, hid, hj⟩
  induction hchain with
  | single hab => exact hone a _ hab
  | tail _ hbc ih =>
    obtain ⟨i, j, p, q, hq, hqa, hp, hpb, hlt⟩ := ih
    obtain ⟨i', j', p', q', hq', hqb, hp', hpc, hlt'⟩ := hone _ _ hbc
    have hsame := h.unique hp hq' (hpb.trans hqb.symm)
    exact ⟨i, j', p', q, hq, hqa, hp', hpc, by omega⟩

theorem QuestionsSound.acyclic (h : QuestionsSound questions)
    (a : JsText) : ¬ Relation.TransGen (DependsOn questions) a a := by
  intro hchain
  obtain ⟨i, j, p, q, hq, hqa, hp, hpa, hlt⟩ := h.chain hchain
  have hsame := h.unique hq hp (hqa.trans hpa.symm)
  omega

theorem QuestionsSound.numbered (h : QuestionsSound questions) :
    questions.map Question.id = (List.range' 1 questions.length).map questionId := by
  apply ext_getElem?
  intro i
  rw [getElem?_map, getElem?_map]
  by_cases hlt : i < questions.length
  · rw [getElem?_eq_getElem hlt, getElem?_range' hlt, Option.map_some, Option.map_some,
      h.ids i _ (getElem?_eq_getElem hlt)]
    simp [Nat.add_comm]
  · rw [getElem?_eq_none (Nat.le_of_not_lt hlt), getElem?_eq_none (by simp; omega)]
    rfl

def word (w : String) : JsText := js w.toList

/-- A directory with one receipt, on a disk that is full at the eighth write. -/
def exampleDisk : Disk where
  root := ⟨[], [word "case"]⟩
  realpath := fun _ => some ⟨[], [word "case", word "receipts", word "r1"]⟩
  stat := fun _ => some ⟨true, 10, word "5f"⟩
  digest := fun _ => some (word "5f")
  refuses := fun d => if d.revision = 7 then some "ENOSPC: no space left on device" else none

def exampleItem (question : String) (dependencies : List (Option String)) : Option NewQuestion :=
  some ⟨.text (word question), .items (dependencies.map (Option.map fun id => .text (word id)))⟩

def exampleAnswer (evidence : List (Option Argument)) : Checkpoint :=
  ⟨.answered, .text (word "done"), .items evidence, .items [], .text []⟩

end Agent
