import IndagoRev.Agent.QuestionRuns

/-!
# When a queue stalls

`next` activates a question as soon as all its dependencies are answered. A decomposed
question is never answered: its work went to other questions, and whatever waits for it
keeps waiting when they are done (`next_stalls_after_split`).

Nothing stalls in a run whose additions split no question that another one waits for
(`next_never_stalls`). The invariant is `Unsplit`; `QuestionsSound.waits` follows the
dependencies back to a blocked question.
-/

namespace Agent

open StdText Transactions List

variable {disk : Disk} {q q' : Question} {questions : List Question}

/-- Through a chain of dependencies the question waits for a blocked one. -/
def Waits (questions : List Question) (q : Question) : Prop :=
  ∃ b ∈ questions, b.status = .blocked ∧ Relation.TransGen (DependsOn questions) q.id b.id

variable (lower sha256 : JsText → JsText) (checkpointWarnings : JsText → List String)

variable (file : Option QueueData)

/-- The work of a question is done: it is answered, or the questions that it was
decomposed into are done. -/
inductive Done (questions : List Question) : Question → Prop where
  | answered (q : Question) (h : q.status = .answered) : Done questions q
  | split (q : Question) (h : q.status = .decomposed)
      (hparts : ∀ p ∈ questions, p.parent = some q.id → Done questions p) : Done questions q

/-- If `next` activates no question, all open ones wait for a blocked one. An open question
is ready once the work of what it depends on is done. -/
structure NeverStalls : Prop where
  waits : ∀ disk maxAttempts d, QueueCall.exec lower sha256 checkpointWarnings disk
    (.next maxAttempts) file = (.ok none, some d) →
      ∀ q ∈ d.questions, q.isOpen = true → Waits d.questions q
  ready : ∀ d, file = some d → ∀ q ∈ d.questions, q.isOpen = true →
    (∀ p ∈ d.questions, some p.id ∈ q.dependencies → Done d.questions p) →
      q.ready d.questions = true

/-- Every addition of a run is careful in the file that it is made on. -/
def carefulRun : Option QueueData → List (QueueCall × Disk) → Bool
  | _, [] => true
  | file, call :: rest => file.all (fun d => call.1.careful d.questions) &&
      carefulRun (queueStep lower sha256 checkpointWarnings file call) rest

/-- Ids are unique, so a question is found by its own. -/
theorem QuestionsSound.questionAt (h : QuestionsSound questions) (hq : q ∈ questions) :
    questionAt questions q.id = some q := by
  obtain ⟨i, hi⟩ := mem_iff_getElem?.mp hq
  cases hfind : Agent.questionAt questions q.id with
  | none =>
    have hno := find?_eq_none.mp hfind q hq
    simp at hno
  | some p =>
    obtain ⟨hp, hid⟩ := questionAt_some hfind
    have hsame := h.unique hp hi hid
    rw [hsame, hi] at hp
    exact hp.symm

/-- An open question that is not ready waits for one that is not answered. -/
theorem QuestionsSound.unanswered (h : QuestionsSound questions) (hunsplit : Unsplit questions)
    {i : Nat} (hq : questions[i]? = some q) (hopen : q.isOpen = true)
    (hready : q.ready questions = false) : ∃ j < i, ∃ p, questions[j]? = some p ∧
      some p.id ∈ q.dependencies ∧ p.status ≠ .answered ∧ p.status ≠ .decomposed := by
  unfold Question.ready at hready
  rw [hopen, Bool.true_and, all_eq_false] at hready
  obtain ⟨dep, hdep, hstatus⟩ := hready
  obtain ⟨id, rfl, hlive⟩ := hunsplit q (mem_of_getElem? hq)
    (by rw [Question.unsettled, hopen, Bool.true_or]) dep hdep
  obtain ⟨j, hlt, p, hp, rfl⟩ := h.earlier i q hq id hdep
  have hmem := mem_of_getElem? hp
  refine ⟨j, hlt, p, hp, hdep, fun hanswered => hstatus ?_, hlive p hmem rfl⟩
  rw [Option.bind_some, h.questionAt hmem]
  simp [hanswered]

/-- A question waits for what its dependencies wait for. -/
theorem waits_of_dependency {p : Question} (hq : q ∈ questions)
    (hdep : some p.id ∈ q.dependencies) (hwaits : Waits questions p) : Waits questions q := by
  obtain ⟨b, hb, hblocked, hchain⟩ := hwaits
  exact ⟨b, hb, hblocked, .head ⟨q, hq, rfl, hdep⟩ hchain⟩

/-- When no question is ready and none is active, an open question waits for a blocked
one. -/
theorem QuestionsSound.waits (h : QuestionsSound questions) (hunsplit : Unsplit questions)
    (hready : ∀ q ∈ questions, q.ready questions = false)
    (hactive : ∀ q ∈ questions, q.status ≠ .active) (i : Nat) :
    ∀ q, questions[i]? = some q → q.isOpen = true → Waits questions q := by
  -- dependencies are earlier, so the question they wait for is known first
  induction i using Nat.strongRecOn with
  | ind i ih =>
    intro q hi hopen
    have hq := mem_of_getElem? hi
    obtain ⟨j, hlt, p, hj, hdep, hanswered, hsplit⟩ :=
      h.unanswered hunsplit hi hopen (hready q hq)
    have hp := mem_of_getElem? hj
    cases hstatus : p.status with
    | pending =>
      have hopen' : p.isOpen = true := by simp [Question.isOpen, hstatus]
      exact waits_of_dependency hq hdep (ih j hlt p hj hopen')
    | partialAnswer =>
      have hopen' : p.isOpen = true := by simp [Question.isOpen, hstatus]
      exact waits_of_dependency hq hdep (ih j hlt p hj hopen')
    | active => exact absurd hstatus (hactive p hp)
    | answered => exact absurd hstatus hanswered
    | blocked => exact ⟨p, hp, hstatus, .single ⟨q, hq, rfl, hdep⟩⟩
    | decomposed => exact absurd hstatus hsplit

/-- Where no open question depends on a decomposed one, it is ready once its dependencies
are done. -/
theorem QuestionsSound.ready (h : QuestionsSound questions) (hunsplit : Unsplit questions)
    (hq : q ∈ questions) (hopen : q.isOpen = true)
    (hdone : ∀ p ∈ questions, some p.id ∈ q.dependencies → Done questions p) :
    q.ready questions = true := by
  cases hready : q.ready questions with
  | true => rfl
  | false =>
    obtain ⟨i, hi⟩ := mem_iff_getElem?.mp hq
    obtain ⟨j, _, p, hj, hdep, hanswered, hsplit⟩ := h.unanswered hunsplit hi hopen hready
    cases hdone p (mem_of_getElem? hj) hdep with
    | answered _ hstatus => exact absurd hstatus hanswered
    | split _ hstatus _ => exact absurd hstatus hsplit

/-- What `next` finds keeps to everything, and no question of it is active. -/
theorem found_sound {d : QueueData} {limit : AttemptLimit} (h : QuestionsSound d.questions)
    (hunsplit : Unsplit d.questions) : QuestionsSound (found disk limit d) ∧
      Unsplit (found disk limit d) ∧ ∀ q ∈ found disk limit d, q.status ≠ .active := by
  have hvalid : QuestionsStep disk .validateEvidence d.questions 0
      (d.questions.map (revalidate disk)) := step_validate
  have hprepare : QuestionsStep disk .validateEvidence (d.questions.map (revalidate disk)) 0
      (found disk limit d) := step_prepare
  refine ⟨hprepare.sound (hvalid.sound h), hprepare.unsplit rfl (hvalid.unsplit rfl hunsplit),
    fun q hq => ?_⟩
  obtain ⟨i, hi⟩ := mem_iff_getElem?.mp hq
  obtain ⟨_, _, _, hactive, _⟩ := prepareNext_some hi
  exact hactive

/-- The file has no open question that depends on a decomposed one. -/
def FileUnsplit (file : Option QueueData) : Prop := ∀ d ∈ file, Unsplit d.questions

variable {lower sha256 checkpointWarnings file}

/-- A careful call keeps the file so. -/
theorem CallEnd.unsplit {call : QueueCall} {file' : Option QueueData}
    {result : Except String (Option Question)}
    (h : CallEnd disk call answerCount file (result, file'))
    (hcareful : file.all (fun d => call.careful d.questions) = true) (hunsplit : FileUnsplit file) :
    FileUnsplit file' := by
  cases h with
  | refused e => exact hunsplit
  | halfway e d d' hfile hcall hvalid hstep =>
    intro d'' hd
    cases hd
    exact hstep.unsplit (by rwa [hfile] at hcareful) (hunsplit d hfile)
  | created a d brief hfile hcount hquestions =>
    intro d' hd q hq _ dep hdep
    cases hd
    rw [hquestions] at hq
    rw [mem_singleton.mp hq] at hdep
    cases hdep
  | stored a d d' hfile hstep =>
    intro d'' hd
    cases hd
    exact hstep.unsplit (by rwa [hfile] at hcareful) (hunsplit d hfile)

theorem run_unsplit (calls : List (QueueCall × Disk)) (hunsplit : FileUnsplit file)
    (hcareful : carefulRun lower sha256 checkpointWarnings file calls = true) :
    FileUnsplit (queueRun lower sha256 checkpointWarnings file calls) := by
  induction calls generalizing file with
  | nil => exact hunsplit
  | cons call rest ih =>
    obtain ⟨result, hend, _⟩ := queueStep_end lower sha256 checkpointWarnings file call
    obtain ⟨hfirst, hrest⟩ := Bool.and_eq_true_iff.mp hcareful
    exact ih (hend.unsplit hfirst hunsplit) hrest

/-- In every state that a careful run leads to, `next` does not stall, and what has its
dependencies done is ready. -/
theorem next_never_stalls (calls : List (QueueCall × Disk))
    (hcareful : carefulRun lower sha256 checkpointWarnings none calls = true) :
    NeverStalls lower sha256 checkpointWarnings
      (queueRun lower sha256 checkpointWarnings none calls) := by
  have hsound : FileSound (queueRun lower sha256 checkpointWarnings none calls) :=
    run_sound (fun _ h => by cases h) calls
  have hunsplit : FileUnsplit (queueRun lower sha256 checkpointWarnings none calls) :=
    run_unsplit calls (fun _ h => by cases h) hcareful
  generalize queueRun lower sha256 checkpointWarnings none calls = file at hsound hunsplit
  refine ⟨fun disk limit d' hexec q hq hopen => ?_, fun d hd q hq hopen hdone =>
    (hsound d hd).ready (hunsplit d hd) hq hopen hdone⟩
  cases file with
  | none => cases hexec
  | some d =>
    obtain ⟨hstored, hready⟩ := (next_some disk d limit).2 d' hexec
    obtain ⟨hfound, hfree, hactive⟩ : QuestionsSound (found disk limit d) ∧
        Unsplit (found disk limit d) ∧ ∀ q ∈ found disk limit d, q.status ≠ .active :=
      found_sound (hsound d rfl) (hunsplit d rfl)
    rw [hstored] at hq ⊢
    obtain ⟨i, hi⟩ := mem_iff_getElem?.mp hq
    exact hfound.waits hfree hready hactive i q hi hopen

/-- The second question is split as the part of the first that no other one waits for, and
its part is answered. -/
def carefulCalls : List (QueueCall × Disk) :=
  [.create (.text (word "brief")) (word "artifact"),
   .add (.items [exampleItem "find the key" [], exampleItem "find the lock" []]) (word "q1"),
   .next (.number 3),
   .add (.items [exampleItem "find the table" []]) (word "q2"),
   .next (.number 3),
   .checkpoint (word "q3") (exampleAnswer [some (.text (word "receipts/r1"))]),
   .add (.items [exampleItem "use the key" [some "q3"]]) (word "q4")].map (·, exampleDisk)

theorem next_never_stalls_careful :
    NeverStalls id id (fun _ => []) (queueRun id id (fun _ => []) none carefulCalls) :=
  next_never_stalls carefulCalls (by decide)

/-- The second question is split after the third was made to wait for it, and its part
is answered. -/
def exampleCalls : List (QueueCall × Disk) :=
  [.create (.text (word "brief")) (word "artifact"),
   .add (.items [exampleItem "find the key" [], exampleItem "use the key" [some "q2"]]) (word "q1"),
   .next (.number 3),
   .add (.items [exampleItem "find the table" []]) (word "q2"),
   .next (.number 3),
   .checkpoint (word "q4") (exampleAnswer [some (.text (word "receipts/r1"))])].map (·, exampleDisk)

/-- With all other work answered, the third question is open and never ready. -/
theorem next_stalls_after_split :
    ¬ NeverStalls id id (fun _ => []) (queueRun id id (fun _ => []) none exampleCalls) := by
  intro hnever
  have hnone : ((QueueCall.next (.number 3)).exec id id (fun _ => []) exampleDisk
      (queueRun id id (fun _ => []) none exampleCalls)).1.toOption = some none := by decide
  have hleft : ((QueueCall.next (.number 3)).exec id id (fun _ => []) exampleDisk
      (queueRun id id (fun _ => []) none exampleCalls)).2.any (fun d =>
        d.questions.any Question.isOpen && d.questions.all (fun q => q.status ≠ .blocked)) = true := by
    decide
  cases hexec : (QueueCall.next (.number 3)).exec id id (fun _ => []) exampleDisk
      (queueRun id id (fun _ => []) none exampleCalls) with
  | mk result file =>
    rw [hexec] at hnone hleft
    obtain ⟨d, rfl, hleft⟩ := (Option.any_eq_true _ _).mp hleft
    cases result with
    | error e => cases hnone
    | ok answer =>
      cases hnone
      obtain ⟨hsome, hblocked⟩ := Bool.and_eq_true_iff.mp hleft
      obtain ⟨q, hq, hopen⟩ := any_eq_true.mp hsome
      obtain ⟨b, hb, hstatus, _⟩ := hnever.waits _ _ d hexec q hq hopen
      exact of_decide_eq_true (all_eq_true.mp hblocked b hb) hstatus

end Agent
