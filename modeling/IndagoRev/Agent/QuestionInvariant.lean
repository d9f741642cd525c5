import IndagoRev.Numerals
import IndagoRev.Transactions
import IndagoRev.Agent.QuestionQueue

/-!
# What a queue keeps

Every operation changes the questions one by one and adds new ones behind them
(`Evolves`). From what it may do to one question (`Transition`) follows what the file
keeps over any sequence of calls: what is in a `QuestionsStep`, for `step_add`,
`step_checkpoint`, `step_validate`, `step_prepare` and `step_activate`.
-/

namespace Agent

open StdText Transactions

variable {lower sha256 : JsText → JsText} {checkpointWarnings : JsText → List String}
variable {disk : Disk} {d d' : QueueData} {q q' q'' : Question} {file : Option QueueData}

/-- A path that does not begin by going up leads into the directory. -/
theorem stepsFrom_inside {from_ to_ : List JsText} (h : startsWithUp (stepsFrom from_ to_) = false) :
    to_ = from_ ++ stepsFrom from_ to_ := by
  induction from_ generalizing to_ with
  | nil => simp [stepsFrom]
  | cons a rest ih =>
    cases to_ with
    | nil =>
      -- every step goes up
      simp [stepsFrom, List.replicate_succ, startsWithUp] at h
      exact absurd h (by decide)
    | cons b to_ =>
      unfold stepsFrom at h ⊢
      by_cases hab : a = b
      · rw [if_pos hab] at h ⊢
        rw [hab, List.cons_append, ← ih h]
      · rw [if_neg hab, List.replicate_succ] at h
        simp [startsWithUp] at h
        exact absurd h (by decide)

/-- A receipt names a file inside of the directory, with the hash that it has. -/
def Disk.Holds (disk : Disk) (receipt : Receipt) : Prop :=
  ∃ info, disk.stat ⟨disk.root.volume, disk.root.segments ++ receipt.path⟩ = some info ∧
    info.isFile = true ∧ info.sha256 = receipt.sha256

theorem receiptOf_holds {ref : Argument} {receipt : Receipt}
    (h : receiptOf disk ref = .ok receipt) : disk.Holds receipt := by
  unfold receiptOf at h
  obtain ⟨text, _, h⟩ := except_bind_ok.mp h
  cases hreal : disk.realpath text with
  | none =>
    rw [hreal] at h
    cases h
  | some found =>
    rw [hreal] at h
    dsimp only at h
    unfold pathRelative at h
    by_cases hvolume : disk.root.volume = found.volume
    · rw [if_pos hvolume] at h
      dsimp only at h
      split at h
      · cases h
      next hinside =>
        cases hstat : disk.stat found with
        | none =>
          rw [hstat] at h
          cases h
        | some info =>
          rw [hstat] at h
          dsimp only at h
          split at h
          · cases h
          next hfile =>
            split at h
            · cases h
              have hsegments := stepsFrom_inside (Bool.eq_false_iff.mpr hinside)
              refine ⟨info, ?_, ?_, rfl⟩
              · rw [← hsegments, hvolume]
                exact hstat
              · simp only [not_or, Bool.not_eq_false] at hfile
                exact hfile.1
            · cases h
    · rw [if_neg hvolume] at h
      cases h

/-- What an operation may do to a question. -/
structure Transition (disk : Disk) (q q' : Question) : Prop where
  id : q'.id = q.id
  dependencies : q'.dependencies = q.dependencies
  attempts : q.attempts ≤ q'.attempts
  answered : q.status = .answered → q'.status = .answered ∨ q'.status = .blocked
  settled : q.status = .decomposed ∨ q.status = .blocked → q'.status = q.status
  proven : q'.status = .answered → q.status = .answered ∧ q'.evidence = q.evidence ∨
    q'.evidence ≠ [] ∧ ∀ receipt, some receipt ∈ q'.evidence → disk.Holds receipt

theorem Transition.refl (disk : Disk) (q : Question) : Transition disk q q :=
  ⟨rfl, rfl, Nat.le_refl _, Or.inl, fun _ => rfl, fun h => Or.inl ⟨h, rfl⟩⟩

theorem Transition.trans (h : Transition disk q q') (h' : Transition disk q' q'') :
    Transition disk q q'' where
  id := h'.id.trans h.id
  dependencies := h'.dependencies.trans h.dependencies
  attempts := Nat.le_trans h.attempts h'.attempts
  answered := fun hanswered => by
    rcases h.answered hanswered with hstill | hblocked
    · exact h'.answered hstill
    · exact Or.inr ((h'.settled (Or.inr hblocked)).trans hblocked)
  settled := fun hsettled => by
    have hsame := h.settled hsettled
    exact (h'.settled (by rwa [hsame])).trans hsame
  proven := fun hanswered => by
    rcases h'.proven hanswered with ⟨hbefore, hevidence⟩ | hproven
    · rw [hevidence]
      exact h.proven hbefore
    · exact Or.inr hproven

theorem transition_decompose (h : q.status = .active ∨ q.isOpen = true) :
    Transition disk q (decompose q) := by
  refine ⟨rfl, rfl, Nat.le_refl _, ?_, ?_, fun hanswered => by cases hanswered⟩
  · intro hanswered
    simp [Question.isOpen, hanswered] at h
  · rintro (hsettled | hsettled) <;> simp [Question.isOpen, hsettled] at h

theorem transition_revalidate : Transition disk q (revalidate disk q) := by
  unfold revalidate
  split
  · next hrefuted =>
      have hstatus : q.status = .answered := by
        simp only [Question.refuted, Bool.and_eq_true, decide_eq_true_eq] at hrefuted
        exact hrefuted.1
      refine ⟨rfl, rfl, Nat.le_refl _, fun _ => Or.inr rfl, ?_, fun h => by cases h⟩
      rintro (hsettled | hsettled) <;> simp [hsettled] at hstatus
  · exact .refl disk q

theorem transition_reopen : Transition disk q (reopen q) := by
  unfold reopen
  split
  · next hactive =>
      refine ⟨rfl, rfl, Nat.le_refl _, ?_, ?_, fun h => by cases h⟩
      · intro hanswered
        simp [hanswered] at hactive
      · rintro (hsettled | hsettled) <;> simp [hsettled] at hactive
  · exact .refl disk q

theorem transition_exhaust {limit : AttemptLimit} : Transition disk q (exhaust limit q) := by
  unfold exhaust
  split
  · next hopen =>
      obtain ⟨hopen, _⟩ := hopen
      refine ⟨rfl, rfl, Nat.le_refl _, fun _ => Or.inr rfl, ?_, fun h => by cases h⟩
      rintro (hsettled | hsettled) <;> simp [Question.isOpen, hsettled] at hopen
  · exact .refl disk q

theorem transition_activate (h : q.isOpen = true) : Transition disk q (activate q) := by
  refine ⟨rfl, rfl, Nat.le_succ _, ?_, ?_, fun hactive => by cases hactive⟩
  · intro hanswered
    simp [Question.isOpen, hanswered] at h
  · rintro (hsettled | hsettled) <;> simp [Question.isOpen, hsettled] at h

variable {change : Question → Question}

/-- What a checked map makes of an array that may have holes. -/
theorem optionMapM_ok {α β : Type} {f : α → Except String β} {a : Option α} {b : β}
    (h : a.mapM f = .ok (some b)) : ∃ x, a = some x ∧ f x = .ok b := by
  cases a with
  | none => cases h
  | some x =>
    cases hx : f x with
    | error e =>
      simp [Option.mapM, hx] at h
    | ok y =>
      simp [Option.mapM, hx] at h
      exact ⟨x, rfl, h ▸ hx⟩

theorem checkpointChange_ok {c : Checkpoint}
    (h : checkpointChange checkpointWarnings disk c = .ok change) (hactive : q.status = .active) :
    Transition disk q (change q) ∧ (change q).status ≠ .active ∧
      (change q).status ≠ .decomposed ∧ (change q).attempts = q.attempts := by
  unfold checkpointChange at h
  cases hstatus : c.status.status? with
  | none =>
    rw [hstatus] at h
    cases h
  | some status =>
    rw [hstatus] at h
    dsimp only at h
    obtain ⟨summary, _, h⟩ := except_bind_ok.mp h
    split at h
    · cases h
    split at h
    · next evidence failed action _ _ _ =>
        split at h
        · cases h
        obtain ⟨receipts, hreceipts, h⟩ := except_bind_ok.mp h
        split at h
        · cases h
        next hsource =>
          obtain ⟨failed', _, h⟩ := except_bind_ok.mp h
          cases h
          have hdone : status ≠ .active ∧ status ≠ .decomposed := by
            cases hc : c.status <;> rw [hc] at hstatus <;>
              simp [CheckpointStatus.status?] at hstatus <;> simp [← hstatus]
          refine ⟨⟨rfl, rfl, Nat.le_refl _, ?_, ?_, ?_⟩, hdone.1, hdone.2, rfl⟩
          · intro hanswered
            rw [hactive] at hanswered
            cases hanswered
          · rintro (hsettled | hsettled) <;> simp [hactive] at hsettled
          intro hanswered
          refine Or.inr ⟨fun hnone => hsource ⟨hanswered, hnone⟩, ?_⟩
          intro receipt hreceipt
          obtain ⟨ref, _, href⟩ := except_mapM_mem evidence hreceipts hreceipt
          obtain ⟨arg, _, harg⟩ := optionMapM_ok href
          exact receiptOf_holds harg
    · cases h

/-- A question that was added at place `i`. -/
structure Fresh (questions : List Question) (i : Nat) (q : Question) : Prop where
  id : q.id = questionId (i + 1)
  earlier : ∀ id, some id ∈ q.dependencies → ∃ j < i, ∃ p, questions[j]? = some p ∧ p.id = id
  status : q.status = .pending
  attempts : q.attempts = 0

/-- What an operation may do to the questions: it changes those that are there one by
one, and adds new ones behind them. -/
structure Evolves (disk : Disk) (old new : List Question) : Prop where
  length : old.length ≤ new.length
  kept : ∀ (i : Nat) q, old[i]? = some q → ∃ q', new[i]? = some q' ∧ Transition disk q q'
  added : ∀ (i : Nat) q', new[i]? = some q' → old.length ≤ i → Fresh new i q'

variable {questions : List Question} {f : Question → Question}

theorem evolves_map
    (h : ∀ q, Transition disk q (f q)) : Evolves disk questions (questions.map f) where
  length := by simp
  kept := fun i q hq => ⟨f q, by simp [hq], h q⟩
  added := fun i q' hq' hle => by
    have hlt := (List.getElem?_eq_some_iff.mp hq').1
    rw [List.length_map] at hlt
    omega

variable {i : Nat}

theorem evolves_modify (h : ∀ q, questions[i]? = some q → Transition disk q (f q)) :
    Evolves disk questions (questions.modify i f) where
  length := by simp
  kept := fun j q hq => by
    rw [List.getElem?_modify]
    by_cases hij : i = j
    · subst hij
      exact ⟨f q, by simp [hq], h q hq⟩
    · exact ⟨q, by simp [hq, hij], .refl disk q⟩
  added := fun j q' hq' hle => by
    have hlt := (List.getElem?_eq_some_iff.mp hq').1
    rw [List.length_modify] at hlt
    omega

variable {old mid new : List Question}

/-- Operations one after the other, where the second one adds nothing. -/
theorem Evolves.trans (h : Evolves disk old mid)
    (h' : Evolves disk mid new) (hlength : new.length = mid.length)
    (hfresh : ∀ (i : Nat) q, mid[i]? = some q → old.length ≤ i → new[i]? = some q) :
    Evolves disk old new where
  length := Nat.le_trans h.length h'.length
  kept := fun i q hq => by
    obtain ⟨q', hq', hfirst⟩ := h.kept i q hq
    obtain ⟨q'', hq'', hsecond⟩ := h'.kept i q' hq'
    exact ⟨q'', hq'', hfirst.trans hsecond⟩
  added := fun i q' hq' hle => by
    have hlt := (List.getElem?_eq_some_iff.mp hq').1
    rw [hlength] at hlt
    have hmid := List.getElem?_eq_getElem hlt
    have hsame := hfresh i _ hmid hle
    rw [hq'] at hsame
    obtain rfl := Option.some.inj hsame
    have hnew := h.added i _ hmid hle
    refine ⟨hnew.id, fun id hid => ?_, hnew.status, hnew.attempts⟩
    obtain ⟨j, hj, p, hp, hname⟩ := hnew.earlier id hid
    obtain ⟨p', hp', hchanged⟩ := h'.kept j p hp
    exact ⟨j, hj, p', hp', hchanged.id.trans hname⟩

/-- The ASCII text of a string. -/
def ascii (t : JsText) : Text := t.map (fun u => Char.ofNat u.toNat)

theorem ascii_js {t : Text} (h : ∀ c ∈ t, c.toNat < 2 ^ 16) : ascii (js t) = t := by
  unfold ascii js
  rw [List.map_map]
  conv => rhs; rw [← List.map_id t]
  apply List.map_congr_left
  intro c hc
  show Char.ofNat (UInt16.ofNat c.toNat).toNat = c
  rw [UInt16.toNat_ofNat', Nat.mod_eq_of_lt (h c hc), Char.ofNat_toNat]

theorem questionId_ascii (n : Nat) : ascii (questionId n) = 'q' :: decimal n := by
  apply ascii_js
  intro c hc
  rcases List.mem_cons.mp hc with rfl | hc
  · decide
  have hdigit := isDigit_of_mem_decimal hc
  simp only [Char.isDigit, Bool.and_eq_true, decide_eq_true_eq] at hdigit
  have hle : c.toNat ≤ 57 := hdigit.2
  omega

theorem questionId_injective {n m : Nat} (h : questionId n = questionId m) : n = m := by
  have hascii := congrArg ascii h
  rw [questionId_ascii, questionId_ascii] at hascii
  have hdecimal : decimal n = decimal m := (List.cons.inj hascii).2
  have hnumber := congrArg (fun t => Nat.ofDigitChars 10 t 0) hdecimal
  simpa [decimal, Nat.ofDigitChars_toDigits] using hnumber

theorem find_findIdx {α : Type} (p : α → Bool) (l : List α) : l.find? p = l[l.findIdx p]? := by
  induction l with
  | nil => rfl
  | cons a l ih => cases h : p a <;> simp [h, List.findIdx_cons, ih]

variable {id : JsText}

/-- A question that is found stands at the first place with its id. -/
theorem questionAt_some (h : questionAt questions id = some q) :
    questions[questions.findIdx (fun p => p.id = id)]? = some q ∧ q.id = id := by
  refine ⟨?_, by simpa using List.find?_some h⟩
  rw [← find_findIdx]
  exact h

/-- What the questions of a queue keep to. -/
structure QuestionsSound (questions : List Question) : Prop where
  ids : ∀ (i : Nat) q, questions[i]? = some q → q.id = questionId (i + 1)
  earlier : ∀ (i : Nat) q, questions[i]? = some q → ∀ id, some id ∈ q.dependencies →
    ∃ j < i, ∃ p, questions[j]? = some p ∧ p.id = id
  single : ∀ (i j : Nat) q p, questions[i]? = some q → questions[j]? = some p →
    q.status = .active → p.status = .active → i = j
  proven : ∀ q ∈ questions, q.status = .answered → q.evidence ≠ []

/-- The questions that have a status afterwards had it before. -/
def StatusBefore (status : QuestionStatus) (old new : List Question) : Prop :=
  ∀ (i : Nat) q', new[i]? = some q' → q'.status = status →
    ∃ q, old[i]? = some q ∧ q.status = status

variable {old new : List Question}

theorem Evolves.sound (h : Evolves disk old new)
    (hsingle : ∀ (i j : Nat) q p, new[i]? = some q → new[j]? = some p → q.status = .active →
      p.status = .active → i = j) (hsound : QuestionsSound old) : QuestionsSound new := by
  -- every question was there, or is new
  have hsource : ∀ (i : Nat) q', new[i]? = some q' →
      (∃ q, old[i]? = some q ∧ Transition disk q q') ∨ Fresh new i q' := by
    intro i q' hq'
    by_cases hlt : i < old.length
    · obtain ⟨q'', hq'', htransition⟩ := h.kept i old[i] (List.getElem?_eq_getElem hlt)
      rw [hq'] at hq''
      obtain rfl := Option.some.inj hq''
      exact Or.inl ⟨old[i], List.getElem?_eq_getElem hlt, htransition⟩
    · exact Or.inr (h.added i q' hq' (Nat.le_of_not_lt hlt))
  refine ⟨?_, ?_, hsingle, ?_⟩
  · intro i q' hq'
    rcases hsource i q' hq' with ⟨q, hq, htransition⟩ | hfresh
    · exact htransition.id.trans (hsound.ids i q hq)
    · exact hfresh.id
  · intro i q' hq' id hid
    rcases hsource i q' hq' with ⟨q, hq, htransition⟩ | hfresh
    · rw [htransition.dependencies] at hid
      obtain ⟨j, hj, p, hp, hname⟩ := hsound.earlier i q hq id hid
      obtain ⟨p', hp', hchanged⟩ := h.kept j p hp
      exact ⟨j, hj, p', hp', hchanged.id.trans hname⟩
    · exact hfresh.earlier id hid
  · intro q' hmem hanswered
    obtain ⟨i, hi⟩ := List.mem_iff_getElem?.mp hmem
    rcases hsource i q' hi with ⟨q, hq, htransition⟩ | hfresh
    · rcases htransition.proven hanswered with ⟨hbefore, hevidence⟩ | hproven
      · rw [hevidence]
        exact hsound.proven q (List.mem_of_getElem? hq) hbefore
      · exact hproven.1
    · rw [hfresh.status] at hanswered
      cases hanswered

theorem StatusBefore.single (h : StatusBefore .active old new)
    (hsound : QuestionsSound old) : ∀ (i j : Nat) q p, new[i]? = some q → new[j]? = some p →
      q.status = .active → p.status = .active → i = j := by
  intro i j q p hq hp hqa hpa
  obtain ⟨q', hq', hqb⟩ := h i q hq hqa
  obtain ⟨p', hp', hpb⟩ := h j p hp hpa
  exact hsound.single i j q' p' hq' hp' hqb hpb

variable {status : QuestionStatus}

theorem statusBefore_map (h : ∀ q, (f q).status = status → q.status = status) :
    StatusBefore status questions (questions.map f) := by
  intro i q' hq' hstatus
  rw [List.getElem?_map, Option.map_eq_some_iff] at hq'
  obtain ⟨q, hq, rfl⟩ := hq'
  exact ⟨q, hq, h q hstatus⟩

theorem statusBefore_modify
    (h : ∀ q, questions[i]? = some q → (f q).status = status → q.status = status) :
    StatusBefore status questions (questions.modify i f) := by
  intro j q' hq' hstatus
  rw [List.getElem?_modify, Option.map_eq_map, Option.map_eq_some_iff] at hq'
  obtain ⟨q, hq, hchanged⟩ := hq'
  refine ⟨q, hq, ?_⟩
  by_cases hij : i = j
  · rw [if_pos hij] at hchanged
    rw [← hchanged] at hstatus
    exact h q (hij ▸ hq) hstatus
  · rw [if_neg hij] at hchanged
    rwa [hchanged]

/-- A question that is still worked on. -/
def Question.unsettled (q : Question) : Bool := q.isOpen || q.status = .active

/-- No question that is still worked on depends on a decomposed one, or on a null. -/
def Unsplit (questions : List Question) : Prop :=
  ∀ q ∈ questions, q.unsettled = true → ∀ dep ∈ q.dependencies, ∃ id, dep = some id ∧
    ∀ p ∈ questions, p.id = id → p.status ≠ .decomposed

theorem Transition.unsettled (h : Transition disk q q') (hq : q'.unsettled = true) :
    q.unsettled = true := by
  cases hstatus : q.status with
  | pending | partialAnswer | active => simp [Question.unsettled, Question.isOpen, hstatus]
  | answered =>
    rcases h.answered hstatus with hsame | hsame <;>
      simp [Question.unsettled, Question.isOpen, hsame] at hq
  | blocked =>
    simp [Question.unsettled, Question.isOpen, h.settled (Or.inr hstatus), hstatus] at hq
  | decomposed =>
    simp [Question.unsettled, Question.isOpen, h.settled (Or.inl hstatus), hstatus] at hq

/-- Operations that decompose and add nothing. -/
theorem Evolves.unsplit (h : Evolves disk old new) (hlength : new.length = old.length)
    (hbefore : StatusBefore .decomposed old new) (hold : Unsplit old) : Unsplit new := by
  have hsource : ∀ (i : Nat) q', new[i]? = some q' → ∃ q, old[i]? = some q ∧ Transition disk q q' := by
    intro i q' hq'
    have hlt := (List.getElem?_eq_some_iff.mp hq').1
    rw [hlength] at hlt
    obtain ⟨q'', hq'', htransition⟩ := h.kept i _ (List.getElem?_eq_getElem hlt)
    rw [hq'] at hq''
    obtain rfl := Option.some.inj hq''
    exact ⟨_, List.getElem?_eq_getElem hlt, htransition⟩
  intro q' hq' hunsettled dep hdep
  obtain ⟨i, hi⟩ := List.mem_iff_getElem?.mp hq'
  obtain ⟨q, hq, htransition⟩ := hsource i q' hi
  rw [htransition.dependencies] at hdep
  obtain ⟨id, rfl, hlive⟩ := hold q (List.mem_of_getElem? hq) (htransition.unsettled hunsettled)
    dep hdep
  refine ⟨id, rfl, fun p' hp' hid hsplit => ?_⟩
  obtain ⟨j, hj⟩ := List.mem_iff_getElem?.mp hp'
  obtain ⟨p, hp, hdecomposed⟩ := hbefore j p' hj hsplit
  obtain ⟨p'', hp'', hsame⟩ := hsource j p' hj
  rw [hp] at hp''
  obtain rfl := Option.some.inj hp''
  exact hlive p (List.mem_of_getElem? hp) (hsame.id.symm.trans hid) hdecomposed

/-- A dependency on a question that is not decomposed. -/
def namesLive (questions : List Question) : Option Argument → Bool
  | some (.text id) => questions.all (fun p => p.id ≠ id || p.status ≠ .decomposed)
  | _ => false

/-- A new question that depends on no decomposed one. -/
def NewQuestion.careful (questions : List Question) (item : NewQuestion) : Bool :=
  item.dependencies.list?.all (fun deps => deps.all (namesLive questions))

/-- Questions that were put behind others for a parent, by careful items if so. -/
def Grown (asked : Prop) (parent : JsText) (old new : List Question) : Prop :=
  (∃ more, new = old ++ more) ∧ ∀ (i : Nat) q, new[i]? = some q → old.length ≤ i → Fresh new i q ∧
    (asked → ∀ dep ∈ q.dependencies, ∃ id, dep = some id ∧ id ≠ parent ∧
      ∀ p ∈ old, p.id = id → p.status ≠ .decomposed)

variable {parent : JsText}

theorem namesEarlier_ok {arg : Argument} (h : namesEarlier parent questions arg = .ok id) :
    arg = .text id ∧ id ≠ parent ∧
      ∃ j < questions.length, ∃ p, questions[j]? = some p ∧ p.id = id := by
  cases arg with
  | other shown => cases h
  | text t =>
    simp only [namesEarlier] at h
    split at h
    · cases h
    next hknown =>
      cases h
      simp only [not_or, Bool.not_eq_false, List.any_eq_true, decide_eq_true_eq] at hknown
      obtain ⟨p, hp, hname⟩ := hknown.2
      obtain ⟨j, hj⟩ := List.mem_iff_getElem?.mp hp
      exact ⟨rfl, hknown.1, j, (List.getElem?_eq_some_iff.mp hj).1, p, hj, hname⟩

theorem checkDependencies_ok {dependencies : ArrayArgument Argument} {ids : List (Option JsText)}
    (h : checkDependencies parent questions dependencies = .ok ids) :
    ∃ deps, dependencies.list? = some deps ∧ ∀ dep ∈ ids, ∃ arg ∈ deps,
      arg.mapM (namesEarlier parent questions) = .ok dep := by
  unfold checkDependencies at h
  cases hlist : dependencies.list? with
  | none =>
    rw [hlist] at h
    cases h
  | some deps =>
    rw [hlist] at h
    dsimp only at h
    split at h
    · cases h
    · exact ⟨deps, rfl, fun dep hdep => except_mapM_mem deps h hdep⟩

variable {asked : Prop}

theorem grown_addItem {old : List Question} {state state' : List JsText × List Question}
    {item : Option NewQuestion} (hgrown : Grown asked parent old state.2)
    (hcareful : asked → item.all (NewQuestion.careful old) = true)
    (h : addItem lower parent state item = .ok state') : Grown asked parent old state'.2 := by
  cases item with
  | none => cases h
  | some item =>
    unfold addItem at h
    obtain ⟨question, _, h⟩ := except_bind_ok.mp h
    split at h
    · cases h
    obtain ⟨ids, hids, h⟩ := except_bind_ok.mp h
    cases h
    obtain ⟨deps, hdeps, hmade⟩ := checkDependencies_ok hids
    obtain ⟨⟨more, hmore⟩, hfresh⟩ := hgrown
    refine ⟨⟨more ++ [_], by rw [hmore, List.append_assoc]⟩, ?_⟩
    intro i q hq hle
    dsimp only at hq ⊢
    by_cases hlt : i < state.2.length
    · rw [List.getElem?_append_left hlt] at hq
      obtain ⟨hold, hlive⟩ := hfresh i q hq hle
      refine ⟨⟨hold.id, fun id hid => ?_, hold.status, hold.attempts⟩, hlive⟩
      obtain ⟨j, hj, p, hp, hname⟩ := hold.earlier id hid
      exact ⟨j, hj, p, by rw [List.getElem?_append_left (Nat.lt_trans hj hlt)]; exact hp, hname⟩
    have hbound := (List.getElem?_eq_some_iff.mp hq).1
    rw [List.length_append, List.length_singleton] at hbound
    obtain rfl : i = state.2.length := by omega
    rw [List.getElem?_append_right (Nat.le_refl _), Nat.sub_self] at hq
    cases hq
    refine ⟨⟨rfl, fun id hid => ?_, rfl, rfl⟩, fun hnew dep hdep => ?_⟩
    · rw [List.mem_eraseDups] at hid
      obtain ⟨arg, -, harg⟩ := hmade _ hid
      obtain ⟨arg, -, hname⟩ := optionMapM_ok harg
      obtain ⟨-, -, j, hj, p, hp, hpid⟩ := namesEarlier_ok hname
      exact ⟨j, hj, p, by rw [List.getElem?_append_left hj]; exact hp, hpid⟩
    · rw [List.mem_eraseDups] at hdep
      obtain ⟨arg, harg, hname⟩ := hmade dep hdep
      -- a careful item has no hole there, and names no decomposed question
      have hlive : namesLive old arg = true := by
        have hall : item.careful old = true := hcareful hnew
        rw [NewQuestion.careful, hdeps] at hall
        exact List.all_eq_true.mp hall arg harg
      match arg, hlive with
      | some (.text t), hlive =>
        cases dep with
        | none =>
          cases hcheck : namesEarlier parent state.2 (.text t) <;> simp [Option.mapM, hcheck] at hname
        | some id =>
          obtain ⟨x, hx, hname⟩ := optionMapM_ok hname
          cases hx
          obtain ⟨hsame, hne, -⟩ := namesEarlier_ok hname
          cases hsame
          refine ⟨_, rfl, hne, fun p hp hid hsplit => ?_⟩
          have := List.all_eq_true.mp hlive p hp
          simp [hid, hsplit] at this

theorem Grown.evolves (h : Grown asked parent old new) : Evolves disk old new where
  length := by
    obtain ⟨⟨more, rfl⟩, _⟩ := h
    simp
  kept := fun i q hq => by
    obtain ⟨⟨more, rfl⟩, _⟩ := h
    have hlt := (List.getElem?_eq_some_iff.mp hq).1
    exact ⟨q, by rw [List.getElem?_append_left hlt]; exact hq, .refl disk q⟩
  added := fun i q hq hle => (h.2 i q hq hle).1

/-- How often questions were activated so far. -/
def attempted (questions : List Question) : Nat := (questions.map Question.attempts).sum

theorem attempted_map
    (h : ∀ q, (f q).attempts = q.attempts) : attempted (questions.map f) = attempted questions := by
  have hsame : Question.attempts ∘ f = Question.attempts := funext h
  simp [attempted, List.map_map, hsame]

theorem attempted_modify
    {count : Nat} (hi : questions[i]? = some q) (h : (f q).attempts = q.attempts + count) :
    attempted (questions.modify i f) = attempted questions + count := by
  induction questions generalizing i with
  | nil => cases hi
  | cons first rest ih =>
    cases i with
    | zero =>
      cases hi
      simp only [attempted, List.modify_zero_cons, List.map_cons, List.sum_cons, h]
      omega
    | succ i =>
      have hrest := ih (i := i) hi
      simp only [attempted] at hrest ⊢
      simp only [List.modify_succ_cons, List.map_cons, List.sum_cons, hrest]
      omega

theorem Grown.attempted (h : Grown asked parent old new) : Agent.attempted new = Agent.attempted old := by
  obtain ⟨⟨more, rfl⟩, hfresh⟩ := h
  have hzero : ∀ n ∈ more.map Question.attempts, n = 0 := by
    intro n hn
    obtain ⟨q, hq, rfl⟩ := List.mem_map.mp hn
    obtain ⟨i, hi⟩ := List.mem_iff_getElem?.mp hq
    apply (hfresh (old.length + i) q _ (by omega)).1.attempts
    rw [List.getElem?_append_right (by omega), Nat.add_sub_cancel_left]
    exact hi
  have hsum : (more.map Question.attempts).sum = 0 := List.sum_eq_zero_iff_forall_eq_nat.mpr hzero
  simp [Agent.attempted, hsum]

/-- The limit that a call sets for the attempts. -/
def QueueCall.limit : QueueCall → Option AttemptLimit
  | .next maxAttempts => some maxAttempts
  | _ => none

/-- From `m` attempts on a question is exhausted. -/
def AttemptLimit.Stops (limit : AttemptLimit) (m : Nat) : Prop := ∀ n, m ≤ n → limit.reached n = true

/-- An addition splits a question that no other one waits for that is still worked on, and
its items are careful. -/
def QueueCall.careful (questions : List Question) : QueueCall → Bool
  | .add (.items items) parent =>
    questions.all (fun q => !q.unsettled || !q.dependencies.contains (some parent)) &&
      items.all (fun item => item.all (NewQuestion.careful questions))
  | _ => true

/-- What a call that answers did to the questions. -/
structure QuestionsStep (disk : Disk) (call : QueueCall) (old : List Question) (count : Nat)
    (new : List Question) : Prop where
  evolves : Evolves disk old new
  sound : QuestionsSound old → QuestionsSound new
  attempted : attempted new = attempted old + count
  bounded : ∀ m, (∀ l ∈ call.limit, l.Stops m) → (∀ q ∈ old, q.attempts ≤ m) →
    ∀ q ∈ new, q.attempts ≤ m
  unsplit : call.careful old = true → Unsplit old → Unsplit new

variable {m : Nat}

theorem bounded_map
    (h : ∀ q, (f q).attempts = q.attempts) (hbounded : ∀ q ∈ questions, q.attempts ≤ m) :
    ∀ q ∈ questions.map f, q.attempts ≤ m := by
  intro q hq
  obtain ⟨p, hp, rfl⟩ := List.mem_map.mp hq
  rw [h]
  exact hbounded p hp

theorem bounded_modify (h : ∀ q, questions[i]? = some q → q.attempts ≤ m → (f q).attempts ≤ m)
    (hbounded : ∀ q ∈ questions, q.attempts ≤ m) : ∀ q ∈ questions.modify i f, q.attempts ≤ m := by
  intro q hq
  obtain ⟨j, hj⟩ := List.mem_iff_getElem?.mp hq
  rw [List.getElem?_modify, Option.map_eq_map, Option.map_eq_some_iff] at hj
  obtain ⟨p, hp, hchanged⟩ := hj
  have hbefore := hbounded p (List.mem_of_getElem? hp)
  by_cases hij : i = j
  · rw [if_pos hij] at hchanged
    rw [← hchanged]
    exact h p (hij ▸ hp) hbefore
  · rw [if_neg hij] at hchanged
    rwa [← hchanged]

variable {call : QueueCall}

/-- `add` puts careful questions behind the old ones and decomposes the parent. -/
theorem step_add {items : List (Option NewQuestion)}
    {added : List JsText × List Question} (hparent : questionAt questions parent = some q)
    (hopen : q.status = .active ∨ q.isOpen = true) (hadded : items.foldlM (addItem lower parent)
      (questions.map (fun q => normalized lower q.question), questions) = .ok added) :
    QuestionsStep disk (.add (.items items) parent) questions 0
      (changeQuestion added.2 parent decompose) := by
  have hgrown : Grown (QueueCall.careful questions (.add (.items items) parent) = true) parent
      questions added.2 := by
    refine except_foldlM_keeps (fun state => Grown _ parent questions state.2) items ?_ ?_ hadded
    · intro state item hitem state' hgrown h
      refine grown_addItem hgrown (fun hcareful => ?_) h
      simp only [QueueCall.careful, Bool.and_eq_true] at hcareful
      exact List.all_eq_true.mp hcareful.2 item hitem
    · exact ⟨⟨[], by simp⟩, fun i q hq hle => by
        have hlt := (List.getElem?_eq_some_iff.mp hq).1
        exact absurd hlt (Nat.not_lt.mpr hle)⟩
  obtain ⟨hat, hid⟩ := questionAt_some hparent
  -- the parent is one of the questions that were there
  have hlt := (List.getElem?_eq_some_iff.mp hat).1
  have hold : ∀ i < questions.length, added.2[i]? = questions[i]? := by
    intro i hi
    obtain ⟨⟨more, hmore⟩, _⟩ := hgrown
    rw [hmore, List.getElem?_append_left hi]
  have hindex : added.2.findIdx (fun p => p.id = parent) =
      questions.findIdx (fun p => p.id = parent) := by
    obtain ⟨⟨more, hmore⟩, _⟩ := hgrown
    rw [hmore, List.findIdx_append, if_pos hlt]
  have hstill := (hold _ hlt).trans hat
  unfold changeQuestion
  rw [hindex]
  have hchanged : ∀ p, added.2[questions.findIdx (fun p => p.id = parent)]? = some p →
      Transition disk p (decompose p) := by
    intro p hp
    rw [hstill] at hp
    obtain rfl := Option.some.inj hp
    exact transition_decompose hopen
  have hmodified : Evolves disk added.2
      (added.2.modify (questions.findIdx (fun p => p.id = parent)) decompose) :=
    evolves_modify hchanged
  have hevolves : Evolves disk questions
      (added.2.modify (questions.findIdx (fun p => p.id = parent)) decompose) := by
    apply hgrown.evolves.trans hmodified (by simp)
    intro i p hp hle
    have hne : ¬ questions.findIdx (fun p => p.id = parent) = i := by omega
    rw [List.getElem?_modify, hp]
    simp [hne]
  refine ⟨hevolves, fun hsound => hevolves.sound ?_ hsound, ?_, ?_, ?_⟩
  · refine StatusBefore.single ?_ hsound
    intro i q' hq' hactive
    obtain ⟨p, hp, hpa⟩ := statusBefore_modify (fun _ _ h => by cases h) i q' hq' hactive
    by_cases hi : i < questions.length
    · exact ⟨p, (hold i hi).symm.trans hp, hpa⟩
    · rw [(hgrown.2 i p hp (Nat.le_of_not_lt hi)).1.status] at hpa
      cases hpa
  · have hsame : (decompose q).attempts = q.attempts + 0 := rfl
    rw [attempted_modify hstill hsame, hgrown.attempted]
  · intro m _ hbounded
    refine bounded_modify (fun p _ h => (show (decompose p).attempts ≤ m from h)) ?_
    intro p hp
    obtain ⟨i, hi⟩ := List.mem_iff_getElem?.mp hp
    by_cases hlt : i < questions.length
    · exact hbounded p (List.mem_of_getElem? ((hold i hlt).symm.trans hi))
    · rw [(hgrown.2 i p hi (Nat.le_of_not_lt hlt)).1.attempts]
      exact Nat.zero_le m
  · intro hcareful hunsplit q' hq' hunsettled dep hdep
    -- what is decomposed now is the parent, or was so
    have hsplit : ∀ p' ∈ added.2.modify (questions.findIdx (fun p => p.id = parent)) decompose,
        p'.status = .decomposed → p'.id = parent ∨
          ∃ p ∈ questions, p.id = p'.id ∧ p.status = .decomposed := by
      intro p' hp' hdecomposed
      obtain ⟨i, hi⟩ := List.mem_iff_getElem?.mp hp'
      rw [List.getElem?_modify, Option.map_eq_map, Option.map_eq_some_iff] at hi
      obtain ⟨p, hp, hmade⟩ := hi
      by_cases hij : questions.findIdx (fun p => p.id = parent) = i
      · rw [if_pos hij] at hmade
        rw [← hij, hstill] at hp
        obtain rfl := Option.some.inj hp
        exact Or.inl (by rw [← hmade]; exact hid)
      rw [if_neg hij] at hmade
      obtain rfl : p = p' := hmade
      by_cases hlt : i < questions.length
      · exact Or.inr ⟨p, List.mem_of_getElem? ((hold i hlt).symm.trans hp), rfl, hdecomposed⟩
      · rw [(hgrown.2 i p hp (Nat.le_of_not_lt hlt)).1.status] at hdecomposed
        cases hdecomposed
    have hlive : ∃ id, dep = some id ∧ id ≠ parent ∧
        ∀ p ∈ questions, p.id = id → p.status ≠ .decomposed := by
      obtain ⟨i, hi⟩ := List.mem_iff_getElem?.mp hq'
      rw [List.getElem?_modify, Option.map_eq_map, Option.map_eq_some_iff] at hi
      obtain ⟨p, hp, hmade⟩ := hi
      have htransition : Transition disk p q' := by
        by_cases hij : questions.findIdx (fun p => p.id = parent) = i
        · rw [if_pos hij] at hmade
          exact hmade ▸ hchanged p (hij ▸ hp)
        · rw [if_neg hij] at hmade
          exact hmade ▸ .refl disk p
      rw [htransition.dependencies] at hdep
      by_cases hlt : i < questions.length
      · -- no old question that is worked on waits for the parent
        have hmem := List.mem_of_getElem? ((hold i hlt).symm.trans hp)
        obtain ⟨id, rfl, hlive⟩ := hunsplit p hmem (htransition.unsettled hunsettled) dep hdep
        refine ⟨id, rfl, fun hparent => ?_, hlive⟩
        simp only [QueueCall.careful, Bool.and_eq_true] at hcareful
        have hfree := List.all_eq_true.mp hcareful.1 p hmem
        simp [htransition.unsettled hunsettled, ← hparent, hdep] at hfree
      · exact (hgrown.2 i p hp (Nat.le_of_not_lt hlt)).2 hcareful dep hdep
    obtain ⟨id, rfl, hne, hlive⟩ := hlive
    refine ⟨id, rfl, fun p' hp' hid' hdecomposed => ?_⟩
    rcases hsplit p' hp' hdecomposed with hself | ⟨p, hp, hsame, hbefore⟩
    · exact hne (hid'.symm.trans hself)
    · exact hlive p hp (hsame.trans hid') hbefore

/-- `checkpoint` changes the active question. -/
theorem step_checkpoint {c : Checkpoint}
    (hquestion : questionAt questions id = some q) (hactive : q.status = .active)
    (hchange : checkpointChange checkpointWarnings disk c = .ok change) :
    QuestionsStep disk call questions 0 (changeQuestion questions id change) := by
  obtain ⟨hat, _⟩ := questionAt_some hquestion
  have hq : ∀ p, questions[questions.findIdx (fun p => p.id = id)]? = some p → p = q := by
    intro p hp
    rw [hat] at hp
    exact (Option.some.inj hp).symm
  obtain ⟨htransition, hdone, hsplit, hattempts⟩ := checkpointChange_ok hchange hactive
  have hevolves : Evolves disk questions (changeQuestion questions id change) :=
    evolves_modify (fun p hp => by rw [hq p hp]; exact htransition)
  refine ⟨hevolves, fun hsound => hevolves.sound ?_ hsound, ?_, ?_, fun _ => ?_⟩
  · refine (statusBefore_modify fun p hp hpa => ?_).single hsound
    rw [hq p hp] at hpa
    exact absurd hpa hdone
  · exact attempted_modify hat hattempts
  · intro m _ hbounded
    apply bounded_modify _ hbounded
    intro p hp hle
    rw [hq p hp] at hle ⊢
    rwa [hattempts]
  · refine hevolves.unsplit (by simp [changeQuestion]) (statusBefore_modify fun p hp hpa => ?_)
    rw [hq p hp] at hpa
    exact absurd hpa hsplit

theorem revalidate_attempts (q : Question) : (revalidate disk q).attempts = q.attempts := by
  unfold revalidate
  split <;> rfl

theorem reopen_attempts (q : Question) : (reopen q).attempts = q.attempts := by
  unfold reopen
  split <;> rfl

variable {limit : AttemptLimit}

theorem exhaust_attempts (q : Question) : (exhaust limit q).attempts = q.attempts := by
  unfold exhaust
  split <;> rfl

/-- Revalidation only makes questions blocked. -/
theorem revalidate_status (hne : status ≠ .blocked) (h : (revalidate disk q).status = status) :
    q.status = status := by
  unfold revalidate at h
  split at h
  · exact absurd h.symm hne
  · exact h

/-- What `validateEvidence` stores. -/
theorem step_validate : QuestionsStep disk call questions 0 (questions.map (revalidate disk)) := by
  have hevolves : Evolves disk questions (questions.map (revalidate disk)) :=
    evolves_map fun _ => transition_revalidate
  exact ⟨hevolves, fun hsound => hevolves.sound
    ((statusBefore_map fun q h => revalidate_status (by simp) h).single hsound) hsound,
    attempted_map revalidate_attempts, fun m _ => bounded_map revalidate_attempts,
    fun _ => hevolves.unsplit (by simp) (statusBefore_map fun q h => revalidate_status (by simp) h)⟩

/-- Two steps of one call that is careful whenever it is reached. -/
theorem QuestionsStep.trans {count count' : Nat}
    (h : QuestionsStep disk call old count mid) (h' : QuestionsStep disk call mid count' new)
    (hlength : mid.length = old.length ∧ new.length = mid.length)
    (hcareful : call.careful mid = true) : QuestionsStep disk call old (count + count') new where
  evolves := h.evolves.trans h'.evolves hlength.2 (fun i q hq hle => by
    have hlt := (List.getElem?_eq_some_iff.mp hq).1
    omega)
  sound := fun hsound => h'.sound (h.sound hsound)
  attempted := by rw [h'.attempted, h.attempted, Nat.add_assoc]
  bounded := fun m hm hbounded => h'.bounded m hm (h.bounded m hm hbounded)
  unsplit := fun hbefore hunsplit => h'.unsplit hcareful (h.unsplit hbefore hunsplit)

/-- A question that `next` looks at is one that was there, and none of them is active. -/
theorem prepareNext_some (h : (prepareNext limit questions)[i]? = some q') :
    ∃ q, questions[i]? = some q ∧ q' = exhaust limit (reopen q) ∧ q'.status ≠ .active ∧
      (q'.status = .decomposed → q.status = .decomposed) := by
  simp only [prepareNext, List.getElem?_map, Option.map_eq_some_iff] at h
  obtain ⟨mid, ⟨q, hq, rfl⟩, rfl⟩ := h
  have hreopen : (reopen q).status ≠ .active ∧
      ((reopen q).status = .decomposed → q.status = .decomposed) := by
    unfold reopen
    split
    · exact ⟨(by simp), (by simp)⟩
    · next h => exact ⟨h, fun h => h⟩
  refine ⟨q, hq, rfl, ?_⟩
  unfold exhaust
  split
  · exact ⟨(by simp), (by simp)⟩
  · exact hreopen

/-- What `next` does before it looks for a question. -/
theorem step_prepare : QuestionsStep disk call questions 0 (prepareNext limit questions) := by
  have hevolves : Evolves disk questions (prepareNext limit questions) := by
    unfold prepareNext
    rw [List.map_map]
    exact evolves_map fun _ => transition_reopen.trans transition_exhaust
  refine ⟨hevolves, fun hsound => hevolves.sound ?_ hsound, ?_, ?_, fun _ => ?_⟩
  · intro i j q p hq _ hactive _
    obtain ⟨_, _, _, hnone, _⟩ := prepareNext_some hq
    exact absurd hactive hnone
  · unfold prepareNext
    rw [attempted_map exhaust_attempts, attempted_map reopen_attempts]
    rfl
  · intro m _ hbounded
    exact bounded_map exhaust_attempts (bounded_map reopen_attempts hbounded)
  · refine hevolves.unsplit (by simp [prepareNext]) fun i q' hq' hsplit => ?_
    obtain ⟨q, hq, _, _, hbefore⟩ := prepareNext_some hq'
    exact ⟨q, hq, hbefore hsplit⟩

/-- A question that is ready is open, and has an attempt left. -/
theorem ready_open (h : (prepareNext limit questions)[i]? = some q)
    (hready : q.ready (prepareNext limit questions) = true) :
    q.isOpen = true ∧ limit.reached q.attempts = false := by
  simp only [Question.ready, Bool.and_eq_true] at hready
  refine ⟨hready.1, ?_⟩
  obtain ⟨p, _, rfl, _⟩ := prepareNext_some h
  by_contra hspent
  have hopen := hready.1
  unfold exhaust at hopen hspent
  split at hopen
  · cases hopen
  · next hleft =>
      rw [if_neg hleft] at hspent
      exact hleft ⟨hopen, by simpa using hspent⟩

/-- `next` activates the first question that is ready. -/
theorem step_activate (hready : (prepareNext limit questions).findIdx?
      (Question.ready (prepareNext limit questions)) = some i) :
    QuestionsStep disk (.next limit) (prepareNext limit questions) 1
      ((prepareNext limit questions).modify i activate) := by
  rw [List.findIdx?_eq_some_iff_getElem] at hready
  obtain ⟨hlt, hready, _⟩ := hready
  have hat : (prepareNext limit questions)[i]? = some (prepareNext limit questions)[i] :=
    List.getElem?_eq_getElem hlt
  obtain ⟨hopen, hleft⟩ := ready_open hat hready
  have hq : ∀ p, (prepareNext limit questions)[i]? = some p →
      p = (prepareNext limit questions)[i] := by
    intro p hp
    rw [hat] at hp
    exact (Option.some.inj hp).symm
  have hevolves : Evolves disk (prepareNext limit questions)
      ((prepareNext limit questions).modify i activate) :=
    evolves_modify fun p hp => by rw [hq p hp]; exact transition_activate hopen
  -- nothing else is active
  have hothers : ∀ (j : Nat) p, ((prepareNext limit questions).modify i activate)[j]? = some p →
      p.status = .active → j = i := by
    intro j p hp hactive
    rw [List.getElem?_modify, Option.map_eq_map, Option.map_eq_some_iff] at hp
    obtain ⟨p', hp', hchanged⟩ := hp
    by_contra hne
    rw [if_neg (Ne.symm hne)] at hchanged
    obtain ⟨_, _, _, hnone, _⟩ := prepareNext_some hp'
    rw [hchanged] at hnone
    exact hnone hactive
  refine ⟨hevolves, fun hsound => hevolves.sound ?_ hsound, attempted_modify hat rfl, ?_, fun _ => ?_⟩
  · intro j j' q p hq hp hqa hpa
    rw [hothers j q hq hqa, hothers j' p hp hpa]
  · intro m hm hbounded
    apply bounded_modify _ hbounded
    intro p hp _
    rw [hq p hp]
    by_contra hmore
    have hstops := hm limit rfl (prepareNext limit questions)[i].attempts
      (Nat.le_of_lt_succ (Nat.lt_of_not_le hmore))
    rw [hleft] at hstops
    cases hstops
  · exact hevolves.unsplit (by simp) (statusBefore_modify fun p hp hpa => by cases hpa)

end Agent
