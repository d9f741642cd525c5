import IndagoRev.Models.InvestigationObserve

/-!
# What the guard and the counters say about a run

In a run the guard is asked about every decision, and its feedback is observed in a later
generation than the one before.  As long as there is storage for every record, the guard
refuses a query exactly when its last two observations were no news, and the counters and
records follow from the steps of the run.  Without storage for a record, an observation
fails with the counters changed, and the generation has no record ever after.

Main results: `Run.counted`, `progress_guard` and `exhausted_observation_counted`.
-/

namespace Indago.Investigation

open StdText JsonValues JsonValues.Json StaticIndex List

/-- A decision with its feedback. -/
structure ProgressStep where
  decision : InvestigationDecision
  feedback : InvestigationFeedback
  generation : Int
  nativeFingerprint : Text
  /-- The answer of the guard. -/
  accepted : Bool

section Runs

variable (sha256 : Text → Text)

/-- The state and the result of observing a step. -/
def observeStep (s : InvestigationState) (step : ProgressStep) : InvestigationState × Access Unit :=
  investigationObserve sha256 s step.decision step.feedback step.generation step.nativeFingerprint

/-- Whether a step is news where it stands. -/
def stepNews (s : InvestigationState) (step : ProgressStep) : Bool :=
  isNovel sha256 s step.decision step.feedback step.nativeFingerprint

/-- The record of a step fits into the storage, once the step is accounted for. -/
def HasStorage (s : InvestigationState) (step : ProgressStep) : Prop :=
  step.decision.isPlanning = true ∨ (s.observations.length < 4096 ∧
    (accounted sha256 s step.decision step.feedback step.generation step.nativeFingerprint).size +
      utf8Length (observationRecord sha256 step.decision step.feedback step.generation
        (stepNews sha256 s step || step.feedback.contradicted)).dump ≤ stateBytes)

/-- The steps of a run, and the state after them.  Generations increase, and there is
storage for every record. -/
inductive Run : List ProgressStep → InvestigationState → Prop
  | start : Run [] investigationState
  | step {steps : List ProgressStep} {s : InvestigationState} (h : Run steps s)
      (step : ProgressStep) (hlater : s.lastGeneration < step.generation)
      (hint : step.generation < 2147483648)
      (hguard : step.accepted = true ↔ investigationGuard sha256 s step.decision = .ok ())
      (hstored : HasStorage sha256 s step) : Run (steps ++ [step]) (observeStep sha256 s step).1

variable (key : Text)

/-- A step is a query with a key. -/
def ProgressStep.about (step : ProgressStep) : Bool :=
  step.decision.isQuery && investigationQueryKey sha256 step.decision = key

def ProgressStep.fingerprint (step : ProgressStep) : Text :=
  fingerprintOf sha256 step.feedback step.nativeFingerprint

def ProgressStep.usable (step : ProgressStep) : Bool := step.feedback.usable step.nativeFingerprint

variable (steps : List ProgressStep)

/-- The fingerprints that usable feedback on a key has had. -/
def usableFingerprints : List Text :=
  (steps.filter (fun e => e.about sha256 key && e.usable)).map (ProgressStep.fingerprint sha256)

/-- A query with usable feedback, of a fingerprint that its key has not had. -/
def isNews (earlier : List ProgressStep) (step : ProgressStep) : Bool :=
  step.decision.isQuery && step.usable &&
    !(usableFingerprints sha256 (investigationQueryKey sha256 step.decision) earlier).contains
      (step.fingerprint sha256)

/-- What is read off every step of a run and the steps before it. -/
def readSteps (read : List ProgressStep → ProgressStep → List Bool) :
    List ProgressStep → List ProgressStep → List Bool
  | _, [] => []
  | earlier, step :: rest => read earlier step ++ readSteps read (earlier ++ [step]) rest

/-- Which observations with a key were news. -/
def queryNews : List Bool :=
  readSteps (fun earlier step => if step.about sha256 key then [isNews sha256 earlier step] else [])
    [] steps

/-- Which observations were news or contradictions. -/
def stepsWithNews : List Bool :=
  readSteps (fun earlier step => [isNews sha256 earlier step || step.feedback.contradicted]) [] steps

variable (l : List Bool)

/-- How many entries at the end are false. -/
def falseTail : Nat := (l.reverse.takeWhile (fun b => !b)).length

/-- The law of the guard and of the counters after the steps of a run. -/
structure ProgressLaw (steps : List ProgressStep) (s : InvestigationState) : Prop where
  refuses : ∀ d : InvestigationDecision, (investigationGuard sha256 s d ≠ .ok () ↔
    d.isQuery = true ∧
      ∃ before, queryNews sha256 (investigationQueryKey sha256 d) steps = before ++ [false, false])
  executions : ∀ key, steps.countP (fun e => e.about sha256 key && e.accepted) ≤
    2 + 3 * (usableFingerprints sha256 key steps).dedup.length
  idle : s.idleSteps = falseTail (stepsWithNews sha256 steps)
  records : s.observations.map (fun record => record.get? "generation") =
    (steps.filter (fun e => !e.decision.isPlanning)).map (fun e => some (.int e.generation))
  generations : (steps.map ProgressStep.generation).Pairwise (· < ·)

section Observation

variable {sha256} {s : InvestigationState} {step : ProgressStep}

theorem accounted_fields (sha256 : Text → Text) (s : InvestigationState) (step : ProgressStep) :
    let counted := accounted sha256 s step.decision step.feedback step.generation
      step.nativeFingerprint
    counted.lastGeneration = step.generation ∧ counted.observations = s.observations ∧
      counted.idleSteps = (if stepNews sha256 s step || step.feedback.contradicted then 0
        else countUp s.idleSteps) := by
  intro counted
  unfold counted accounted countQuery reopenRows stepNews
  refine ⟨?_, ?_, ?_⟩
  · split <;> split <;> rfl
  · split <;> split <;> rfl
  by_cases hc : step.feedback.contradicted = true
  · simp [hc]
  rw [Bool.not_eq_true] at hc
  by_cases hq : step.decision.isQuery = true
  · simp [hc, hq]
  · simp [hc, hq]

/-- The count of a key, and its fingerprints, after an accounted step. -/
theorem accounted_query (sha256 : Text → Text) (s : InvestigationState) (step : ProgressStep) (key : Text) :
    let counted := accounted sha256 s step.decision step.feedback step.generation
      step.nativeFingerprint
    counted.queryCount key = (if step.about sha256 key then
        if stepNews sha256 s step then 0 else s.queryCount key + 1 else s.queryCount key) ∧
      counted.seenOf key = (if step.about sha256 key && stepNews sha256 s step then
        s.seenOf key ++ [step.fingerprint sha256] else s.seenOf key) := by
  intro counted
  have hcounts : counted.queryCounts = (countQuery sha256 s step.decision step.feedback
        step.nativeFingerprint).queryCounts ∧
      counted.seen = (countQuery sha256 s step.decision step.feedback
        step.nativeFingerprint).seen := by
    unfold counted accounted countQuery reopenRows
    dsimp only
    refine ⟨?_, ?_⟩
    · split <;> split <;> rfl
    · split <;> split <;> rfl
  unfold InvestigationState.queryCount InvestigationState.seenOf
  rw [hcounts.1, hcounts.2]
  unfold ProgressStep.about countQuery stepNews
  by_cases hquery : step.decision.isQuery = true
  · rw [if_pos hquery]
    dsimp only
    rw [lookup_setKey, lookup_setKey]
    by_cases hkey : investigationQueryKey sha256 step.decision = key
    · subst hkey
      simp only [hquery, if_true, Option.getD_some, decide_true, Bool.and_self, Bool.true_and]
      unfold InvestigationState.seenOf InvestigationState.queryCount
      refine ⟨rfl, ?_⟩
      split
      · rfl
      · rw [append_nil]
    · have hother : ¬ key = investigationQueryKey sha256 step.decision := fun h => hkey h.symm
      simp only [hother, hkey, if_false, decide_false, Bool.and_false, Bool.false_and,
        Bool.false_eq_true]
      exact ⟨trivial, trivial⟩
  · rw [if_neg hquery]
    rw [Bool.not_eq_true] at hquery
    simp only [hquery, Bool.false_and, Bool.false_eq_true, if_false]
    exact ⟨trivial, trivial⟩

theorem addRecord_ok {record : Json} (hcount : s.observations.length < 4096)
    (hsize : s.size + utf8Length record.dump ≤ stateBytes) :
    addRecord s record = .ok { s with observations := s.observations ++ [record] } := by
  unfold addRecord
  rw [if_neg (by omega), if_neg (by omega)]

theorem addRecord_error {record : Json} (h : ¬ (s.observations.length < 4096 ∧
    s.size + utf8Length record.dump ≤ stateBytes)) : ∃ e, addRecord s record = .error e := by
  unfold addRecord
  by_cases hcount : 4096 ≤ s.observations.length
  · exact ⟨_, if_pos hcount⟩
  · rw [if_neg hcount]
    exact ⟨_, if_pos (by omega)⟩

/-- The record of a step, and the revision after it. -/
def stepRecord (sha256 : Text → Text) (s : InvestigationState) (step : ProgressStep) : Json :=
  observationRecord sha256 step.decision step.feedback step.generation
    (stepNews sha256 s step || step.feedback.contradicted)

/-- With storage, a step is counted and its record added. -/
theorem observe_stored (hgeneration : s.lastGeneration ≠ step.generation)
    (hstored : HasStorage sha256 s step) :
    observeStep sha256 s step = ({ accounted sha256 s step.decision step.feedback step.generation
        step.nativeFingerprint with
      observations := if step.decision.isPlanning then s.observations
        else s.observations ++ [stepRecord sha256 s step]
      revision := if step.feedback.contradicted then countUp s.revision else s.revision }, .ok ()) := by
  have hobservations := (accounted_fields sha256 s step).2.1
  have hrevision : (accounted sha256 s step.decision step.feedback step.generation
      step.nativeFingerprint).revision = s.revision := by
    unfold accounted countQuery reopenRows
    dsimp only
    split <;> split <;> rfl
  unfold observeStep investigationObserve
  rw [if_neg hgeneration]
  dsimp only
  by_cases hplanning : step.decision.isPlanning = true
  · rw [if_pos hplanning, if_pos hplanning]
    dsimp only
    rw [hrevision, ← hobservations]
  obtain ⟨hcount, hsize⟩ := hstored.resolve_left hplanning
  rw [← hobservations] at hcount
  rw [if_neg hplanning, if_neg hplanning]
  have hadded := addRecord_ok hcount hsize
  unfold stepNews at hadded
  rw [hadded]
  dsimp only
  rw [hrevision, hobservations]
  rfl

/-- An observation without storage fails, with the step accounted for.  When it is repeated,
nothing is recorded. -/
theorem observe_exhausted (hgeneration : s.lastGeneration ≠ step.generation)
    (hstored : ¬ HasStorage sha256 s step) :
    (∃ e, observeStep sha256 s step = (accounted sha256 s step.decision step.feedback
        step.generation step.nativeFingerprint, .error e)) ∧
      observeStep sha256 (observeStep sha256 s step).1 step =
        ((observeStep sha256 s step).1, .ok ()) := by
  have hobservations := (accounted_fields sha256 s step).2.1
  have hlast := (accounted_fields sha256 s step).1
  unfold HasStorage at hstored
  rw [not_or, ← hobservations] at hstored
  obtain ⟨e, he⟩ := addRecord_error hstored.2
  have hfails : observeStep sha256 s step = (accounted sha256 s step.decision step.feedback
      step.generation step.nativeFingerprint, .error e) := by
    unfold observeStep investigationObserve
    unfold stepNews at he
    rw [if_neg hgeneration]
    dsimp only
    rw [if_neg hstored.1, he]
  refine ⟨⟨e, hfails⟩, ?_⟩
  rw [hfails]
  unfold observeStep investigationObserve
  rw [if_pos hlast]

end Observation

theorem falseTail_snoc (b : Bool) : falseTail (l ++ [b]) = if b then 0 else falseTail l + 1 := by
  unfold falseTail
  rw [reverse_append, reverse_singleton, singleton_append]
  cases b with
  | true => rfl
  | false => rfl

theorem falseTail_le : falseTail l ≤ l.length := by
  unfold falseTail
  have hle := (List.takeWhile_prefix (fun b => !b) (l := l.reverse)).length_le
  rw [length_reverse] at hle
  exact hle

/-- Two steps without news stand at the end of the list. -/
theorem two_le_falseTail : 2 ≤ falseTail l ↔ ∃ before, l = before ++ [false, false] := by
  constructor
  · intro h
    induction l using List.reverseRecOn with
    | nil => exact absurd h (by decide)
    | append_singleton l b _ =>
      rw [falseTail_snoc] at h
      cases b with
      | true =>
        rw [if_pos rfl] at h
        omega
      | false =>
        induction l using List.reverseRecOn with
        | nil => exact absurd h (by decide)
        | append_singleton l b _ =>
          rw [falseTail_snoc] at h
          cases b with
          | true =>
            rw [if_neg Bool.false_ne_true, if_pos rfl] at h
            omega
          | false => exact ⟨l, by rw [append_assoc]; rfl⟩
  · rintro ⟨before, rfl⟩
    have hsplit : before ++ [false, false] = (before ++ [false]) ++ [false] := by
      rw [append_assoc]
      rfl
    rw [hsplit, falseTail_snoc, falseTail_snoc, if_neg (by decide), if_neg (by decide)]
    omega

theorem readSteps_snoc (read : List ProgressStep → ProgressStep → List Bool)
    (earlier steps : List ProgressStep) (step : ProgressStep) :
    readSteps read earlier (steps ++ [step]) =
      readSteps read earlier steps ++ read (earlier ++ steps) step := by
  induction steps generalizing earlier with
  | nil => simp [readSteps]
  | cons first rest ih =>
    rw [cons_append, readSteps, ih, readSteps, append_assoc, append_assoc,
      singleton_append]

theorem stepsWithNews_length : (stepsWithNews sha256 steps).length = steps.length := by
  induction steps using List.reverseRecOn with
  | nil => rfl
  | append_singleton steps step ih =>
    unfold stepsWithNews at ih ⊢
    rw [readSteps_snoc, length_append, length_append, ih]
    rfl

/-- What the counters of the state say about the steps of a run. -/
structure Counted (steps : List ProgressStep) (s : InvestigationState) : Prop where
  started : -1 ≤ s.lastGeneration
  length : (steps.length : Int) ≤ s.lastGeneration + 1
  ended : s.lastGeneration < 2147483648
  earlier : ∀ e ∈ steps, e.generation ≤ s.lastGeneration
  increasing : (steps.map ProgressStep.generation).Pairwise (· < ·)
  counts : ∀ key, s.queryCount key = falseTail (queryNews sha256 key steps)
  distinct : ∀ key, (s.seenOf key).Nodup
  seen : ∀ key fingerprint, fingerprint ∈ s.seenOf key ↔
    fingerprint ∈ usableFingerprints sha256 key steps
  accepted : ∀ key, steps.countP (fun e => e.about sha256 key && e.accepted) ≤
    3 * (s.seenOf key).length + min 2 (s.queryCount key)
  idle : s.idleSteps = falseTail (stepsWithNews sha256 steps)
  records : s.observations.map (fun record => record.get? "generation") =
    (steps.filter (fun e => !e.decision.isPlanning)).map (fun e => some (.int e.generation))

variable {sha256} {s : InvestigationState} {steps : List ProgressStep}

theorem Counted.stepNews (h : Counted sha256 steps s) (step : ProgressStep) :
    stepNews sha256 s step = isNews sha256 steps step := by
  unfold Investigation.stepNews isNovel isNews ProgressStep.usable ProgressStep.fingerprint
  congr 2
  rw [Bool.eq_iff_iff, contains_iff_mem, contains_iff_mem]
  exact h.seen _ _

theorem usableFingerprints_snoc (step : ProgressStep) :
    usableFingerprints sha256 key (steps ++ [step]) = usableFingerprints sha256 key steps ++
      if step.about sha256 key && step.usable then [step.fingerprint sha256] else [] := by
  unfold usableFingerprints
  rw [filter_append, map_append, filter_singleton]
  cases step.about sha256 key && step.usable with
  | true => rfl
  | false => rfl

theorem stepRecord_generation (s : InvestigationState) (step : ProgressStep) :
    (stepRecord sha256 s step).get? "generation" = some (.int step.generation) := by
  have hcopied : ∀ e ∈ copiedKeys.filterMap
      (fun key => (step.feedback.json.get? key).map (fun v => (key, v))),
        e.1 ≠ "generation" := by
    intro e he
    obtain ⟨key, hkey, he⟩ := mem_filterMap.mp he
    obtain ⟨v, _, rfl⟩ := Option.map_eq_some_iff.mp he
    have hall : ∀ key ∈ copiedKeys, key ≠ "generation" := by decide
    exact hall key hkey
  unfold stepRecord observationRecord recordFields
  dsimp only
  split
  · rw [filter_append, append_assoc, get?_object_append]
    · rfl
    intro e he
    rcases mem_append.mp he with he | he
    · exact hcopied e (mem_of_mem_filter he)
    · rw [mem_singleton.mp he]
      decide
  · rw [get?_object_append _ _ hcopied]
    rfl

/-- The guard accepts a query whose key is counted less than twice. -/
theorem accepted_iff (s : InvestigationState) (d : InvestigationDecision) (key : Text)
    (hquery : d.isQuery = true) (hkey : investigationQueryKey sha256 d = key) :
    investigationGuard sha256 s d = .ok () ↔ s.queryCount key < 2 := by
  unfold investigationGuard
  rw [hquery, hkey, Bool.true_and]
  by_cases hcount : 2 ≤ s.queryCount key
  · rw [if_pos (decide_eq_true hcount)]
    refine ⟨fun h => ?_, fun h => absurd h (by omega)⟩
    cases h
  · rw [if_neg (fun h => hcount (of_decide_eq_true h))]
    exact ⟨fun _ => by omega, fun _ => rfl⟩

/-- One more step is counted as the history of the run says. -/
theorem Counted.step {steps : List ProgressStep} {s : InvestigationState}
    (h : Counted sha256 steps s) (step : ProgressStep)
    (hlater : s.lastGeneration < step.generation) (hint : step.generation < 2147483648)
    (hguard : step.accepted = true ↔ investigationGuard sha256 s step.decision = .ok ())
    (hstored : HasStorage sha256 s step) :
    Counted sha256 (steps ++ [step]) (observeStep sha256 s step).1 := by
  have hobserve := observe_stored (by omega) hstored
  have hfields := accounted_fields sha256 s step
  have hquery := accounted_query sha256 s step
  have hnews := h.stepNews step
  rw [hnews] at hfields hquery
  have hcounts : ∀ key, (observeStep sha256 s step).1.queryCount key =
      falseTail (queryNews sha256 key (steps ++ [step])) := by
    intro key
    rw [hobserve]
    refine (hquery key).1.trans ?_
    unfold queryNews
    rw [readSteps_snoc, nil_append]
    by_cases habout : step.about sha256 key = true
    · rw [if_pos habout, if_pos habout, falseTail_snoc, h.counts]
      rfl
    · rw [if_neg habout, if_neg habout, append_nil, h.counts]
      rfl
  have hseen : ∀ key, (observeStep sha256 s step).1.seenOf key =
      if step.about sha256 key && isNews sha256 steps step then
        s.seenOf key ++ [step.fingerprint sha256] else s.seenOf key := by
    intro key
    rw [hobserve]
    exact (hquery key).2
  have hnewsIff : ∀ key, step.about sha256 key = true → (isNews sha256 steps step = true ↔
      step.usable = true ∧ step.fingerprint sha256 ∉ s.seenOf key) := by
    intro key habout
    unfold ProgressStep.about at habout
    rw [Bool.and_eq_true, decide_eq_true_iff] at habout
    obtain ⟨hquery, rfl⟩ := habout
    unfold isNews
    rw [hquery, Bool.true_and, Bool.and_eq_true, Bool.not_eq_true', ← Bool.not_eq_true,
      contains_iff_mem, h.seen]
  have hcount : ∀ key, (observeStep sha256 s step).1.queryCount key =
      if step.about sha256 key then if isNews sha256 steps step then 0 else s.queryCount key + 1
        else s.queryCount key := by
    intro key
    rw [hobserve]
    exact (hquery key).1
  have hlast : (observeStep sha256 s step).1.lastGeneration = step.generation := by
    rw [hobserve]
    exact hfields.1
  have hstarted := h.started
  have hlength := h.length
  constructor
  · omega
  · rw [length_append, length_singleton]
    omega
  · omega
  · intro e he
    rw [hlast]
    rcases mem_append.mp he with he | he
    · exact Int.le_of_lt (Int.lt_of_le_of_lt (h.earlier e he) hlater)
    · have hsame := mem_singleton.mp he
      subst hsame
      exact Int.le_refl _
  · rw [map_append, map_singleton, pairwise_append]
    refine ⟨h.increasing, pairwise_singleton _ _, ?_⟩
    intro g hg g' hg'
    obtain ⟨e, he, rfl⟩ := mem_map.mp hg
    rw [mem_singleton.mp hg']
    exact Int.lt_of_le_of_lt (h.earlier e he) hlater
  · exact hcounts
  · intro key
    rw [hseen]
    split
    · next hboth =>
        obtain ⟨habout, hnovel⟩ := (Bool.and_eq_true _ _).mp hboth
        refine nodup_append.mpr ⟨h.distinct key, nodup_singleton _, ?_⟩
        intro f hf f' hf' heq
        rw [mem_singleton.mp hf'] at heq
        exact ((hnewsIff key habout).mp hnovel).2 (heq ▸ hf)
    · exact h.distinct key
  · intro key fingerprint
    rw [hseen, usableFingerprints_snoc, mem_append]
    by_cases habout : step.about sha256 key = true
    · rw [habout, Bool.true_and, Bool.true_and]
      by_cases hnovel : isNews sha256 steps step = true
      · rw [if_pos hnovel, if_pos ((hnewsIff key habout).mp hnovel).1, mem_append, h.seen]
      rw [if_neg hnovel, h.seen]
      constructor
      · exact Or.inl
      rintro (hold | hnew)
      · exact hold
      split at hnew
      · next husable =>
          rw [mem_singleton.mp hnew, ← h.seen]
          by_contra habsent
          exact hnovel ((hnewsIff key habout).mpr ⟨husable, habsent⟩)
      · cases hnew
    · rw [Bool.not_eq_true] at habout
      rw [habout, Bool.false_and, Bool.false_and, if_neg Bool.false_ne_true,
        if_neg Bool.false_ne_true, h.seen]
      exact ⟨Or.inl, fun hor => hor.resolve_right not_mem_nil⟩
  · intro key
    rw [countP_append, countP_singleton, hseen, hcount]
    have haccepted := h.accepted key
    by_cases habout : step.about sha256 key = true
    · rw [if_pos habout, habout, Bool.true_and, Bool.true_and]
      have hallowed : step.accepted = true → s.queryCount key < 2 := by
        intro hyes
        unfold ProgressStep.about at habout
        rw [Bool.and_eq_true, decide_eq_true_iff] at habout
        exact (accepted_iff s step.decision key habout.1 habout.2).mp (hguard.mp hyes)
      by_cases hnovel : isNews sha256 steps step = true
      · rw [if_pos hnovel, if_pos hnovel, length_append, length_singleton]
        split
        · next hyes =>
            have hless := hallowed hyes
            omega
        · omega
      · rw [if_neg hnovel, if_neg hnovel]
        split
        · next hyes =>
            have hless := hallowed hyes
            omega
        · omega
    · rw [Bool.not_eq_true] at habout
      rw [habout, Bool.false_and, Bool.false_and, if_neg Bool.false_ne_true,
        if_neg Bool.false_ne_true, if_neg Bool.false_ne_true]
      omega
  · unfold stepsWithNews
    rw [readSteps_snoc, nil_append, falseTail_snoc, hobserve]
    refine hfields.2.2.trans ?_
    split
    · rfl
    rw [h.idle]
    unfold countUp
    have hbound := falseTail_le (stepsWithNews sha256 steps)
    have hlength := h.length
    have hsame : (stepsWithNews sha256 steps).length = steps.length := stepsWithNews_length _ steps
    have hended := h.ended
    exact Nat.mod_eq_of_lt (by omega)
  · rw [hobserve, filter_append, map_append, ← h.records]
    show ((if step.decision.isPlanning then s.observations
      else s.observations ++ [stepRecord sha256 s step]).map
        (fun record => record.get? "generation")) = _
    cases hplanning : step.decision.isPlanning with
    | true =>
      have hleft : [step].filter (fun e => !e.decision.isPlanning) = [] :=
        filter_cons_of_neg (by rw [hplanning]; decide)
      rw [hleft, if_pos rfl]
      exact (append_nil _).symm
    | false =>
      have hkept : [step].filter (fun e => !e.decision.isPlanning) = [step] :=
        filter_cons_of_pos (by rw [hplanning]; rfl)
      rw [hkept, if_neg Bool.false_ne_true, map_append, map_singleton,
        map_singleton, stepRecord_generation]

theorem Counted.start : Counted sha256 [] investigationState where
  started := Int.le_refl _
  length := Int.le_refl _
  ended := by decide
  earlier := fun _ he => absurd he not_mem_nil
  increasing := List.Pairwise.nil
  counts := fun _ => rfl
  distinct := fun _ => nodup_nil
  seen := fun _ _ => Iff.rfl
  accepted := fun _ => Nat.zero_le _
  idle := rfl
  records := rfl

/-- In every run the counters follow from the steps. -/
theorem Run.counted (h : Run sha256 steps s) : Counted sha256 steps s := by
  induction h with
  | start => exact Counted.start
  | step _ step hlater hint hguard hstored ih => exact ih.step step hlater hint hguard hstored

theorem Counted.law (h : Counted sha256 steps s) : ProgressLaw sha256 steps s where
  refuses := by
    intro d
    rw [← two_le_falseTail, ← h.counts]
    constructor
    · intro hrefused
      have hquery : d.isQuery = true := by
        by_contra hother
        rw [Bool.not_eq_true] at hother
        unfold investigationGuard at hrefused
        rw [hother, Bool.false_and] at hrefused
        exact hrefused rfl
      refine ⟨hquery, ?_⟩
      by_contra hfew
      exact hrefused ((accepted_iff s d _ hquery rfl).mpr (by omega))
    · rintro ⟨hquery, hmany⟩ hok
      have hfew := (accepted_iff s d _ hquery rfl).mp hok
      omega
  executions := by
    intro key
    have hsame : (s.seenOf key).length ≤ (usableFingerprints sha256 key steps).dedup.length := by
      refine (List.Nodup.subperm (h.distinct key) ?_).length_le
      intro fingerprint hf
      exact mem_dedup.mpr ((h.seen key fingerprint).mp hf)
    have haccepted := h.accepted key
    omega
  idle := h.idle
  records := h.records
  generations := h.increasing

/-- An observation that fails leaves the state unchanged only where it does not fail: without
storage the step is accounted for. -/
theorem observe_unchanged_iff {step : ProgressStep} (hlater : s.lastGeneration < step.generation) :
    ((∃ e, (observeStep sha256 s step).2 = .error e) → (observeStep sha256 s step).1 = s) ↔
      HasStorage sha256 s step := by
  have hgeneration : s.lastGeneration ≠ step.generation := by omega
  constructor
  · intro hkeeps
    by_contra hstored
    obtain ⟨e, hfails⟩ := (observe_exhausted hgeneration hstored).1
    have hsame := hkeeps ⟨e, by rw [hfails]⟩
    rw [hfails] at hsame
    dsimp only at hsame
    have hlast := (accounted_fields sha256 s step).1
    rw [hsame] at hlast
    exact hgeneration hlast
  · rintro hstored ⟨e, hfails⟩
    rw [observe_stored hgeneration hstored] at hfails
    cases hfails

variable (sha256)

/-- In every state of a run with storage the guard and the counters keep to their law.  Without
storage for a record the observation fails with the state changed, and its repetition succeeds
without a record. -/
theorem progress_guard :
    (∀ {steps : List ProgressStep} {s : InvestigationState}, Run sha256 steps s →
      ProgressLaw sha256 steps s) ∧
    ∀ (s : InvestigationState) (step : ProgressStep), s.lastGeneration < step.generation →
      (((∃ e, (observeStep sha256 s step).2 = .error e) → (observeStep sha256 s step).1 = s) ↔
        HasStorage sha256 s step) ∧
      (¬ HasStorage sha256 s step → observeStep sha256 (observeStep sha256 s step).1 step =
        ((observeStep sha256 s step).1, .ok ())) := by
  refine ⟨fun h => h.counted.law, fun s step hlater => ⟨observe_unchanged_iff hlater, ?_⟩⟩
  intro hstored
  exact (observe_exhausted (by omega) hstored).2

end Runs

/-- A query for one piece of evidence. -/
def evidenceStep (generation : Int) (accepted : Bool) : ProgressStep where
  decision := ⟨"retrieve", .str "E1"⟩
  feedback :=
    { json := .obj [("id", .str "E1"), ("source_verified", .bool true)]
      object := rfl
      flags := by
        intro key hkey v hv
        rcases mem_cons.mp hkey with rfl | hkey
        · cases hv
        · rw [mem_singleton.mp hkey] at hv
          exact ⟨true, (Option.some.inj hv).symm⟩
      texts := fun v hv => nomatch hv }
  generation
  nativeFingerprint := []
  accepted

/-- A query is news once.  It is carried out two more times, and then it is refused. -/
def repeatedQuery : List ProgressStep :=
  [evidenceStep 0 true, evidenceStep 1 true, evidenceStep 2 true, evidenceStep 3 false]

def stateAfter (steps : List ProgressStep) : InvestigationState :=
  steps.foldl (fun s step => (observeStep (fun t => t) s step).1) investigationState

instance (s : InvestigationState) (step : ProgressStep) : Decidable (HasStorage (fun t => t) s step) :=
  inferInstanceAs (Decidable (_ ∨ _))

theorem run_stateAfter {steps : List ProgressStep} (step : ProgressStep)
    (h : Run (fun t => t) steps (stateAfter steps))
    (hnext : (stateAfter steps).lastGeneration < step.generation ∧ step.generation < 2147483648 ∧
      (step.accepted = true ↔
        investigationGuard (fun t => t) (stateAfter steps) step.decision = .ok ()) ∧
      HasStorage (fun t => t) (stateAfter steps) step) :
    Run (fun t => t) (steps ++ [step]) (stateAfter (steps ++ [step])) := by
  obtain ⟨hlater, hint, hguard, hstored⟩ := hnext
  have hstep := Run.step h step hlater hint hguard hstored
  unfold stateAfter at hstep ⊢
  rwa [foldl_append]

/-- A query is asked with news, twice without, and refused. -/
theorem progress_guard_state :
    ProgressLaw (fun t => t) repeatedQuery (stateAfter repeatedQuery) := by
  have hfirst := run_stateAfter (evidenceStep 0 true) .start (by decide +kernel)
  have hsecond := run_stateAfter (evidenceStep 1 true) hfirst (by decide +kernel)
  have hthird := run_stateAfter (evidenceStep 2 true) hsecond (by decide +kernel)
  have hrefused := run_stateAfter (evidenceStep 3 false) hthird (by decide +kernel)
  exact (progress_guard (fun t => t)).1 hrefused

/-- A query that ends with a text for an error. -/
def errorStep (t : Text) : ProgressStep where
  decision := ⟨"retrieve".toList, .null⟩
  feedback :=
    { json := .obj [("error".toList, .str t)]
      object := rfl
      flags := by
        intro key hkey v hv
        have hother : ∀ key ∈ ["omitted".toList, "source_verified".toList],
            (key == "error".toList) = false := by decide
        have hfind : [("error".toList, Json.str t)].lookup key = some v := hv
        rw [lookup_cons, hother key hkey] at hfind
        cases hfind
      texts := fun v hv => nomatch hv }
  generation := 0
  nativeFingerprint := []
  accepted := true

theorem errorStep_record (s : InvestigationState) (t : Text) :
    t.length ≤ utf8Length (stepRecord (fun t => t) s (errorStep t)).dump := by
  have hstored : ∀ fields : List (Text × Json),
      (object fields).get? "error" = some (.str t) →
        t.length ≤ utf8Length (object fields).dump := by
    intro fields hget
    unfold object at hget ⊢
    obtain ⟨before, after, hsplit, _⟩ := lookup_eq_some_iff.mp hget
    have hsize := (dumpFields_size (fields.foldl
      (fun rest f => insertField f.1 f.2 rest) [])).1
    have hquoted := (quoted_size t).1
    rw [dump_obj]
    rw [hsplit] at hsize ⊢
    rw [map_append, map_cons, sum_append, sum_cons, dump_str] at hsize
    omega
  unfold stepRecord observationRecord
  dsimp only
  split
  · refine hstored _ ?_
    rw [get?_object]
    rfl
  · refine hstored _ ?_
    rw [get?_object]
    rfl

/-- A failed observation has changed the state. -/
theorem exhausted_observation_counted :
    ¬ ∀ {steps : List ProgressStep} {s : InvestigationState}, Run (fun t => t) steps s →
      ∀ step : ProgressStep, s.lastGeneration < step.generation →
        (∃ e, (observeStep (fun t => t) s step).2 = .error e) →
          (observeStep (fun t => t) s step).1 = s := by
  intro h
  have hlarge : ∃ t : Text, stateBytes < t.length :=
    ⟨List.replicate (stateBytes + 1) 'a', by rw [length_replicate]; omega⟩
  obtain ⟨t, ht⟩ := hlarge
  have hless : investigationState.lastGeneration < (errorStep t).generation := by
    show (-1 : Int) < 0
    decide
  have hkeeps := h Run.start (errorStep t) hless
  rcases (observe_unchanged_iff hless).mp hkeeps with
    hplanning | ⟨_, hsize⟩
  · exact absurd (show false = true from hplanning) (by decide)
  · have hrecord := errorStep_record investigationState t
    unfold stepRecord at hrecord
    omega

end Indago.Investigation
