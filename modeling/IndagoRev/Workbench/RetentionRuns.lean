import IndagoRev.Workbench.RetentionSafety

/-!
# Runs of a workspace

Any operations may be interleaved with retention runs, and may fail or be killed
anywhere. No object leaves the store while a row refers to it, every published hash
keeps its object, and a quarantine holds the files of the plan that was presented.

Main result: `retention_keeps_references`.
-/

namespace Indago.Storage

open StdText Transactions Interleaving JsonValues

section Retention

variable {env : StorageEnv} {first : Workspace} {n : Nat} {s : Workspace}

/-- The process has made no directory and given no answer. -/
def Fresh (n : Nat) (s : Workspace) : Prop :=
  s.quarantine.filter (fun q => q.id = n) = [] ∧ s.answers.filter (fun a => a.id = n) = []

/-- The process holds the lease alone over these rows and made these directories. -/
structure Holding (n : Nat) (core : Database CoreTable) (runtime : Option (Database RuntimeTable))
    (directories : List QuarantineDirectory) (s : Workspace) : Prop where
  exclusive : s.exclusive = some n
  core : s.core = core
  runtime : s.runtime = runtime
  directories : s.quarantine.filter (fun q => q.id = n) = directories
  answers : s.answers.filter (fun a => a.id = n) = []

theorem fresh_stable (s s' : Workspace) (h : Workspace.Relies n s s') (hs : Fresh n s) :
    Fresh n s' := ⟨h.directories.trans hs.1, h.answers.trans hs.2⟩

variable {runtime : Option (Database RuntimeTable)} {core : Database CoreTable}

theorem holding_stable
    {directories : List QuarantineDirectory} (s s' : Workspace) (h : Workspace.Relies n s s')
    (hs : Holding n core runtime directories s) : Holding n core runtime directories s' := by
  obtain ⟨hexclusive, hcore, hruntime⟩ := h.exclusive hs.exclusive
  exact ⟨hexclusive, hcore.trans hs.core, hruntime.trans hs.runtime,
    h.directories.trans hs.directories, h.answers.trans hs.answers⟩

theorem unshared_of_alone {k : Nat} (hinv : Workspace.Sound env first k s)
    (h : s.exclusive = some n) : s.shared = [] := hinv.apart (by rw [h]; rfl)

/-- The directory in which a run stands that presented a digest. -/
def workDirectory (n : Nat) (presented : Text) (files : List Text)
    (manifest : Option (List Candidate)) : QuarantineDirectory := ⟨n, presented, files, manifest⟩

theorem mem_of_directories
    {d q : QuarantineDirectory} (h : Holding n core runtime [d] s) (hq : q ∈ s.quarantine)
    (hid : q.id = n) : q = d := by
  have hmem : q ∈ s.quarantine.filter (fun q => q.id = n) :=
    List.mem_filter.mpr ⟨hq, by simpa using hid⟩
  rw [h.directories] at hmem
  exact List.mem_singleton.mp hmem

variable {f : QuarantineDirectory → QuarantineDirectory}

/-- A change of the directories of one process is not seen in those of another. -/
theorem filter_map_other {m : Nat} (hid : ∀ q, (f q).id = q.id) (hother : ∀ q, q.id = m → f q = q)
    (qs : List QuarantineDirectory) :
    (qs.map f).filter (fun q => q.id = m) = qs.filter (fun q => q.id = m) := by
  induction qs with
  | nil => rfl
  | cons q rest ih =>
    by_cases hq : q.id = m
    · simp [hq, hother q hq, ih]
    · simp [hid, hq, ih]

theorem filter_map_own (hid : ∀ q, (f q).id = q.id) (qs : List QuarantineDirectory) :
    (qs.map f).filter (fun q => q.id = n) = (qs.filter (fun q => q.id = n)).map f := by
  rw [List.filter_map]
  congr 1
  apply List.filter_congr
  intro q _
  simp [hid]

@[simp] theorem take_id (sha : Text) (q : QuarantineDirectory) : (q.take n sha).id = q.id := by
  unfold QuarantineDirectory.take
  split <;> rfl

@[simp] theorem seal_id (plan : List Candidate) (q : QuarantineDirectory) :
    (q.seal n plan).id = q.id := by
  unfold QuarantineDirectory.seal
  split <;> rfl

@[simp] theorem take_workDirectory (presented sha : Text) (files : List Text)
    (manifest : Option (List Candidate)) : (workDirectory n presented files manifest).take n sha =
      workDirectory n presented (files ++ [sha]) manifest := by
  simp [workDirectory, QuarantineDirectory.take]

@[simp] theorem seal_workDirectory (presented : Text) (files : List Text)
    (manifest : Option (List Candidate)) (plan : List Candidate) :
    (workDirectory n presented files manifest).seal n plan =
      workDirectory n presented files (some plan) := by
  simp [workDirectory, QuarantineDirectory.seal]

variable {core : Database CoreTable} {runtime : Option (Database RuntimeTable)}
  {presented : Text} {files : List Text}

variable {plan : List Candidate}

theorem ensures_createQuarantine (hdigest : planDigest env plan = presented)
    (hs : Holding n core runtime [] s) :
    Program.Ensures (storageDiscipline env first) n (createQuarantine n presented)
      (fun x _ s => match x with
        | .ok _ => Holding n core runtime [workDirectory n presented [] none] s
        | .error e => e = .failed ∧ Holding n core runtime [] s) () s := by
  refine ensures_action holding_stable hs (fun s _ => good_of_ne (by nofun) s) ?_ ?_
  · rintro s e hs (rfl | ⟨i, herror⟩)
    · exact ⟨rfl, hs⟩
    · cases herror
  intro s' k i a s'' hs' hinv ht
  cases modify_ok.mp ht
  refine ⟨commits_alone hs'.exclusive (unshared_of_alone hinv hs'.exclusive)
    ⟨rfl, rfl, rfl, rfl, rfl⟩ hs'.answers ?_ (fun _ _ h => h) ?_, ?_⟩
  · intro m hm
    simp [List.filter_append, hm.symm]
  · intro q hq hid
    rcases List.mem_append.mp hq with hold | hnew
    · have hmem : q ∈ s'.quarantine.filter (fun q => q.id = n) :=
        List.mem_filter.mpr ⟨hold, by simpa using hid⟩
      rw [hs'.directories] at hmem
      cases hmem
    · rw [List.mem_singleton.mp hnew]
      exact ⟨plan, hdigest, List.nil_prefix, fun _ h => by cases h⟩
  · refine ⟨hs'.exclusive, hs'.core, hs'.runtime, ?_, hs'.answers⟩
    simp [List.filter_append, hs'.directories, workDirectory]

variable {plan rest : List Candidate}

/-- A candidate is moved: it is in no row, so no published object goes. -/
theorem ensures_moveObject {c : Candidate} (hdigest : planDigest env plan = presented)
    (hplan : plan.map Candidate.sha = files ++ (c :: rest).map Candidate.sha)
    (hfree : ∀ s : Workspace, s.core = core → s.runtime = runtime → s.Free env.parse c.sha)
    (hs : Holding n core runtime [workDirectory n presented files none] s) :
    Program.Ensures (storageDiscipline env first) n (moveObject n c.sha) (fun x _ s => match x with
        | .ok _ => Holding n core runtime [workDirectory n presented (files ++ [c.sha]) none] s
        | .error e => e = .failed ∧
            Holding n core runtime [workDirectory n presented files none] s) () s := by
  refine ensures_action holding_stable hs ?_ ?_ ?_
  · intro s hs
    refine ⟨rfl, hfree s hs.core hs.runtime, workDirectory n presented files none, ?_, rfl⟩
    have hmem : workDirectory n presented files none ∈
        s.quarantine.filter (fun q => q.id = n) := by
      rw [hs.directories]
      exact List.mem_singleton_self _
    exact (List.mem_filter.mp hmem).1
  · rintro s e hs (rfl | ⟨i, herror⟩)
    · exact ⟨rfl, hs⟩
    by_cases hhas : s.has c.sha = false
    · simp [bind, StateT.bind, get, getThe, MonadStateOf.get, StateT.get, hhas, pure,
        Except.pure, Except.bind, throw, throwThe, MonadExceptOf.throw, StateT.lift] at herror
      exact ⟨herror.symm, hs⟩
    · simp [bind, StateT.bind, get, getThe, MonadStateOf.get, StateT.get, hhas, pure,
        Except.pure, Except.bind, set, StateT.set] at herror
  · intro s' k i a s'' hs' hinv ht
    simp only [bind_ok, get_ok] at ht
    obtain ⟨_, _, hget, ht⟩ := ht
    cases hget
    split at ht
    · exact absurd ht throw_ok
    cases set_ok.mp ht
    refine ⟨commits_alone hs'.exclusive (unshared_of_alone hinv hs'.exclusive)
      ⟨rfl, rfl, rfl, rfl, rfl⟩ hs'.answers ?_ ?_ ?_, ?_⟩
    · intro m hm
      apply filter_map_other (take_id c.sha)
      intro q hq
      simp [QuarantineDirectory.take, hq, hm]
    · intro sha hpublished hhas
      have hne : sha ≠ c.sha := by
        rintro rfl
        exact (hfree s' hs'.core hs'.runtime).1 hpublished
      exact has_remove.mpr ⟨hhas, hne⟩
    · intro q hq hid
      obtain ⟨q', hq', rfl⟩ := List.mem_map.mp hq
      rw [take_id] at hid
      rw [mem_of_directories hs' hq' hid, take_workDirectory]
      refine ⟨plan, hdigest, ?_, fun _ h => by cases h⟩
      simp [workDirectory, hplan]
    · refine ⟨hs'.exclusive, hs'.core, hs'.runtime, ?_, hs'.answers⟩
      rw [filter_map_own (take_id c.sha), hs'.directories]
      simp

/-- All files of the plan are moved, or the run fails on the way. -/
theorem ensures_moveObjects (hdigest : planDigest env plan = presented)
    (hplan : plan.map Candidate.sha = files ++ rest.map Candidate.sha)
    (hfree : ∀ c ∈ rest, ∀ s : Workspace, s.core = core → s.runtime = runtime →
      s.Free env.parse c.sha)
    (hs : Holding n core runtime [workDirectory n presented files none] s) :
    Program.Ensures (storageDiscipline env first) n (moveObjects n rest) (fun x _ s => match x with
        | .ok _ => Holding n core runtime
            [workDirectory n presented (plan.map Candidate.sha) none] s
        | .error e => e = .failed ∧ s.answers.filter (fun a => a.id = n) = []) () s := by
  induction rest generalizing files s with
  | nil =>
    rw [List.map_nil, List.append_nil] at hplan
    exact Program.ensures_pure (hplan ▸ hs)
  | cons c rest ih =>
    apply Program.ensures_bind
    apply (ensures_moveObject hdigest hplan (hfree c List.mem_cons_self) hs).mono
    intro x _ s hs
    cases x with
    | ok a =>
      apply ih _ (fun c hc => hfree c (List.mem_cons_of_mem _ hc)) hs
      simpa using hplan
    | error e => exact ⟨hs.1, hs.2.answers⟩

theorem ensures_writeManifest (hdigest : planDigest env plan = presented)
    (hs : Holding n core runtime [workDirectory n presented (plan.map Candidate.sha) none] s) :
    Program.Ensures (storageDiscipline env first) n (writeManifest n plan)
      (fun x _ s => match x with
        | .ok _ => Holding n core runtime
            [workDirectory n presented (plan.map Candidate.sha) (some plan)] s
        | .error e => e = .failed ∧ s.answers.filter (fun a => a.id = n) = []) () s := by
  refine ensures_action holding_stable hs (fun s _ => good_of_ne (by nofun) s) ?_ ?_
  · rintro s e hs (rfl | ⟨i, herror⟩)
    · exact ⟨rfl, hs.answers⟩
    · cases herror
  intro s' k i a s'' hs' hinv ht
  cases modify_ok.mp ht
  refine ⟨commits_alone hs'.exclusive (unshared_of_alone hinv hs'.exclusive)
    ⟨rfl, rfl, rfl, rfl, rfl⟩ hs'.answers ?_ (fun _ _ h => h) ?_, ?_⟩
  · intro m hm
    apply filter_map_other (seal_id plan)
    intro q hq
    simp [QuarantineDirectory.seal, hq, hm]
  · intro q hq hid
    obtain ⟨q', hq', rfl⟩ := List.mem_map.mp hq
    rw [seal_id] at hid
    rw [mem_of_directories hs' hq' hid, seal_workDirectory]
    refine ⟨plan, hdigest, List.prefix_rfl, ?_⟩
    rintro other hother
    cases hother
    exact ⟨rfl, rfl⟩
  · refine ⟨hs'.exclusive, hs'.core, hs'.runtime, ?_, hs'.answers⟩
    rw [filter_map_own (seal_id plan), hs'.directories]
    simp

/-- What a retention run leaves behind when it ends with an answer. -/
def Settled (env : StorageEnv) (n : Nat) (request : Json)
    (x : Except StorageFault RetentionReport) (s : Workspace) : Prop :=
  s.answers.filter (fun a => a.id = n) = [] ∧
    match x with
    | .error .failed => True
    | .error (.refused _) => s.quarantine.filter (fun q => q.id = n) = []
    | .ok report =>
      match report.quarantine with
      | none => s.quarantine.filter (fun q => q.id = n) = []
      | some id => id = n ∧
          request.valueText "plan_digest" [] = .ok (planDigest env report.candidates) ∧
          s.quarantine.filter (fun q => q.id = n) =
            [workDirectory n (planDigest env report.candidates)
              (report.candidates.map Candidate.sha) (some report.candidates)]

variable {request : Json} {x : Except StorageFault RetentionReport}

theorem settled_stable
    (s s' : Workspace) (h : Workspace.Relies n s s') (hs : Settled env n request x s) :
    Settled env n request x s' := by
  unfold Settled at hs ⊢
  rw [h.answers, h.directories]
  exact hs

theorem Fresh.settled (h : Fresh n s) (e : StorageFault) : Settled env n request (.error e) s := by
  refine ⟨h.2, ?_⟩
  cases e with
  | failed => trivial
  | refused message => exact h.1

theorem Holding.fresh (h : Holding n core runtime [] s) : Fresh n s := ⟨h.directories, h.answers⟩

theorem Settled.sound
    (h : Settled env n request x s) : RetentionAnswer.Sound env s.quarantine ⟨n, request, x⟩ := by
  have hnone : s.quarantine.filter (fun q => q.id = n) = [] → ∀ q ∈ s.quarantine, q.id ≠ n := by
    intro hempty q hq hid
    have hmem : q ∈ s.quarantine.filter (fun q => q.id = n) :=
      List.mem_filter.mpr ⟨hq, by simpa using hid⟩
    rw [hempty] at hmem
    cases hmem
  obtain ⟨-, h⟩ := h
  cases x with
  | error e =>
    cases e with
    | failed => trivial
    | refused message => exact hnone h
  | ok report =>
    cases hquarantine : report.quarantine with
    | none =>
      simp only [hquarantine] at h
      simpa only [RetentionAnswer.Sound, hquarantine] using hnone h
    | some id =>
      simp only [hquarantine] at h
      obtain ⟨hid, hdigest, hdirectory⟩ := h
      simp only [RetentionAnswer.Sound, hquarantine]
      refine ⟨hid, hdigest, workDirectory n (planDigest env report.candidates)
        (report.candidates.map Candidate.sha) (some report.candidates), ?_, rfl, rfl, rfl⟩
      have hmem := List.mem_singleton_self (workDirectory n (planDigest env report.candidates)
        (report.candidates.map Candidate.sha) (some report.candidates))
      rw [← hdirectory] at hmem
      exact (List.mem_filter.mp hmem).1

variable {refs : List Text}

theorem free_of_references
    (hrefs : references env.parse core runtime = .ok refs) {sha : Text} (hsha : isHash sha = true)
    (hnot : sha ∉ refs) (t : Workspace) (hcore : t.core = core) (hruntime : t.runtime = runtime) :
    t.Free env.parse sha := by
  subst hcore hruntime
  have hmention : ¬ t.Mentioned env.parse sha :=
    fun h => hnot (references_cover hrefs hsha h)
  exact ⟨fun h => hmention (mentioned_of_published env.parse hsha h), hmention⟩

theorem ensures_listCandidates {limit : Nat} (hs : Holding n core runtime [] s) :
    Program.Ensures (storageDiscipline env first) n (listCandidates refs limit)
      (fun x _ s => Holding n core runtime [] s ∧ ∀ found, x = .ok found →
        ∀ c ∈ found.1, isHash c.sha = true ∧ c.sha ∉ refs) () s := by
  refine ensures_read (Q := fun found _ => ∀ c ∈ found.1, isHash c.sha = true ∧ c.sha ∉ refs)
    (fun _ _ h => by cases h) holding_stable hs ?_ (fun s e hs => ⟨hs, fun _ h => by cases h⟩) ?_
  · intro s i found s' _ ht
    simp only [bind_ok, get_ok] at ht
    obtain ⟨_, _, hget, ht⟩ := ht
    cases hget
    cases hselect : selectCandidates refs limit i.clock s.objects [] with
    | error e =>
      simp only [hselect] at ht
      exact absurd ht throw_ok
    | ok selected =>
      simp only [hselect] at ht
      cases pure_ok.mp ht
      exact ⟨rfl, selectCandidates_unreferenced hselect (fun _ h => by cases h)⟩
  · rintro s found hs hfound
    refine ⟨hs, ?_⟩
    rintro _ ⟨⟩
    exact hfound

/-- The files of a plan are moved under the digest that was presented, or none are. -/
theorem ensures_applyPlan {presented : Text}
    (hfree : ∀ c ∈ plan, ∀ s : Workspace, s.core = core → s.runtime = runtime →
      s.Free env.parse c.sha) (hs : Holding n core runtime [] s) :
    Program.Ensures (storageDiscipline env first) n (applyPlan env n presented plan)
      (fun x _ s => match x with
        | .ok _ => presented = planDigest env plan ∧ Holding n core runtime
            [workDirectory n presented (plan.map Candidate.sha) (some plan)] s
        | .error e => Fresh n s ∨ e = .failed ∧ s.answers.filter (fun a => a.id = n) = []) () s := by
  by_cases hdigest : presented ≠ planDigest env plan
  · simp only [applyPlan, if_pos hdigest]
    apply Program.ensures_bind
    exact Program.ensures_throw (.inl hs.fresh)
  simp only [applyPlan, if_neg hdigest]
  rw [not_not] at hdigest
  · apply Program.ensures_bind
    apply (ensures_createQuarantine hdigest.symm hs).mono
    intro x _ s hs
    cases x with
    | error e => exact .inl hs.2.fresh
    | ok a =>
      apply Program.ensures_bind
      apply (ensures_moveObjects hdigest.symm (by simp) hfree hs).mono
      intro x _ s hs
      cases x with
      | error e => exact .inr hs
      | ok a =>
        apply (ensures_writeManifest hdigest.symm hs).mono
        intro x _ s hs
        cases x with
        | error e => exact .inr hs
        | ok a => exact ⟨hdigest, hs⟩

theorem ensures_applied {more : Bool}
    (hfree : ∀ c ∈ plan, ∀ s : Workspace, s.core = core → s.runtime = runtime →
      s.Free env.parse c.sha) (hs : Holding n core runtime [] s) :
    Program.Ensures (storageDiscipline env first) n (do
      let presented ← check (accessed (request.valueText "plan_digest" []))
      applyPlan env n presented plan
      pure (⟨plan, more, planDigest env plan, some n⟩ : RetentionReport))
      (fun x _ s => Settled env n request x s) () s := by
  apply Program.ensures_bind
  apply ensures_check
  cases hpresented : request.valueText "plan_digest" [] with
  | error message => exact hs.fresh.settled _
  | ok presented =>
    apply Program.ensures_bind
    apply (ensures_applyPlan hfree hs).mono
    intro x _ s hs
    cases x with
    | error e =>
      rcases hs with hfresh | ⟨rfl, hanswers⟩
      · exact hfresh.settled e
      · exact ⟨hanswers, trivial⟩
    | ok a =>
      obtain ⟨rfl, hs⟩ := hs
      exact Program.ensures_pure ⟨hs.answers, rfl, hpresented, hs.directories⟩

theorem ensures_retain (hs : Holding n core runtime [] s) :
    Program.Ensures (storageDiscipline env first) n (retain env n request)
      (fun x _ s => Settled env n request x s) () s := by
  apply Program.ensures_bind
  apply ensures_readCore holding_stable hs (fun _ e hs => hs.fresh.settled e)
  intro s hs
  rw [hs.core]
  apply Program.ensures_bind
  apply ensures_read (Q := fun a _ => a = runtime) (by nofun) holding_stable hs ?_
    (fun _ e hs => hs.fresh.settled e) ?_
  · intro s i a s' hs ht
    simp only [bind_ok, get_ok, pure_ok] at ht
    obtain ⟨_, _, hget, ht⟩ := ht
    cases hget
    cases ht
    exact ⟨rfl, hs.runtime⟩
  intro s read hs hread
  rw [show read = runtime from hread]
  apply Program.ensures_bind
  apply ensures_check
  cases hrefs : references env.parse core runtime with
  | error e => exact hs.fresh.settled e
  | ok refs =>
    apply Program.ensures_bind
    apply ensures_check
    cases boundField request "limit" 100 10000 with
    | error e => exact hs.fresh.settled e
    | ok limit =>
      apply Program.ensures_bind
      apply (ensures_listCandidates hs).mono
      rintro x _ s ⟨hs, hfound⟩
      cases x with
      | error e => exact hs.fresh.settled e
      | ok found =>
        obtain ⟨candidates, more⟩ := found
        have hfree : ∀ c ∈ sortCandidates candidates, ∀ s : Workspace, s.core = core →
            s.runtime = runtime → s.Free env.parse c.sha := by
          intro c hc t hcore hruntime
          obtain ⟨hsha, hnot⟩ := hfound _ rfl c (mem_sortCandidates.mp hc)
          exact free_of_references hrefs hsha hnot t hcore hruntime
        apply Program.ensures_bind
        apply ensures_check
        cases accessed (request.valueBool "apply" false) with
        | error e => exact hs.fresh.settled e
        | ok applies =>
          cases applies with
          | false => exact Program.ensures_pure ⟨hs.answers, hs.directories⟩
          | true =>
            cases more with
            | true =>
              apply Program.ensures_bind
              exact Program.ensures_throw (hs.fresh.settled _)
            | false => exact ensures_applied hfree hs

theorem ensures_retention (hs : Fresh n s) :
    Program.Ensures (storageDiscipline env first) n (retention env n request)
      (fun _ _ _ => True) () s := by
  have hbody : Program.Ensures (storageDiscipline env first) n (do
      check (checkKeys request ["limit", "apply", "plan_digest"])
      acquire n true
      retain env n request) (fun x _ s => Settled env n request x s) () s := by
    apply Program.ensures_bind
    apply ensures_check
    cases checkKeys request ["limit", "apply", "plan_digest"] with
    | error e => exact hs.settled e
    | ok a =>
      apply Program.ensures_bind
      apply ensures_acquire fresh_stable hs (fun _ e hs => hs.settled e)
      intro s hs _ _
      exact ensures_retain ⟨rfl, rfl, rfl, hs.1, hs.2⟩
  apply Program.ensures_bind
  apply ensures_attempt
  apply hbody.mono
  intro x _ s hs
  apply ensures_release settled_stable hs
  rintro s hs a ⟨⟩
  exact ⟨rfl, hs.sound⟩

end Retention

section Each

variable {α : Type} {n : Nat}

/-- No object goes, and no directory takes a file. -/
structure Quiet (s t : Workspace) : Prop where
  objects : ∀ sha, s.has sha = true → t.has sha = true
  files : ∀ q ∈ t.quarantine, ∀ sha ∈ q.files, ∃ q' ∈ s.quarantine, q'.id = q.id ∧ sha ∈ q'.files

theorem Quiet.refl (s : Workspace) : Quiet s s :=
  ⟨fun _ h => h, fun q hq _ hsha => ⟨q, hq, rfl, hsha⟩⟩

theorem quiet_of_same {s t : Workspace} (hobjects : t.objects = s.objects)
    (hquarantine : t.quarantine = s.quarantine) : Quiet s t := by
  refine ⟨fun sha h => ?_, fun q hq sha hsha => ⟨q, hquarantine ▸ hq, rfl, hsha⟩⟩
  rw [has_iff] at h ⊢
  rwa [hobjects]

/-- What an action does: only a move takes an object, into the directory of its run. -/
def Moves : Option StorageLabel → StorageInput → Workspace → Workspace → Prop
  | some (.move id sha), _, s, t => t = s ∨ s.has sha = true ∧
      t = { s.remove sha with quarantine := s.quarantine.map (QuarantineDirectory.take id sha) }
  | _, _, s, t => Quiet s t

variable {label : StorageLabel}

theorem moves_of_quiet (hlabel : ∀ id sha, label ≠ .move id sha)
    {i : StorageInput} {s t : Workspace} (h : Quiet s t) : Moves (some label) i s t := by
  cases label with
  | move id sha => exact absurd rfl (hlabel id sha)
  | _ => exact h

variable {t : StorageInput → StorageTx α}

theorem each_quiet (hlabel : ∀ id sha, label ≠ .move id sha)
    (h : ∀ i s a s', t i s = .ok (a, s') → Quiet s s') : (action label t).Each Moves := by
  apply Program.each_atomically
  · intro i s
    exact moves_of_quiet hlabel (.refl s)
  intro i s a s' ht
  split at ht
  · exact absurd ht throw_ok
  · exact moves_of_quiet hlabel (h i s a s' ht)

theorem each_reading (hlabel : ∀ id sha, label ≠ .move id sha)
    (h : ∀ i s a s', t i s = .ok (a, s') → s' = s) : (action label t).Each Moves :=
  each_quiet hlabel (fun i s a s' ht => h i s a s' ht ▸ .refl s)

theorem each_check (x : Except StorageFault α) : (check x).Each Moves := by
  cases x with
  | ok a => exact Program.each_pure a
  | error e => exact Program.each_throw e

theorem each_attempt {m : StorageProgram α} (h : m.Each Moves) : (attempt m).Each Moves :=
  Program.Each.tryCatch (h.bind fun _ => Program.each_pure _) (fun _ => Program.each_pure _)

theorem each_acquire (exclusive : Bool) : (acquire n exclusive).Each Moves := by
  apply each_quiet (by nofun)
  intro i s a s' ht
  simp only [bind_ok, get_ok] at ht
  obtain ⟨_, _, hget, ht⟩ := ht
  cases hget
  split at ht
  · exact absurd ht throw_ok
  split at ht
  · cases set_ok.mp ht
    exact quiet_of_same rfl rfl
  · cases set_ok.mp ht
    exact quiet_of_same rfl rfl

theorem each_release (answer : Option RetentionAnswer) : (release n answer).Each Moves := by
  apply Program.each_atomically
  · exact fun _ s => Quiet.refl s
  · intro i s a s' ht
    cases modify_ok.mp ht
    exact quiet_of_same rfl rfl

theorem each_sharing {m : StorageProgram Unit} (h : m.Each Moves) : (sharing n m).Each Moves :=
  (each_attempt ((each_acquire false).bind fun _ => h)).bind fun _ => each_release none

theorem each_readCore : readCore.Each Moves := by
  apply each_reading (by nofun)
  intro i s a s' ht
  simp only [bind_ok, get_ok, pure_ok] at ht
  obtain ⟨_, _, hget, ht⟩ := ht
  cases hget
  cases ht
  rfl

theorem each_readRuntime : readRuntime.Each Moves := by
  apply each_reading (by nofun)
  intro i s a s' ht
  simp only [bind_ok, get_ok, pure_ok] at ht
  obtain ⟨_, _, hget, ht⟩ := ht
  cases hget
  cases ht
  rfl

theorem each_exists (sha : Text) : (exists? sha).Each Moves := by
  apply each_reading (by nofun)
  intro i s a s' ht
  simp only [bind_ok, get_ok, pure_ok] at ht
  obtain ⟨_, _, hget, ht⟩ := ht
  cases hget
  cases ht
  rfl

theorem each_publishObject (sha : Text) (size : Nat) : (publishObject sha size).Each Moves := by
  have hverify : (do
      let intact ← exists? sha
      if intact = false then throw (.refused "content store integrity failure") :
      StorageProgram Unit).Each Moves := by
    apply (each_exists sha).bind
    intro intact
    exact Program.each_ite (Program.each_throw _) (Program.each_pure _)
  have hplace : (placeObject sha size).Each Moves := by
    apply each_quiet (by nofun)
    intro i s a s' ht
    simp only [bind_ok, get_ok] at ht
    obtain ⟨_, _, hget, ht⟩ := ht
    cases hget
    split at ht
    · cases set_ok.mp ht
      exact ⟨fun other hother => has_place.mpr (.inl hother), fun q hq _ hsha => ⟨q, hq, rfl, hsha⟩⟩
    split at ht
    · exact absurd ht throw_ok
    · cases pure_ok.mp ht
      exact .refl s
  apply (each_exists sha).bind
  intro present
  exact Program.each_ite (hplace.bind fun _ => hverify) hverify

theorem each_commitTarget (project name sha : Text) (size : Nat) :
    (commitTarget project name sha size).Each Moves := by
  apply each_quiet (by nofun)
  intro i s a s' ht
  cases modify_ok.mp ht
  exact quiet_of_same rfl rfl

theorem each_importTarget (env : StorageEnv) (project name : Text) :
    (importTarget env n project name).Each Moves := by
  apply each_sharing
  apply each_readCore.bind
  intro core
  have hstage : ∀ t : StorageInput → StorageTx Text,
      (∀ i s a s', t i s = .ok (a, s') → s' = s) → (do
        let staged ← action .stage t
        publishObject (env.sha256 staged) staged.length
        commitTarget project name (env.sha256 staged) staged.length).Each Moves := by
    intro t ht
    apply (each_reading (by nofun) ht).bind
    intro staged
    exact (each_publishObject _ _).bind fun _ => each_commitTarget _ _ _ _
  refine Program.each_ite ((Program.each_throw _).bind fun _ => hstage _ ?_) (hstage _ ?_) <;>
  · intro i s a s' ht
    split at ht
    · exact absurd ht throw_ok
    split at ht
    · exact absurd ht throw_ok
    · cases pure_ok.mp ht
      rfl

theorem each_publishEvidence (env : StorageEnv) (p : Publication) :
    (publishEvidence env n p).Each Moves := by
  apply each_sharing
  apply each_readCore.bind
  intro core
  have hcommit : ∀ sha, (commitEvidence p sha).Each Moves := by
    intro sha
    apply each_quiet (by nofun)
    intro i s a s' ht
    cases modify_ok.mp ht
    exact quiet_of_same rfl rfl
  cases p.check with
  | refused message => exact Program.each_throw _
  | published => exact Program.each_pure _
  | accepted => exact (each_publishObject _ _).bind fun _ => hcommit _

theorem each_adoptTargets (items : List (Text × Text × Text × Nat)) :
    (adoptTargets n items).Each Moves := by
  apply each_sharing
  induction items with
  | nil => exact Program.each_pure _
  | cons item rest ih =>
    obtain ⟨project, name, sha, size⟩ := item
    apply (each_exists sha).bind
    intro present
    exact Program.each_ite ((each_commitTarget _ _ _ _).bind fun _ => ih) ih

theorem each_writeRows (commits : Nat) : (writeRows n commits).Each Moves := by
  apply each_sharing
  have hcommit : commitRows.Each Moves := by
    apply each_quiet (by nofun)
    intro i s a s' ht
    cases modify_ok.mp ht
    exact quiet_of_same rfl rfl
  induction commits with
  | zero => exact Program.each_pure _
  | succ commits ih => exact hcommit.bind fun _ => ih

theorem each_moveObjects (plan : List Candidate) : (moveObjects n plan).Each Moves := by
  induction plan with
  | nil => exact Program.each_pure _
  | cons c rest ih =>
    have hmove : (moveObject n c.sha).Each Moves := by
      apply Program.each_atomically
      · exact fun _ s => .inl rfl
      intro i s a s' ht
      split at ht
      · exact absurd ht throw_ok
      simp only [bind_ok, get_ok] at ht
      obtain ⟨_, _, hget, ht⟩ := ht
      cases hget
      split at ht
      · exact absurd ht throw_ok
      · next hhas =>
          cases set_ok.mp ht
          exact .inr ⟨by simpa using hhas, rfl⟩
    exact hmove.bind fun _ => ih

theorem each_applyPlan (env : StorageEnv) (presented : Text) (plan : List Candidate) :
    (applyPlan env n presented plan).Each Moves := by
  have hcreate : (createQuarantine n presented).Each Moves := by
    apply each_quiet (by nofun)
    intro i s a s' ht
    cases modify_ok.mp ht
    refine ⟨fun _ h => h, ?_⟩
    intro q hq sha hsha
    rcases List.mem_append.mp hq with hold | hnew
    · exact ⟨q, hold, rfl, hsha⟩
    · rw [List.mem_singleton.mp hnew] at hsha
      cases hsha
  have hseal : (writeManifest n plan).Each Moves := by
    apply each_quiet (by nofun)
    intro i s a s' ht
    cases modify_ok.mp ht
    refine ⟨fun _ h => h, ?_⟩
    intro q hq sha hsha
    obtain ⟨q', hq', rfl⟩ := List.mem_map.mp hq
    refine ⟨q', hq', (seal_id plan q').symm, ?_⟩
    unfold QuarantineDirectory.seal at hsha
    split at hsha <;> exact hsha
  have hrest : (do
      createQuarantine n presented
      moveObjects n plan
      writeManifest n plan : StorageProgram Unit).Each Moves :=
    hcreate.bind fun _ => (each_moveObjects plan).bind fun _ => hseal
  exact Program.each_ite ((Program.each_throw _).bind fun _ => hrest) hrest

theorem each_retention (env : StorageEnv) (request : Json) :
    (retention env n request).Each Moves := by
  refine (each_attempt ((each_check _).bind fun _ => (each_acquire true).bind fun _ => ?_)).bind
    fun _ => each_release _
  refine each_readCore.bind fun core => each_readRuntime.bind fun runtime =>
    (each_check _).bind fun refs => (each_check _).bind fun limit => ?_
  have hlist : (listCandidates refs limit).Each Moves := by
    apply each_reading (by nofun)
    intro i s a s' ht
    simp only [bind_ok, get_ok] at ht
    obtain ⟨_, _, hget, ht⟩ := ht
    cases hget
    cases hselect : selectCandidates refs limit i.clock s.objects [] with
    | error e =>
      simp only [hselect] at ht
      exact absurd ht throw_ok
    | ok selected =>
      simp only [hselect] at ht
      cases pure_ok.mp ht
      rfl
  apply hlist.bind
  rintro ⟨candidates, more⟩
  apply (each_check _).bind
  intro applies
  have hrest : ∀ plan : List Candidate, (do
      let presented ← check (accessed (request.valueText "plan_digest" []))
      applyPlan env n presented plan
      pure (⟨plan, more, planDigest env plan, some n⟩ : RetentionReport)).Each Moves :=
    fun plan => (each_check _).bind fun _ => (each_applyPlan env _ plan).bind fun _ =>
      Program.each_pure _
  exact Program.each_ite (Program.each_ite ((Program.each_throw _).bind fun _ => hrest _) (hrest _))
    (Program.each_pure _)

end Each

section Runs

variable {env : StorageEnv} {first : Workspace}

theorem storage_starts : (storageDiscipline env first).Starts (storageMachine env) := by
  intro call k i s hinv
  have hgrows : Workspace.Sound env first (k + 1) s :=
    { hinv with
      directories := fun q hq =>
        ⟨Nat.lt_succ_of_lt (hinv.directories q hq).1, (hinv.directories q hq).2⟩
      answers := fun a ha => ⟨Nat.lt_succ_of_lt (hinv.answers a ha).1, (hinv.answers a ha).2⟩ }
  refine ⟨hgrows, fun m _ => .refl m s, trivial, ?_⟩
  have hends : Program.Ensures (storageDiscipline env first) k (call.program env k)
      (fun _ _ _ => True) () s := ?_
  · exact hends.process
  cases call with
  | importTarget project name => exact ensures_importTarget env project name
  | publishResult publication => exact ensures_publishEvidence env publication
  | adoptTargets items => exact ensures_adoptTargets env items
  | writeRows commits => exact ensures_writeRows env commits
  | retention request =>
    -- a new process has a new number
    apply ensures_retention
    constructor
    · apply List.filter_eq_nil_iff.mpr
      intro q hq
      have hlt := (hinv.directories q hq).1
      simp only [decide_eq_true_eq]
      omega
    · apply List.filter_eq_nil_iff.mpr
      intro a ha
      have hlt := (hinv.answers a ha).1
      simp only [decide_eq_true_eq]
      omega

theorem storage_each (env : StorageEnv) (call : StorageCall) (n : Nat) (i : StorageInput)
    (s : Workspace) : Moves none i s ((storageMachine env).start call n i s).1 ∧
      ((storageMachine env).start call n i s).2.Each Moves := by
  refine ⟨Quiet.refl s, ?_⟩
  apply Program.Each.process
  cases call with
  | importTarget project name => exact each_importTarget env project name
  | publishResult publication => exact each_publishEvidence env publication
  | adoptTargets items => exact each_adoptTargets items
  | writeRows commits => exact each_writeRows commits
  | retention request => exact each_retention env request

/-- What one step of a run leaves. An object goes only into a quarantine, and only when
no row refers to it; nothing else comes into a quarantine. -/
structure Workspace.StepKeeps (env : StorageEnv) (s t : Workspace) : Prop where
  referenced : ∀ sha, s.has sha = true → t.Published sha ∨ t.Mentioned env.parse sha →
    t.has sha = true
  moved : ∀ sha, s.has sha = true → t.has sha = false → ∃ q ∈ t.quarantine, sha ∈ q.files
  quarantined : ∀ q ∈ t.quarantine, ∀ sha ∈ q.files,
    s.has sha = true ∧ t.has sha = false ∨ ∃ q' ∈ s.quarantine, q'.id = q.id ∧ sha ∈ q'.files

theorem Quiet.stepKeeps {s t : Workspace} (h : Quiet s t) : s.StepKeeps env t where
  referenced := fun sha hhas _ => h.objects sha hhas
  moved := fun sha hhas hgone => by
    rw [h.objects sha hhas] at hgone
    cases hgone
  quarantined := fun q hq sha hsha => .inr (h.files q hq sha hsha)

/-- A move of an object that nothing refers to, into a directory that is there. -/
theorem stepKeeps_move {s : Workspace} {id : Nat} {sha : Text} (hfree : s.Free env.parse sha)
    (hhas : s.has sha = true) (hdirectory : ∃ q ∈ s.quarantine, q.id = id) :
    s.StepKeeps env { s.remove sha with
      quarantine := s.quarantine.map (QuarantineDirectory.take id sha) } where
  referenced := by
    intro other hother hrefers
    apply has_remove.mpr
    refine ⟨hother, ?_⟩
    rintro rfl
    rcases hrefers with hpublished | hmentioned
    · exact hfree.1 hpublished
    · exact hfree.2 hmentioned
  moved := by
    intro other hother hgone
    have hsame : other = sha := by
      by_contra hne
      have hthere : (s.remove sha).has other = true := has_remove.mpr ⟨hother, hne⟩
      exact absurd (hgone.symm.trans hthere) (by decide)
    obtain ⟨q, hq, hid⟩ := hdirectory
    refine ⟨q.take id sha, List.mem_map.mpr ⟨q, hq, rfl⟩, ?_⟩
    simp [QuarantineDirectory.take, hid, hsame]
  quarantined := by
    intro q hq other hother
    obtain ⟨q', hq', rfl⟩ := List.mem_map.mp hq
    by_cases hsame : other = sha
    · left
      subst hsame
      refine ⟨hhas, ?_⟩
      have hgone : (s.remove other).has other = false := by
        cases hthere : (s.remove other).has other with
        | false => rfl
        | true => exact absurd rfl (has_remove.mp hthere).2
      exact hgone
    · right
      refine ⟨q', hq', (take_id sha q').symm, ?_⟩
      unfold QuarantineDirectory.take at hother
      split at hother
      · rcases List.mem_append.mp hother with hold | hnew
        · exact hold
        · exact absurd (List.mem_singleton.mp hnew) hsame
      · exact hother

theorem closedWorkspace_holds (env : StorageEnv) (objects : List StoredObject)
    (core : Database CoreTable) (runtime : Option (Database RuntimeTable)) :
    (storageDiscipline env (closedWorkspace objects core runtime).store).Holds
      (closedWorkspace objects core runtime) := by
  have hinv : Workspace.Sound env (closedWorkspace objects core runtime).store 0
      (closedWorkspace objects core runtime).store := by
    refine ⟨fun _ => rfl, ?_, ?_, ?_⟩
    · intro sha hpublished
      cases hhas : (closedWorkspace objects core runtime).store.has sha with
      | true => exact .inl rfl
      | false => exact .inr ⟨hpublished, rfl⟩
    · intro q hq
      cases hq
    · intro a ha
      cases ha
  exact ⟨hinv, fun n p hp => by cases hp⟩

/-- Every step of every run leaves the objects that rows refer to in the store; every
published hash keeps its object; and a quarantine is what the answer of its run says. -/
theorem retention_keeps_references (env : StorageEnv) (objects : List StoredObject)
    (core : Database CoreTable) (runtime : Option (Database RuntimeTable))
    (events : List (Event StorageInput StorageCall)) (e : Event StorageInput StorageCall) :
    let begun := closedWorkspace objects core runtime
    let state := (storageMachine env).run begun events
    state.store.StepKeeps env ((storageMachine env).next state e).store ∧
      (∀ sha, state.store.Published sha → state.store.has sha = true ∨
        begun.store.Published sha ∧ begun.store.has sha = false) ∧
      (∀ q ∈ state.store.quarantine, q.Sound env) ∧
      ∀ a ∈ state.store.answers, a.Sound env state.store.quarantine := by
  intro begun state
  have hholds : (storageDiscipline env begun.store).Holds state :=
    ((closedWorkspace_holds env objects core runtime).run storage_starts events
      (Discipline.meets_of_forall (fun _ _ _ => trivial) _ _)).1
  refine ⟨?_, hholds.inv.kept, fun q hq => (hholds.inv.directories q hq).2,
    fun a ha => (hholds.inv.answers a ha).2⟩
  have hdoes : Machine.Does Moves state ((storageMachine env).next state e).store e :=
    Machine.run_each (storage_each env) (fun _ hp => by cases hp) events e
  cases hdoes with
  | still _ hsame =>
    rw [hsame]
    exact (Quiet.refl _).stepKeeps
  | start call i hquiet => exact Quiet.stepKeeps hquiet
  | step n i label hlabel hmoves =>
    have hgood : (storageDiscipline env begun.store).good n label state.store :=
      (hholds.step (M := storageMachine env) n i (fun _ _ => trivial)).2.2 label hlabel
    cases label with
    | move id sha =>
      obtain ⟨rfl, hfree, hdirectory⟩ := hgood
      rcases hmoves with hsame | ⟨hhas, hmoved⟩
      · rw [hsame]
        exact (Quiet.refl _).stepKeeps
      · rw [hmoved]
        exact stepKeeps_move hfree hhas hdirectory
    | _ => exact Quiet.stepKeeps hmoves

end Runs

end Indago.Storage
