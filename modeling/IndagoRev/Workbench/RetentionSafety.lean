import IndagoRev.Workbench.Retention

/-!
# What retention leaves alone

Whoever holds the lease alone finds the rows as they are until it gives the lease
back; whoever shares it finds every object that it saw. So a file that no row
mentions when the rows are scanned is mentioned by none when it is moved, and a row
that names an object is committed while the object is there.
-/

namespace Indago.Storage

open StdText Transactions Interleaving JsonValues List

/-- The files of a quarantine directory are the first files of a plan with the digest
that was presented, and all of them once there is a manifest. -/
def QuarantineDirectory.Sound (env : StorageEnv) (q : QuarantineDirectory) : Prop :=
  ∃ plan, planDigest env plan = q.presented ∧ q.files <+: plan.map Candidate.sha ∧
    ∀ sealed, q.manifest = some sealed → sealed = plan ∧ q.files = plan.map Candidate.sha

/-- The quarantine is what the answer of a retention run says: it moved the files of
the plan that its caller presented, or nothing. -/
def RetentionAnswer.Sound (env : StorageEnv) (quarantine : List QuarantineDirectory)
    (a : RetentionAnswer) : Prop :=
  match a.outcome with
  | .error .failed => True
  | .error (.refused _) => ∀ q ∈ quarantine, q.id ≠ a.id
  | .ok report =>
    match report.quarantine with
    | none => ∀ q ∈ quarantine, q.id ≠ a.id
    | some id => id = a.id ∧
        a.request.valueText "plan_digest" [] = .ok (planDigest env report.candidates) ∧
        ∃ q ∈ quarantine, q.id = a.id ∧ q.manifest = some report.candidates ∧
          q.files = report.candidates.map Candidate.sha

namespace Workspace

/-- What holds of a workspace that was `first` when no process had opened it. -/
structure Sound (env : StorageEnv) (first : Workspace) (k : Nat) (s : Workspace) : Prop where
  apart : s.exclusive.isSome = true → s.shared = []
  kept : ∀ sha, s.Published sha → s.has sha = true ∨ (first.Published sha ∧ first.has sha = false)
  directories : ∀ q ∈ s.quarantine, q.id < k ∧ q.Sound env
  answers : ∀ a ∈ s.answers, a.id < k ∧ a.Sound env s.quarantine

/-- What a process may rely on while others act. -/
structure Relies (n : Nat) (s t : Workspace) : Prop where
  exclusive : s.exclusive = some n →
    t.exclusive = some n ∧ t.core = s.core ∧ t.runtime = s.runtime
  shared : n ∈ s.shared → n ∈ t.shared ∧ ∀ sha, s.has sha = true → t.has sha = true
  directories : t.quarantine.filter (fun q => q.id = n) = s.quarantine.filter (fun q => q.id = n)
  answers : t.answers.filter (fun a => a.id = n) = s.answers.filter (fun a => a.id = n)

theorem Relies.refl (n : Nat) (s : Workspace) : Relies n s s :=
  ⟨fun h => ⟨h, rfl, rfl⟩, fun h => ⟨h, fun _ hsha => hsha⟩, rfl, rfl⟩

theorem Relies.trans {n : Nat} {s t u : Workspace} (h : Relies n s t) (h' : Relies n t u) :
    Relies n s u where
  exclusive := fun hs => by
    obtain ⟨ht, hcore, hruntime⟩ := h.exclusive hs
    obtain ⟨hu, hcore', hruntime'⟩ := h'.exclusive ht
    exact ⟨hu, hcore'.trans hcore, hruntime'.trans hruntime⟩
  shared := fun hs => by
    obtain ⟨ht, hobjects⟩ := h.shared hs
    obtain ⟨hu, hobjects'⟩ := h'.shared ht
    exact ⟨hu, fun sha hsha => hobjects' sha (hobjects sha hsha)⟩
  directories := h'.directories.trans h.directories
  answers := h'.answers.trans h.answers

/-- No row refers to a hash. -/
def Free (parse : Text → Option Json) (s : Workspace) (sha : Text) : Prop :=
  ¬ s.Published sha ∧ ¬ s.Mentioned parse sha

end Workspace

/-- The discipline of the operations on a workspace. An object is moved by the run that
holds the lease and that made the directory, and only if nothing refers to it. -/
def storageDiscipline (env : StorageEnv) (first : Workspace) :
    Discipline StorageLabel Workspace where
  inv := Workspace.Sound env first
  rely := Workspace.Relies
  evolves := fun _ _ => True
  meets := fun _ _ _ => True
  good := fun n label s =>
    match label with
    | .move id sha => id = n ∧ s.Free env.parse sha ∧ ∃ q ∈ s.quarantine, q.id = n
    | _ => True
  rely_refl := Workspace.Relies.refl
  rely_trans := fun _ _ _ _ => Workspace.Relies.trans
  evolves_refl := fun _ => trivial
  evolves_trans := fun _ _ _ _ _ => trivial

section Objects

variable {s : Workspace} {sha : Text}

theorem has_iff : s.has sha = true ↔ ∃ o ∈ s.objects, o.sha = sha := by
  simp [Workspace.has]

theorem has_place {o : StoredObject} :
    (s.place o).has sha = true ↔ s.has sha = true ∨ o.sha = sha := by
  simp only [has_iff, Workspace.place, mem_append, mem_filter, mem_singleton,
    decide_eq_true_eq]
  constructor
  · rintro ⟨other, ⟨hother, -⟩ | rfl, hsha⟩
    · exact .inl ⟨other, hother, hsha⟩
    · exact .inr hsha
  rintro (⟨other, hother, hsha⟩ | hsha)
  · by_cases hsame : other.sha = o.sha
    · exact ⟨o, .inr rfl, hsame ▸ hsha⟩
    · exact ⟨other, .inl ⟨hother, hsame⟩, hsha⟩
  · exact ⟨o, .inr rfl, hsha⟩

theorem has_remove {other : Text} :
    (s.remove other).has sha = true ↔ s.has sha = true ∧ sha ≠ other := by
  simp only [has_iff, Workspace.remove, mem_filter, decide_eq_true_eq]
  constructor
  · rintro ⟨o, ⟨ho, hne⟩, rfl⟩
    exact ⟨⟨o, ho, rfl⟩, hne⟩
  · rintro ⟨⟨o, ho, rfl⟩, hne⟩
    exact ⟨o, ⟨ho, hne⟩, rfl⟩

theorem mentioned_of_published (parse : Text → Option Json) (hsha : isHash sha = true)
    (h : s.Published sha) : s.Mentioned parse sha := by
  have hne : sha ≠ [] := by
    rintro rfl
    exact absurd hsha (by decide)
  have hcolumn : ∀ (row : Row) (i : Nat), row.getD i [] = sha → MentionedIn parse sha row := by
    intro row i hi
    refine ⟨sha, ?_, .text⟩
    cases hget : row[i]? with
    | none =>
      rw [getD_eq_getElem?_getD, hget] at hi
      exact absurd hi.symm hne
    | some column =>
      rw [getD_eq_getElem?_getD, hget] at hi
      exact hi ▸ mem_of_getElem? hget
  rcases h with ⟨row, hrow, htarget⟩ | ⟨row, hrow, hevidence⟩
  · exact .inl ⟨_, row, hrow, hcolumn row 2 htarget⟩
  · exact .inl ⟨_, row, hrow, hcolumn row 5 hevidence⟩

theorem mem_coreTables (table : CoreTable) : table ∈ coreTables := by
  cases table <;> decide

theorem mem_runtimeTables (table : RuntimeTable) : table ∈ runtimeTables := by
  cases table <;> decide

/-- The scan of both databases finds every hash that a row mentions. -/
theorem references_cover {parse : Text → Option Json} {refs : List Text}
    (h : references parse s.core s.runtime = .ok refs) (hsha : isHash sha = true)
    (hmention : s.Mentioned parse sha) : sha ∈ refs := by
  obtain ⟨found, hcore, h⟩ := except_bind_ok.mp h
  obtain ⟨found', hruntime, h⟩ := except_bind_ok.mp h
  obtain ⟨_, -, hrefs⟩ := except_bind_ok.mp h
  cases hrefs
  have hmore : found.1 ⊆ found'.1 := by
    unfold scanRuntime at hruntime
    split at hruntime
    · cases hruntime
      exact List.Subset.refl _
    · exact (scanRows_covers hruntime).1
  rcases hmention with ⟨table, row, hrow, hmention⟩ | ⟨db, hdb, table, row, hrow, hmention⟩
  · exact hmore ((scanRows_covers hcore).2 row
      (mem_flatMap.mpr ⟨table, mem_coreTables table, hrow⟩) sha hsha hmention)
  · rw [hdb] at hruntime
    exact (scanRows_covers hruntime).2 row
      (mem_flatMap.mpr ⟨table, mem_runtimeTables table, hrow⟩) sha hsha hmention

end Objects

theorem RetentionAnswer.Sound.congr {env : StorageEnv} {a : RetentionAnswer}
    {old new : List QuarantineDirectory}
    (hsame : new.filter (fun q => q.id = a.id) = old.filter (fun q => q.id = a.id))
    (h : a.Sound env old) : a.Sound env new := by
  have hmem : ∀ q, q.id = a.id → (q ∈ new ↔ q ∈ old) := by
    intro q hq
    have hfilter : q ∈ new.filter (fun q => q.id = a.id) ↔ q ∈ old.filter (fun q => q.id = a.id) := by
      rw [hsame]
    simpa [mem_filter, hq] using hfilter
  have hnone : (∀ q ∈ old, q.id ≠ a.id) → ∀ q ∈ new, q.id ≠ a.id :=
    fun hold q hq hid => hold q ((hmem q hid).mp hq) hid
  unfold RetentionAnswer.Sound at h ⊢
  split at h <;> try exact h
  · exact hnone h
  split at h
  · exact hnone h
  · obtain ⟨hid, hdigest, q, hq, hown, hrest⟩ := h
    exact ⟨hid, hdigest, q, (hmem q hown).mpr hq, hown, hrest⟩

section Commits

variable {env : StorageEnv} {first : Workspace} {n : Nat} {s t : Workspace}

/-- The process that holds the lease alone may work on its directory and move what is
not published. -/
theorem commits_alone (hexclusive : s.exclusive = some n) (hempty : s.shared = [])
    (hsame : t.exclusive = s.exclusive ∧ t.shared = s.shared ∧ t.core = s.core ∧
      t.runtime = s.runtime ∧ t.answers = s.answers)
    (hanswers : s.answers.filter (fun a => a.id = n) = []) (hothers : ∀ m, m ≠ n →
      t.quarantine.filter (fun q => q.id = m) = s.quarantine.filter (fun q => q.id = m))
    (hobjects : ∀ sha, s.Published sha → s.has sha = true → t.has sha = true)
    (howns : ∀ q ∈ t.quarantine, q.id = n → q.Sound env) :
    (storageDiscipline env first).Commits n s t := by
  obtain ⟨hlease, hshared, hcore, hruntime, hanswered⟩ := hsame
  have hpublished : ∀ sha, t.Published sha ↔ s.Published sha := by
    intro sha
    simp only [Workspace.Published, hcore]
  refine ⟨?_, ?_, trivial⟩
  · intro k hk hinv
    refine ⟨fun _ => hshared.trans hempty, ?_, ?_, ?_⟩
    · intro sha hsha
      have hsha' := (hpublished sha).mp hsha
      rcases hinv.kept sha hsha' with hhas | hfirst
      · exact .inl (hobjects sha hsha' hhas)
      · exact .inr hfirst
    · intro q hq
      by_cases hid : q.id = n
      · exact ⟨hid ▸ hk, howns q hq hid⟩
      have hmem : q ∈ s.quarantine.filter (fun other => other.id = q.id) := by
        rw [← hothers q.id hid]
        exact mem_filter.mpr ⟨hq, by simp⟩
      exact hinv.directories q (mem_filter.mp hmem).1
    · intro a ha
      rw [hanswered] at ha
      have hne : a.id ≠ n := by
        intro hid
        have hmem : a ∈ s.answers.filter (fun a => a.id = n) :=
          mem_filter.mpr ⟨ha, by simpa using hid⟩
        rw [hanswers] at hmem
        cases hmem
      obtain ⟨hlt, hsound⟩ := hinv.answers a ha
      exact ⟨hlt, hsound.congr (hothers a.id hne)⟩
  · intro m hm
    refine ⟨?_, ?_, hothers m hm, by rw [hanswered]⟩
    · intro hother
      rw [hexclusive] at hother
      exact absurd (Option.some.inj hother).symm hm
    · intro hother
      rw [hempty] at hother
      cases hother

/-- As long as no process holds the lease alone, objects may be added, and rows that name objects
which are there. -/
theorem commits_sharing (halone : s.exclusive = none)
    (hsame : t.exclusive = s.exclusive ∧ t.shared = s.shared ∧ t.quarantine = s.quarantine ∧
      t.answers = s.answers) (hobjects : ∀ sha, s.has sha = true → t.has sha = true)
    (hpublished : ∀ sha, t.Published sha → s.Published sha ∨ t.has sha = true) :
    (storageDiscipline env first).Commits n s t := by
  obtain ⟨hlease, hshared, hquarantine, hanswered⟩ := hsame
  refine ⟨?_, ?_, trivial⟩
  · intro k _ hinv
    refine ⟨?_, ?_, ?_, ?_⟩
    · intro hsome
      rw [hlease, halone] at hsome
      cases hsome
    · intro sha hsha
      rcases hpublished sha hsha with hold | hthere
      · rcases hinv.kept sha hold with hhas | hfirst
        · exact .inl (hobjects sha hhas)
        · exact .inr hfirst
      · exact .inl hthere
    · rw [hquarantine]
      exact hinv.directories
    · rw [hquarantine, hanswered]
      exact hinv.answers
  · intro m _
    refine ⟨?_, ?_, by rw [hquarantine], by rw [hanswered]⟩
    · intro hother
      rw [halone] at hother
      cases hother
    · intro hother
      exact ⟨hshared ▸ hother, hobjects⟩

theorem commits_acquire {exclusive : Bool} (halone : s.exclusive = none)
    (hempty : exclusive = true → s.shared = []) : (storageDiscipline env first).Commits n s
      (if exclusive then { s with exclusive := some n } else { s with shared := n :: s.shared }) := by
  cases exclusive with
  | true =>
    refine ⟨?_, ?_, trivial⟩
    · intro k _ hinv
      exact ⟨fun _ => hempty rfl, hinv.kept, hinv.directories, hinv.answers⟩
    intro m _
    refine ⟨fun hother => ?_, fun hother => ?_, rfl, rfl⟩
    · rw [halone] at hother
      cases hother
    · rw [hempty rfl] at hother
      cases hother
  | false =>
    refine ⟨?_, ?_, trivial⟩
    · intro k _ hinv
      refine ⟨fun hsome => ?_, hinv.kept, hinv.directories, hinv.answers⟩
      simp only [halone] at hsome
      cases hsome
    intro m _
    refine ⟨fun hother => ?_, fun hother => ⟨mem_cons_of_mem n hother, fun _ h => h⟩,
      rfl, rfl⟩
    rw [halone] at hother
    cases hother

theorem commits_release {answer : Option RetentionAnswer}
    (h : ∀ a, answer = some a → a.id = n ∧ a.Sound env s.quarantine) :
    (storageDiscipline env first).Commits n s { s with
      shared := s.shared.filter (fun m => m ≠ n)
      exclusive := if s.exclusive = some n then none else s.exclusive
      answers := s.answers ++ answer.toList } := by
  refine ⟨?_, ?_, trivial⟩
  · intro k hk hinv
    refine ⟨?_, hinv.kept, hinv.directories, ?_⟩
    · intro hsome
      have hheld : s.exclusive.isSome = true := by
        split at hsome
        · cases hsome
        · exact hsome
      simp only [hinv.apart hheld, filter_nil]
    · intro a ha
      rcases mem_append.mp ha with hold | hnew
      · exact hinv.answers a hold
      · obtain ⟨hid, hsound⟩ := h a (by simpa using hnew)
        exact ⟨hid ▸ hk, hsound⟩
  · intro m hm
    refine ⟨?_, ?_, rfl, ?_⟩
    · intro hother
      refine ⟨?_, rfl, rfl⟩
      have hne : s.exclusive ≠ some n := by
        rw [hother]
        intro hsame
        exact hm (Option.some.inj hsame)
      exact (if_neg hne).trans hother
    · intro hother
      exact ⟨mem_filter.mpr ⟨hother, by simpa using hm⟩, fun _ h => h⟩
    · have hnone : answer.toList.filter (fun a => a.id = m) = [] := by
        apply filter_eq_nil_iff.mpr
        intro a ha
        have hid := (h a (by simpa using ha)).1
        simpa [hid] using hm.symm
      simp only [filter_append, hnone, append_nil]

end Commits

section Rules

variable {env : StorageEnv} {first : Workspace} {n : Nat} {α : Type} {r : Unit} {s : Workspace}

variable {post : Except StorageFault α → Unit → Workspace → Prop}

theorem ensures_check {x : Except StorageFault α} (h : post x r s) :
    Program.Ensures (storageDiscipline env first) n (check x) post r s := by
  cases x with
  | ok a => exact h
  | error e => exact h

theorem ensures_attempt {m : StorageProgram α}
    {post : Except StorageFault (Except StorageFault α) → Unit → Workspace → Prop}
    (h : Program.Ensures (storageDiscipline env first) n m (fun x r s => post (.ok x) r s) r s) :
    Program.Ensures (storageDiscipline env first) n (attempt m) post r s := by
  apply Program.ensures_tryCatch
  apply Program.ensures_bind
  apply h.mono
  intro x r s hx
  cases x with
  | ok a => exact hx
  | error e => exact hx

variable {label : StorageLabel} {t : StorageInput → StorageTx α} {P : Workspace → Prop}

/-- An action in a state in which `P` holds, which others do not disturb. -/
theorem ensures_action (hstable : ∀ s s', Workspace.Relies n s s' → P s → P s') (hp : P s)
    (hgood : ∀ s, P s → (storageDiscipline env first).good n label s)
    (hfailed : ∀ s e, P s → (e = .failed ∨ ∃ i, t i s = .error e) → post (.error e) r s)
    (hok : ∀ s k i a s', P s → Workspace.Sound env first k s → t i s = .ok (a, s') →
      (storageDiscipline env first).Commits n s s' ∧ post (.ok a) r s') :
    Program.Ensures (storageDiscipline env first) n (action label t) post r s := by
  apply Program.ensures_atomically
  intro s' hrely k _ hinv _
  have hp' := hstable s s' hrely hp
  refine ⟨hgood s' hp', ?_⟩
  intro i
  split
  · refine ⟨fun a s'' hthrow => absurd hthrow throw_ok, ?_⟩
    intro e hthrow
    cases hthrow
    exact hfailed s' .failed hp' (.inl rfl)
  · exact ⟨fun a s'' ht => hok s' k i a s'' hp' hinv ht,
      fun e ht => hfailed s' e hp' (.inr ⟨i, ht⟩)⟩

theorem good_of_ne (h : ∀ id sha, label ≠ .move id sha) (s : Workspace) :
    (storageDiscipline env first).good n label s := by
  cases label with
  | move id sha => exact absurd rfl (h id sha)
  | _ => trivial

theorem ensures_read (hlabel : ∀ id sha, label ≠ .move id sha) {Q : α → Workspace → Prop}
    (hstable : ∀ s s', Workspace.Relies n s s' → P s → P s') (hp : P s)
    (hread : ∀ s i a s', P s → t i s = .ok (a, s') → s' = s ∧ Q a s)
    (herror : ∀ s e, P s → post (.error e) r s) (hok : ∀ s a, P s → Q a s → post (.ok a) r s) :
    Program.Ensures (storageDiscipline env first) n (action label t) post r s := by
  refine ensures_action hstable hp (fun s _ => good_of_ne hlabel s)
    (fun s e hs _ => herror s e hs) ?_
  intro s' k i a s'' hp' _ ht
  obtain ⟨rfl, hq⟩ := hread s' i a s'' hp' ht
  exact ⟨.refl _ _ _, hok _ a hp' hq⟩

end Rules

section Publications

variable {env : StorageEnv} {first : Workspace} {n : Nat} {s : Workspace}

/-- The process shares the lease and the object is there. -/
def Holds (n : Nat) (sha : Text) (s : Workspace) : Prop := n ∈ s.shared ∧ s.has sha = true

theorem shared_stable (s s' : Workspace) (h : Workspace.Relies n s s') (hs : n ∈ s.shared) :
    n ∈ s'.shared := (h.shared hs).1

variable {sha : Text}

theorem holds_stable (s s' : Workspace) (h : Workspace.Relies n s s')
    (hs : Holds n sha s) : Holds n sha s' :=
  ⟨(h.shared hs.1).1, (h.shared hs.1).2 sha hs.2⟩

theorem alone_of_shared {k : Nat} (hinv : Workspace.Sound env first k s) (hs : n ∈ s.shared) :
    s.exclusive = none := by
  cases hexclusive : s.exclusive with
  | none => rfl
  | some m =>
    have hempty : s.shared = [] := hinv.apart (by rw [hexclusive]; rfl)
    rw [hempty] at hs
    cases hs

/-- An operation that is safe under a share of the lease. -/
def Shares (env : StorageEnv) (first : Workspace) (n : Nat) (m : StorageProgram Unit) : Prop :=
  ∀ s, n ∈ s.shared →
    Program.Ensures (storageDiscipline env first) n m (fun _ _ _ => True) () s

theorem ensures_release {answer : Option RetentionAnswer} {P : Workspace → Prop}
    (hstable : ∀ s s', Workspace.Relies n s s' → P s → P s') (hp : P s)
    (h : ∀ s, P s → ∀ a, answer = some a → a.id = n ∧ a.Sound env s.quarantine) :
    Program.Ensures (storageDiscipline env first) n (release n answer) (fun _ _ _ => True) () s := by
  apply Program.ensures_atomically
  intro s' hrely k _ _ _
  refine ⟨trivial, fun i => ⟨?_, fun _ _ => trivial⟩⟩
  intro a s'' ht
  obtain ⟨-, rfl⟩ := Prod.mk.inj (modify_ok.mp ht)
  exact ⟨commits_release (h s' (hstable s s' hrely hp)), trivial⟩

theorem ensures_acquire {exclusive : Bool} {P : Workspace → Prop}
    {post : Except StorageFault Unit → Unit → Workspace → Prop}
    (hstable : ∀ s s', Workspace.Relies n s s' → P s → P s') (hp : P s)
    (herror : ∀ s e, P s → post (.error e) () s)
    (hok : ∀ s, P s → s.exclusive = none → (exclusive = true → s.shared = []) →
      post (.ok ()) () (if exclusive then { s with exclusive := some n }
        else { s with shared := n :: s.shared })) :
    Program.Ensures (storageDiscipline env first) n (acquire n exclusive) post () s := by
  refine ensures_action hstable hp (fun s _ => good_of_ne (by nofun) s)
    (fun s e hs _ => herror s e hs) ?_
  intro s' k i a s'' hp' _ ht
  simp only [bind_ok, get_ok] at ht
  obtain ⟨read, _, hget, ht⟩ := ht
  cases hget
  split at ht
  · exact absurd ht throw_ok
  next hbusy =>
    have halone : s'.exclusive = none := by
      cases hexclusive : s'.exclusive with
      | none => rfl
      | some m => simp [hexclusive] at hbusy
    have hempty : exclusive = true → s'.shared = [] := by
      intro htrue
      simpa [halone, htrue] using hbusy
    have hpost := hok s' hp' halone hempty
    have hcommits : (storageDiscipline env first).Commits n s' _ :=
      commits_acquire halone hempty
    cases exclusive with
    | true =>
      cases set_ok.mp ht
      exact ⟨hcommits, hpost⟩
    | false =>
      cases set_ok.mp ht
      exact ⟨hcommits, hpost⟩

variable {m : StorageProgram Unit}

theorem ensures_sharing (h : Shares env first n m) :
    Program.Ensures (storageDiscipline env first) n (sharing n m) (fun _ _ _ => True) () s := by
  have hbody : Program.Ensures (storageDiscipline env first) n (do
      acquire n false
      m) (fun _ _ _ => True) () s := by
    apply Program.ensures_bind
    apply ensures_acquire (P := fun _ => True) (fun _ _ _ _ => trivial) trivial
      (fun _ _ _ => trivial)
    intro s' _ _ _
    exact h _ mem_cons_self
  apply Program.ensures_bind
  apply ensures_attempt
  apply hbody.mono
  intro _ _ s' _
  exact ensures_release (P := fun _ => True) (fun _ _ _ _ => trivial) trivial
    (fun _ _ _ ha => by cases ha)

theorem ensures_exists {P : Workspace → Prop}
    {post : Except StorageFault Bool → Unit → Workspace → Prop}
    (hstable : ∀ s s', Workspace.Relies n s s' → P s → P s') (hp : P s)
    (herror : ∀ s e, P s → post (.error e) () s) (hok : ∀ s, P s → post (.ok (s.has sha)) () s) :
    Program.Ensures (storageDiscipline env first) n (exists? sha) post () s := by
  apply ensures_read (Q := fun a s => a = s.has sha) (by nofun) hstable hp ?_ herror ?_
  · intro s i a s' _ ht
    simp only [bind_ok, get_ok, pure_ok] at ht
    obtain ⟨_, _, hget, ht⟩ := ht
    cases hget
    cases ht
    exact ⟨rfl, rfl⟩
  · rintro s a hs rfl
    exact hok s hs

variable {size : Nat}

theorem ensures_placeObject (hs : n ∈ s.shared) :
    Program.Ensures (storageDiscipline env first) n (placeObject sha size)
      (fun _ _ s => n ∈ s.shared) () s := by
  refine ensures_action shared_stable hs (fun s _ => good_of_ne (by nofun) s) (fun _ _ h _ => h) ?_
  intro s' k i a s'' hs' hinv ht
  have halone := alone_of_shared hinv hs'
  simp only [bind_ok, get_ok] at ht
  obtain ⟨_, _, hget, ht⟩ := ht
  cases hget
  split at ht
  · cases set_ok.mp ht
    refine ⟨commits_sharing halone ⟨rfl, rfl, rfl, rfl⟩ ?_ (fun _ h => .inl h), hs'⟩
    intro other hother
    exact has_place.mpr (.inl hother)
  split at ht
  · exact absurd ht throw_ok
  · cases pure_ok.mp ht
    exact ⟨.refl _ _ _, hs'⟩

/-- A published object is there, and stays while the lease is shared. -/
theorem ensures_publishObject (hs : n ∈ s.shared) :
    Program.Ensures (storageDiscipline env first) n (publishObject sha size)
      (fun x _ s => match x with
        | .ok _ => Holds n sha s
        | .error _ => True) () s := by
  have hverify : ∀ s, n ∈ s.shared → Program.Ensures (storageDiscipline env first) n (do
      let intact ← exists? sha
      if intact = false then throw (.refused "content store integrity failure"))
      (fun x _ s => match x with
        | .ok _ => Holds n sha s
        | .error _ => True) () s := by
    intro s hs
    apply Program.ensures_bind
    refine ensures_exists shared_stable hs (fun _ _ _ => trivial) ?_
    intro s hs
    cases hhas : s.has sha with
    | true => exact Program.ensures_pure ⟨hs, hhas⟩
    | false => exact Program.ensures_throw trivial
  apply Program.ensures_bind
  refine ensures_exists shared_stable hs (fun _ _ _ => trivial) ?_
  intro s hs
  cases s.has sha with
  | true => exact hverify s hs
  | false =>
    apply Program.ensures_bind
    apply (ensures_placeObject hs).mono
    intro x _ s hs
    cases x with
    | ok a => exact hverify s hs
    | error e => trivial

theorem published_insertTarget {row : Row} {rows : List Row}
    (h : ∃ r ∈ insertTarget row rows, Workspace.targetSha r = sha) :
    (∃ r ∈ rows, Workspace.targetSha r = sha) ∨ Workspace.targetSha row = sha := by
  obtain ⟨r, hr, hsha⟩ := h
  unfold insertTarget at hr
  split at hr
  · exact .inl ⟨r, hr, hsha⟩
  rcases mem_append.mp hr with hold | hnew
  · exact .inl ⟨r, hold, hsha⟩
  · rw [mem_singleton.mp hnew] at hsha
    exact .inr hsha

theorem ensures_commitTarget {project name sha : Text} (hs : Holds n sha s) :
    Program.Ensures (storageDiscipline env first) n (commitTarget project name sha size)
      (fun _ _ s => n ∈ s.shared) () s := by
  refine ensures_action holds_stable hs (fun s _ => good_of_ne (by nofun) s) (fun _ _ h _ => h.1) ?_
  intro s' k i a s'' hs' hinv ht
  cases modify_ok.mp ht
  refine ⟨commits_sharing (alone_of_shared hinv hs'.1) ⟨rfl, rfl, rfl, rfl⟩ (fun _ h => h) ?_,
    hs'.1⟩
  rintro other (htarget | hevidence)
  · rcases published_insertTarget htarget with hold | rfl
    · exact .inl (.inl hold)
    · exact .inr hs'.2
  · exact .inl (.inr hevidence)

theorem ensures_commitEvidence {p : Publication} (hs : Holds n sha s) :
    Program.Ensures (storageDiscipline env first) n (commitEvidence p sha)
      (fun _ _ _ => True) () s := by
  refine ensures_action holds_stable hs (fun s _ => good_of_ne (by nofun) s) (fun _ _ _ _ => trivial) ?_
  intro s' k i a s'' hs' hinv ht
  cases modify_ok.mp ht
  refine ⟨commits_sharing (alone_of_shared hinv hs'.1) ⟨rfl, rfl, rfl, rfl⟩ (fun _ h => h) ?_,
    trivial⟩
  rintro other (htarget | ⟨row, hrow, hevidence⟩)
  · exact .inl (.inl htarget)
  rcases mem_append.mp hrow with hold | hnew
  · exact .inl (.inr ⟨row, hold, hevidence⟩)
  · rw [mem_singleton.mp hnew] at hevidence
    subst hevidence
    exact .inr hs'.2

theorem ensures_commitRows (hs : n ∈ s.shared) :
    Program.Ensures (storageDiscipline env first) n commitRows (fun _ _ s => n ∈ s.shared) () s := by
  refine ensures_action shared_stable hs (fun s _ => good_of_ne (by nofun) s) (fun _ _ h _ => h) ?_
  intro s' k i a s'' hs' hinv ht
  cases modify_ok.mp ht
  refine ⟨commits_sharing (alone_of_shared hinv hs') ⟨rfl, rfl, rfl, rfl⟩ (fun _ h => h) ?_, hs'⟩
  rintro other (⟨row, hrow, htarget⟩ | ⟨row, hrow, hevidence⟩)
  · exact .inl (.inl ⟨row, by simpa using (mem_filter.mp hrow).2, htarget⟩)
  · exact .inl (.inr ⟨row, by simpa using (mem_filter.mp hrow).2, hevidence⟩)

theorem ensures_readCore {P : Workspace → Prop}
    {post : Except StorageFault (Database CoreTable) → Unit → Workspace → Prop}
    (hstable : ∀ s s', Workspace.Relies n s s' → P s → P s') (hp : P s)
    (herror : ∀ s e, P s → post (.error e) () s) (hok : ∀ s, P s → post (.ok s.core) () s) :
    Program.Ensures (storageDiscipline env first) n readCore post () s := by
  apply ensures_read (Q := fun a s => a = s.core) (by nofun) hstable hp ?_ herror ?_
  · intro s i a s' _ ht
    simp only [bind_ok, get_ok, pure_ok] at ht
    obtain ⟨_, _, hget, ht⟩ := ht
    cases hget
    cases ht
    exact ⟨rfl, rfl⟩
  · rintro s a hs rfl
    exact hok s hs

theorem ensures_published (hm : ∀ s, Holds n sha s →
      Program.Ensures (storageDiscipline env first) n m (fun _ _ _ => True) () s)
    (hs : n ∈ s.shared) : Program.Ensures (storageDiscipline env first) n (do
      publishObject sha size
      m) (fun _ _ _ => True) () s := by
  apply Program.ensures_bind
  apply (ensures_publishObject hs).mono
  intro x _ s hs
  cases x with
  | ok a => exact hm s hs
  | error e => trivial

theorem ensures_importTarget (env : StorageEnv) (project name : Text) :
    Program.Ensures (storageDiscipline env first) n (importTarget env n project name)
      (fun _ _ _ => True) () s := by
  apply ensures_sharing
  intro s hs
  have hstage : ∀ s, n ∈ s.shared → Program.Ensures (storageDiscipline env first) n (do
      let staged ← action .stage fun i =>
        if i.regularFile = false then throw (.refused "target is not a regular file")
        else if 512 * 1024 * 1024 < i.bytes.length then
          throw (.refused "target exceeds 512 MiB import limit")
        else pure i.bytes
      publishObject (env.sha256 staged) staged.length
      commitTarget project name (env.sha256 staged) staged.length)
      (fun _ _ _ => True) () s := by
    intro s hs
    apply Program.ensures_bind
    apply ensures_read (Q := fun _ _ => True) (by nofun) shared_stable hs ?_
      (fun _ _ _ => trivial) ?_
    · intro s i a s' _ ht
      split at ht
      · exact absurd ht throw_ok
      split at ht
      · exact absurd ht throw_ok
      · cases pure_ok.mp ht
        exact ⟨rfl, trivial⟩
    · intro s staged hs _
      exact ensures_published (fun s hs => (ensures_commitTarget hs).mono fun _ _ _ _ => trivial) hs
  apply Program.ensures_bind
  refine ensures_readCore shared_stable hs (fun _ _ _ => trivial) ?_
  intro s hs
  dsimp only
  split
  · apply Program.ensures_bind
    exact Program.ensures_throw trivial
  · exact hstage s hs

theorem ensures_publishEvidence (env : StorageEnv) (p : Publication) :
    Program.Ensures (storageDiscipline env first) n (publishEvidence env n p)
      (fun _ _ _ => True) () s := by
  apply ensures_sharing
  intro s hs
  apply Program.ensures_bind
  refine ensures_readCore shared_stable hs (fun _ _ _ => trivial) ?_
  intro s hs
  cases p.check with
  | refused message => exact Program.ensures_throw trivial
  | published => exact Program.ensures_pure trivial
  | accepted => exact ensures_published (fun s hs => ensures_commitEvidence hs) hs

theorem ensures_adoptTargets (env : StorageEnv) (items : List (Text × Text × Text × Nat)) :
    Program.Ensures (storageDiscipline env first) n (adoptTargets n items)
      (fun _ _ _ => True) () s := by
  apply ensures_sharing
  intro s hs
  induction items generalizing s with
  | nil => exact Program.ensures_pure trivial
  | cons item rest ih =>
    obtain ⟨project, name, sha, size⟩ := item
    apply Program.ensures_bind
    refine ensures_exists shared_stable hs (fun _ _ _ => trivial) ?_
    intro s hs
    cases hhas : s.has sha with
    | false => exact ih s hs
    | true =>
      apply Program.ensures_bind
      apply (ensures_commitTarget ⟨hs, hhas⟩).mono
      intro x _ s hs
      cases x with
      | ok a => exact ih s hs
      | error e => trivial

theorem ensures_writeRows (env : StorageEnv) (commits : Nat) :
    Program.Ensures (storageDiscipline env first) n (writeRows n commits)
      (fun _ _ _ => True) () s := by
  apply ensures_sharing
  intro s hs
  induction commits generalizing s with
  | zero => exact Program.ensures_pure trivial
  | succ commits ih =>
    apply Program.ensures_bind
    apply (ensures_commitRows hs).mono
    intro x _ s hs
    cases x with
    | ok a => exact ih s hs
    | error e => trivial

end Publications

end Indago.Storage
