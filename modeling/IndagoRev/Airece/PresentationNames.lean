import IndagoRev.Numerals
import IndagoRev.Airece.VariableView

/-!
# Names of presentation variables

Every text that a name is made of is an identifier or continues one.  The collision
loop looks for a suffix among finitely many names, so it finds one, and the naming pass
never gives a name twice.
-/

namespace Airece.VariableRecovery

open StdText List

/-- A character of an identifier. -/
def isNameChar (c : Char) : Bool := c.isAlphanum || c = '_'

/-- A text whose characters may all stand in an identifier. -/
def IsNameTail (t : Text) : Prop := ∀ c ∈ t, isNameChar c = true

/-- ASCII letters, digits and underscores, at least one of them, and no digit first. -/
def IsIdentifier (t : Text) : Prop :=
  IsNameTail t ∧ ∃ c, t.head? = some c ∧ c.isDigit = false

instance (t : Text) : Decidable (IsNameTail t) := inferInstanceAs (Decidable (∀ _ ∈ t, _))

theorem IsNameTail.append {s t : Text} (hs : IsNameTail s) (ht : IsNameTail t) :
    IsNameTail (s ++ t) := by
  intro c hc
  rcases mem_append.mp hc with h | h
  · exact hs c h
  · exact ht c h

theorem IsNameTail.underscore {t : Text} (ht : IsNameTail t) : IsNameTail ('_' :: t) := by
  intro c hc
  rcases mem_cons.mp hc with rfl | h
  · rfl
  · exact ht c h

theorem isNameTail_decimal (n : Nat) : IsNameTail (decimal n) := by
  intro c hc
  have hdigit := isDigit_of_mem_decimal hc
  simp [isNameChar, Char.isAlphanum, hdigit]

theorem isNameTail_hexDigits (n : Nat) : IsNameTail (hexDigits n) := by
  intro c hc
  have hall : ∀ c ∈ "0123456789abcdef".toList, isNameChar c = true := by decide
  exact hall c (mem_hexDigits hc)

theorem IsIdentifier.append {s t : Text} (hs : IsIdentifier s) (ht : IsNameTail t) :
    IsIdentifier (s ++ t) := by
  obtain ⟨htail, c, hhead, hc⟩ := hs
  refine ⟨htail.append ht, c, ?_, hc⟩
  rw [head?_append, hhead]
  rfl

/-- A text that is written out, before anything that continues a name. -/
theorem isIdentifier_of_head {word t : Text} (hword : IsNameTail word)
    (hhead : ∃ c, word.head? = some c ∧ c.isDigit = false) (ht : IsNameTail t) :
    IsIdentifier (word ++ t) :=
  IsIdentifier.append ⟨hword, hhead⟩ ht

variable {output : Text}

theorem isNameTail_sanitizeChar (h : IsNameTail output) (c : Char) :
    IsNameTail (sanitizeChar output c) := by
  unfold sanitizeChar
  split
  · rename_i hc
    refine h.append ?_
    intro d hd
    rw [mem_singleton.mp hd]
    exact hc
  · split
    · exact h
    · exact h.append (by decide)

theorem isNameTail_foldl_sanitizeChar (input : Text) (h : IsNameTail output) :
    IsNameTail (input.foldl sanitizeChar output) := by
  induction input generalizing output with
  | nil => exact h
  | cons c input ih => exact ih (isNameTail_sanitizeChar h c)

theorem isNameTail_dropUnderscores (h : IsNameTail output) :
    IsNameTail (dropUnderscores output) := by
  intro c hc
  rw [dropUnderscores, mem_reverse] at hc
  exact h c (mem_reverse.mp ((dropWhile_sublist _).mem hc))

/-- Whatever the input is, the sanitized name is an identifier. -/
theorem isIdentifier_sanitizeName (input : Text) : IsIdentifier (sanitizeName input) := by
  have htail : IsNameTail (dropUnderscores (input.foldl sanitizeChar [])) :=
    isNameTail_dropUnderscores (isNameTail_foldl_sanitizeChar input (by decide))
  unfold sanitizeName
  generalize dropUnderscores (input.foldl sanitizeChar []) = output at htail
  cases output with
  | nil => exact ⟨by decide, 'u', rfl, rfl⟩
  | cons c rest =>
    simp only [isEmpty_cons, Bool.false_eq_true, if_false]
    by_cases hc : c.isDigit = true
    · rw [if_pos hc]
      exact ⟨htail.underscore, '_', rfl, rfl⟩
    · rw [if_neg hc]
      exact ⟨htail, c, rfl, by simpa using hc⟩

theorem isIdentifier_stackName (offset : Int) : IsIdentifier (stackName offset) := by
  unfold stackName
  split
  · exact ⟨by decide, 's', rfl, rfl⟩
  · split
    · exact isIdentifier_of_head (by decide) ⟨'s', rfl, rfl⟩ (isNameTail_hexDigits _)
    · exact isIdentifier_of_head (by decide) ⟨'s', rfl, rfl⟩ (isNameTail_hexDigits _)

theorem isIdentifier_globalName (context : VariableContext) (address : Nat) :
    IsIdentifier (globalName context address) := by
  unfold globalName
  split
  · exact isIdentifier_sanitizeName _
  · exact isIdentifier_of_head (by decide) ⟨'g', rfl, rfl⟩ (isNameTail_hexDigits _)

theorem isIdentifier_roleName (c : Candidate) : IsIdentifier (roleName c) := by
  unfold roleName
  split
  · exact isIdentifier_of_head (by decide) ⟨'a', rfl, rfl⟩ (isNameTail_decimal _)
  split
  · exact ⟨by decide, 'r', rfl, rfl⟩
  split
  · exact isIdentifier_of_head (by decide) ⟨'f', rfl, rfl⟩ (isNameTail_decimal _)
  split
  · exact isIdentifier_of_head (by decide) ⟨'b', rfl, rfl⟩ (isNameTail_decimal _)
  · exact isIdentifier_of_head (by decide) ⟨'t', rfl, rfl⟩ (isNameTail_decimal _)

variable (m : XairModule)

theorem isIdentifier_nameForCandidate (context : VariableContext)
    (c : Candidate) : IsIdentifier (nameForCandidate m context c) := by
  unfold nameForCandidate
  split
  · exact isIdentifier_sanitizeName _
  split
  · rename_i id _
    have hcallee := (isIdentifier_sanitizeName (context.callName m id)).1
    rw [append_assoc]
    exact isIdentifier_of_head (by decide) ⟨'c', rfl, rfl⟩ (hcallee.append (by decide))
  split
  · split
    · exact isIdentifier_globalName context _
    · exact isIdentifier_roleName c
  · exact isIdentifier_roleName c

theorem isIdentifier_stackVariable (scope : VariableScope) (key : StackKey)
    (record : StorageRecord) : IsIdentifier (stackVariable m scope key record).nameText := by
  refine IsIdentifier.append ?_ ?_
  · split
    · exact isIdentifier_of_head (by decide) ⟨'a', rfl, rfl⟩ (isNameTail_decimal _)
    · exact isIdentifier_stackName _
  · split
    · exact (isNameTail_decimal _).underscore
    · exact fun c hc => nomatch hc

/-- All names of a list of variables are identifiers. -/
def Identifiers (vars : List PresentationVariable) : Prop :=
  ∀ v ∈ vars, IsIdentifier v.nameText

theorem identifiers_joinArgument {c : Candidate} {vars joined : List PresentationVariable}
    (h : Identifiers vars) (hjoin : joinArgument c vars = some joined) : Identifiers joined := by
  induction vars generalizing joined with
  | nil => cases hjoin
  | cons item rest ih =>
    have hitem := h item (by simp)
    have hrest : Identifiers rest := fun v hv => h v (by simp [hv])
    unfold joinArgument at hjoin
    split at hjoin
    · injection hjoin with hjoin
      subst hjoin
      intro v hv
      rcases mem_cons.mp hv with rfl | hv
      · exact hitem
      · exact hrest v hv
    · obtain ⟨others, hothers, rfl⟩ := Option.map_eq_some_iff.mp hjoin
      intro v hv
      rcases mem_cons.mp hv with rfl | hv
      · exact hitem
      · exact ih hrest hothers v hv

variable {vars : List PresentationVariable}

theorem identifiers_presentCandidate {m : XairModule} {context : VariableContext}
    (h : Identifiers vars) (c : Candidate) : Identifiers (presentCandidate m context vars c) := by
  unfold presentCandidate
  split
  · dsimp only
    split
    · rename_i joined hjoin
      split at hjoin
      · exact identifiers_joinArgument h hjoin
      · cases hjoin
    · intro v hv
      rcases mem_append.mp hv with hv | hv
      · exact h v hv
      · rw [mem_singleton.mp hv]
        exact isIdentifier_nameForCandidate m context _
  · exact h

theorem identifiers_presentCandidates (context : VariableContext)
    (candidates : ValueId → Candidate) : Identifiers (presentCandidates m context candidates) := by
  have hfold : ∀ (cs : List Candidate) (vars : List PresentationVariable),
      Identifiers vars → Identifiers (cs.foldl (presentCandidate m context) vars) := by
    intro cs
    induction cs with
    | nil => exact fun _ h => h
    | cons c cs ih => exact fun _ h => ih _ (identifiers_presentCandidate h c)
  exact hfold _ [] (fun v hv => nomatch hv)

/-- The names are identifiers before collisions are looked for. -/
theorem identifiers_unnamedVariables (context : VariableContext)
    (scope : VariableScope) (options : VariableOptions) :
    Identifiers (unnamedVariables m context scope options) := by
  intro v hv
  have hmem := (mem_insertionSort _).mp hv
  rcases mem_append.mp (mem_of_mem_filter hmem) with hcases | hglobal
  · rcases mem_append.mp hcases with hcandidate | hstack
    · exact identifiers_presentCandidates m context _ v hcandidate
    · obtain ⟨entry, _, rfl⟩ := mem_map.mp hstack
      exact isIdentifier_stackVariable m scope entry.1 entry.2
  · obtain ⟨entry, _, rfl⟩ := mem_map.mp hglobal
    exact isIdentifier_globalName context _

variable {names : List Text} {base text name : Text} {rounds suffix : Nat}

theorem freeName_free (h : freeName names base rounds suffix text = some name) : name ∉ names := by
  induction rounds generalizing suffix text with
  | zero => cases h
  | succ rounds ih =>
    unfold freeName at h
    split at h
    · exact ih h
    · rename_i hfree
      injection h with h
      exact h ▸ hfree

theorem isIdentifier_freeName (hbase : IsIdentifier base) (htext : IsIdentifier text)
    (h : freeName names base rounds suffix text = some name) : IsIdentifier name := by
  induction rounds generalizing suffix text with
  | zero => cases h
  | succ rounds ih =>
    unfold freeName at h
    split at h
    · exact ih (hbase.append (isNameTail_decimal _).underscore) h
    · injection h with h
      exact h ▸ htext

theorem freeName_more {rounds more suffix : Nat}
    (h : freeName names base rounds suffix text = some name) (hmore : rounds ≤ more) :
    freeName names base more suffix text = some name := by
  induction rounds generalizing suffix text more with
  | zero => cases h
  | succ rounds ih =>
    obtain ⟨more, rfl⟩ : ∃ k, more = k + 1 := ⟨more - 1, by omega⟩
    unfold freeName at h ⊢
    split at h
    · rename_i htaken
      rw [if_pos htaken]
      exact ih h (by omega)
    · rename_i hfree
      rw [if_neg hfree]
      exact h

/-- A loop that has used up its rounds has seen that many suffixes taken. -/
theorem taken_of_freeName_none {base text : Text}
    (h : freeName names base (rounds + 1) suffix text = none) :
    ∀ k, k < rounds → base ++ '_' :: decimal (suffix + 1 + k) ∈ names := by
  induction rounds generalizing suffix text with
  | zero => exact fun k hk => absurd hk (Nat.not_lt_zero k)
  | succ rounds ih =>
    unfold freeName at h
    split at h
    · intro k hk
      cases k with
      | zero =>
        unfold freeName at h
        split at h
        · rename_i htaken
          exact htaken
        · cases h
      | succ k =>
        have hnext := ih h k (by omega)
        rwa [show suffix + 1 + 1 + k = suffix + 1 + (k + 1) by omega] at hnext
    · cases h

theorem suffix_injective (base : Text) (start : Nat) :
    Function.Injective (fun k : Nat => base ++ '_' :: decimal (start + k)) := by
  intro j k h
  have hdigits : decimal (start + j) = decimal (start + k) := by simpa using h
  have hvalue := congrArg ofDecimal hdigits
  simp only [ofDecimal_decimal] at hvalue
  omega

variable {rounds : Nat}

theorem exists_freeName (names : List Text) (base text : Text)
    (hrounds : names.length + 2 ≤ rounds) (suffix : Nat) :
    ∃ name, freeName names base rounds suffix text = some name := by
  have hsome : freeName names base (names.length + 1 + 1) suffix text ≠ none := by
    intro hnone
    have htaken := taken_of_freeName_none hnone
    have hnodup : ((List.range (names.length + 1)).map
        (fun k => base ++ '_' :: decimal (suffix + 1 + k))).Nodup :=
      (nodup_range).map (suffix_injective base (suffix + 1))
    have hsub : ((List.range (names.length + 1)).map
        (fun k => base ++ '_' :: decimal (suffix + 1 + k))) ⊆ names := by
      intro t ht
      obtain ⟨k, hk, rfl⟩ := mem_map.mp ht
      exact htaken k (mem_range.mp hk)
    have hlength := (subperm_of_subset hnodup hsub).length_le
    simp only [length_map, length_range] at hlength
    omega
  obtain ⟨name, hname⟩ := Option.ne_none_iff_exists'.mp hsome
  exact ⟨name, freeName_more hname (by omega)⟩

/-- What a variable is named with enough rounds: an identifier that is free. -/
theorem exists_claimName {v : PresentationVariable}
    (hrounds : names.length + 2 ≤ rounds) (hv : IsIdentifier v.nameText) :
    ∃ name, (∀ more, rounds ≤ more → claimName names more v = some name) ∧ name ∉ names ∧
      IsIdentifier name := by
  by_cases htaken : v.nameText ∈ names
  · have hfirst : IsIdentifier (if v.primaryValue ≠ invalidId then
        v.nameText ++ "_v" ++ decimal v.primaryValue else v.nameText ++ "_2") := by
      split
      · exact (hv.append (by decide)).append (isNameTail_decimal _)
      · exact hv.append (by decide)
    obtain ⟨name, hname⟩ := exists_freeName names v.nameText
      (if v.primaryValue ≠ invalidId then
        v.nameText ++ "_v" ++ decimal v.primaryValue else v.nameText ++ "_2")
      hrounds 2
    refine ⟨name, fun more hmore => ?_, freeName_free hname, isIdentifier_freeName hv hfirst hname⟩
    rw [claimName, if_pos htaken]
    exact freeName_more hname hmore
  · exact ⟨v.nameText, fun more _ => by rw [claimName, if_neg htaken], htaken, hv⟩

/-- The naming pass ends, and its names are identifiers, different from each other and from
those that were taken. -/
theorem exists_nameVariables
    (hrounds : names.length + vars.length + 1 ≤ rounds) (h : Identifiers vars) :
    ∃ named, (∀ more, rounds ≤ more → nameVariables more names vars = some named) ∧
      Identifiers named ∧ (named.map PresentationVariable.nameText).Nodup ∧
      ∀ v ∈ named, v.nameText ∉ names := by
  induction vars generalizing names with
  | nil => exact ⟨[], fun _ _ => rfl, fun v hv => (nomatch hv), nodup_nil,
      fun v hv => (nomatch hv)⟩
  | cons v rest ih =>
    simp only [length_cons] at hrounds
    obtain ⟨name, hclaim, hfree, hname⟩ :=
      exists_claimName (show names.length + 2 ≤ rounds by omega)
        (h v (by simp))
    obtain ⟨named, hnamed, hidentifiers, hnodup, hnew⟩ :=
      ih (show (name :: names).length + rest.length + 1 ≤ rounds by
        rw [length_cons]; omega) (fun other hother => h other (by simp [hother]))
    refine ⟨{ v with nameText := name } :: named, ?_, ?_, ?_, ?_⟩
    · intro more hmore
      rw [nameVariables, hclaim more hmore, Option.bind_some, hnamed more hmore]
      rfl
    · intro other hother
      rcases mem_cons.mp hother with rfl | hother
      · exact hname
      · exact hidentifiers other hother
    · rw [map_cons, nodup_cons]
      refine ⟨?_, hnodup⟩
      intro hmem
      obtain ⟨other, hother, heq⟩ := mem_map.mp hmem
      exact hnew other hother (heq ▸ by simp)
    · intro other hother
      rcases mem_cons.mp hother with rfl | hother
      · exact hfree
      · exact fun hmem => hnew other hother (by simp [hmem])

/-- Names of presentation variables are unique identifiers, and the collision loop ends:
with two rounds more than there are variables, or any more, the view is the same. -/
theorem presentation_names_unique (context : VariableContext)
    (scope : VariableScope) (options : VariableOptions) :
    ∃ view, (∀ rounds, (unnamedVariables m context scope options).length + 2 ≤ rounds →
        buildVariables m context rounds scope options = some view) ∧
      (view.vars.map PresentationVariable.nameText).Nodup ∧
      ∀ v ∈ view.vars, IsIdentifier v.nameText := by
  by_cases hvalid : scope.valid m = true
  · obtain ⟨named, hnamed, hidentifiers, hnodup, _⟩ :=
      exists_nameVariables
        (show ([] : List Text).length + (unnamedVariables m context scope options).length + 1 ≤
          (unnamedVariables m context scope options).length + 2 by rw [length_nil]; omega)
        (identifiers_unnamedVariables m context scope options)
    by_cases hmany : options.maxVariables ≠ 0 ∧ options.maxVariables < named.length
    · refine ⟨{ functionAddress := scope.functionAddress
                vars := named.take options.maxVariables
                truncated := true
                omittedVariables := named.length - options.maxVariables }, ?_, ?_, ?_⟩
      · intro rounds hrounds
        rw [buildVariables, if_pos hvalid, hnamed rounds hrounds, Option.map_some, if_pos hmany]
      · exact ((take_sublist _ _).map _).nodup hnodup
      · exact fun v hv => hidentifiers v (mem_of_mem_take hv)
    · refine ⟨{ functionAddress := scope.functionAddress, vars := named }, ?_, ?_, ?_⟩
      · intro rounds hrounds
        rw [buildVariables, if_pos hvalid, hnamed rounds hrounds, Option.map_some, if_neg hmany]
      · exact hnodup
      · exact hidentifiers
  · refine ⟨{ functionAddress := scope.functionAddress, badArgument := true }, ?_, ?_, ?_⟩
    · intro rounds _
      rw [buildVariables, if_neg hvalid]
    · exact nodup_nil
    · exact fun v hv => (nomatch hv)

end Airece.VariableRecovery
