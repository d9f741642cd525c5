import IndagoRev.Airece.VariableView

/-!
# Labels of arguments

`propagate` gives the label of an argument to every parameter that it is passed for on
some edge, and the edge that comes last decides.  A label therefore says that there is
a way from the entry parameter, not that every way comes from there.  What it promises
holds in the executions whose edges pass, for a parameter that an argument can reach,
only what that argument can reach.
-/

namespace Airece.VariableRecovery

open StdText List

variable {m : XairModule} {context : VariableContext} {scope : VariableScope}
  {options : VariableOptions}

/-- An entry parameter that carries an argument. -/
def EntryArgument (m : XairModule) (scope : VariableScope) (index : Nat) (p : ValueId) : Prop :=
  p ∈ m.blockParams scope.entryBlock ∧
    abiArgumentIndex (m.valueName p) scope.callingConvention = some index

/-- There is a way from the entry parameter of an argument along the edges of the scope. -/
inductive Carried (m : XairModule) (scope : VariableScope) (index : Nat) : ValueId → Prop
  | entry {p : ValueId} (h : EntryArgument m scope index p) : Carried m scope index p
  | pass {a p : ValueId} (h : Carried m scope index a) (hslot : (a, p) ∈ scopeSlots m scope) :
      Carried m scope index p

theorem mem_blockParams_of_scopeSlots {a p : ValueId} (h : (a, p) ∈ scopeSlots m scope) :
    ∃ b, p ∈ m.blockParams b := by
  obtain ⟨b, _, hslot⟩ := mem_flatMap.mp h
  unfold blockSlots at hslot
  cases hterm : m.terminator b with
  | none => simp [hterm] at hslot
  | some t =>
    rw [hterm] at hslot
    obtain ⟨edge, _, hpair⟩ := mem_flatMap.mp hslot
    split at hpair
    · exact ⟨edge.1, (of_mem_zip hpair).2⟩
    · cases hpair

variable {p : ValueId}

theorem Carried.param {index : Nat} (h : Carried m scope index p) : ∃ b, p ∈ m.blockParams b := by
  cases h with
  | entry h => exact ⟨scope.entryBlock, h.1⟩
  | pass _ hslot => exact mem_blockParams_of_scopeSlots hslot

theorem Carried.exists_entry {index : Nat} (h : Carried m scope index p) :
    ∃ a, EntryArgument m scope index a := by
  induction h with
  | entry h => exact ⟨_, h⟩
  | pass _ _ ih => exact ih

/-- A property of the candidates of all values. -/
def Each (P : ValueId → Candidate → Prop) (candidates : ValueId → Candidate) : Prop :=
  ∀ v, P v (candidates v)

variable {candidates : ValueId → Candidate} {c : Candidate} {P : ValueId → Candidate → Prop}

variable {v : ValueId}

theorem Each.update (h : Each P candidates) (hc : P v c) :
    Each P (Function.update candidates v c) := by
  intro w
  by_cases hw : w = v
  · subst hw
    rwa [Function.update_self]
  · rw [Function.update_of_ne hw]
    exact h w

/-- What the walk over the blocks may do to a candidate without making it an argument. -/
structure WalkKeeps (P : ValueId → Candidate → Prop) : Prop where
  select : ∀ v c roles, .argument ∉ roles → P v c → P v (c.select v roles)
  call : ∀ v c id, P v c → P v { c with callOperation := some id }
  suppress : ∀ v c, P v c → P v { c with suppressBuffer := true }

namespace Collected

variable {P : ValueId → Candidate → Prop} {s : Collected}

theorem keeps_select (hP : WalkKeeps P) (h : Each P s.candidates) (v : ValueId)
    {roles : List VariableRole} (hroles : .argument ∉ roles) :
    Each P (s.select v roles).candidates :=
  h.update (hP.select v _ roles hroles (h v))

theorem keeps_enter (h : Each P s.candidates) (v : ValueId) : Each P (s.enter m v).candidates := by
  unfold enter
  split
  · exact h
  · exact h

theorem keeps_use (h : Each P s.candidates) (meaningful : Bool) (v : ValueId) :
    Each P (s.use m meaningful v).candidates := by
  unfold use
  split
  · exact h
  · exact h

theorem keeps_visitCall (hP : WalkKeeps P) (h : Each P s.candidates) (id : OpId) (o : XairOp) :
    Each P (s.visitCall m id o).candidates := by
  have hresult : ∀ t : Collected, (t = s ∨ ∃ result, t = (s.select result [.callResult]).adjust
      result (fun c => { c with callOperation := some id })) → Each P t.candidates := by
    rintro _ (rfl | ⟨result, rfl⟩)
    · exact h
    · have hselected := keeps_select hP h result
        (show VariableRole.argument ∉ [.callResult] by decide)
      exact hselected.update (hP.call _ _ _ (hselected result))
  unfold visitCall
  dsimp only
  split
  · split
    · exact keeps_select hP (hresult _ (by split; exacts [.inr ⟨_, rfl⟩, .inl rfl])) _ (by decide)
    · exact hresult _ (by split; exacts [.inr ⟨_, rfl⟩, .inl rfl])
  · exact hresult _ (by split; exacts [.inr ⟨_, rfl⟩, .inl rfl])

theorem keeps_visitAccess (hP : WalkKeeps P) (h : Each P s.candidates) (o : XairOp) :
    Each P (s.visitAccess m context options o).candidates := by
  unfold visitAccess
  split
  · exact h
  split
  · exact h.update (hP.suppress _ _ (h _))
  split
  · exact h.update (hP.suppress _ _ (h _))
  · split
    · exact keeps_select hP h _ (by decide)
    · exact h

theorem keeps_visitResult (hP : WalkKeeps P) (h : Each P s.candidates) (r : ValueId) :
    Each P (s.visitResult m context r).candidates := by
  unfold visitResult
  split
  · have hselected := keeps_select hP h r (show VariableRole.argument ∉ [.global] by decide)
    exact hselected.update (hP.suppress _ _ (hselected r))
  · exact h

theorem keeps_visitOp (hP : WalkKeeps P) (h : Each P s.candidates) (id : OpId) (o : XairOp) :
    Each P (s.visitOp m context options id o).candidates := by
  unfold visitOp
  dsimp only
  refine List.foldlRecOn (motive := fun s : Collected => Each P s.candidates) _ _
    (keeps_visitAccess hP ?_ o) (fun s hs r _ => keeps_visitResult hP hs r)
  have hinputs : Each P (o.inputs.foldl (fun s v => s.use m (o.opcode != .call) v) s).candidates :=
    List.foldlRecOn (motive := fun s : Collected => Each P s.candidates) _ _ h
      (fun s hs v _ => keeps_use hs _ v)
  have hresults := List.foldlRecOn (motive := fun s : Collected => Each P s.candidates)
    o.results (fun s r => s.enter m r) hinputs (fun s hs r _ => keeps_enter hs r)
  split
  · exact keeps_visitCall hP hresults id o
  · exact hresults

theorem keeps_visitTerminator (hP : WalkKeeps P) (h : Each P s.candidates) (t : Terminator) :
    Each P (s.visitTerminator m t).candidates := by
  have htrue := List.foldlRecOn (motive := fun s : Collected => Each P s.candidates)
    t.trueArgs (fun s v => s.use m false v) (keeps_use (m := m) h true t.condition)
    (fun s hs v _ => keeps_use hs false v)
  have hfalse := List.foldlRecOn (motive := fun s : Collected => Each P s.candidates)
    t.falseArgs (fun s v => s.use m false v) htrue (fun s hs v _ => keeps_use hs false v)
  unfold visitTerminator
  dsimp only
  split
  · split
    · exact hfalse.update (hP.select _ _ _ (by decide) (hfalse _))
    · exact hfalse
  · exact hfalse

theorem keeps_visitBlock (hP : WalkKeeps P) (h : Each P s.candidates) (b : BlockId) :
    Each P (s.visitBlock m context options b).candidates := by
  have hparams := List.foldlRecOn (motive := fun s : Collected => Each P s.candidates)
    (m.blockParams b) (fun s p => s.enter m p) h (fun s hs p _ => keeps_enter hs p)
  unfold visitBlock
  dsimp only
  generalize hwalked : List.foldl _ _ (m.blockOps b) = walked
  have hops : Each P walked.candidates := by
    rw [← hwalked]
    refine List.foldlRecOn (motive := fun s : Collected => Each P s.candidates) _ _ hparams ?_
    intro s hs id _
    split
    · exact keeps_visitOp hP hs _ _
    · exact hs
  split
  · exact keeps_visitTerminator hP hops _
  · exact hops

end Collected

theorem keeps_collect (hP : WalkKeeps P)
    (hfresh : ∀ v, P v {}) : Each P (collect m context scope options).candidates :=
  List.foldlRecOn (motive := fun s : Collected => Each P s.candidates) _ _ hfresh
    (fun _ hs b _ => Collected.keeps_visitBlock hP hs b)

/-- A candidate stands for the value that it was selected for, and if it is an argument,
that argument reaches it. -/
def Labelled (m : XairModule) (scope : VariableScope) (v : ValueId) (c : Candidate) : Prop :=
  (c.selected = true → c.value = v) ∧
    (.argument ∈ c.roles → Carried m scope c.argumentIndex v)

theorem mem_select {roles : List VariableRole} {role : VariableRole} :
    role ∈ (c.select v roles).roles ↔ role ∈ c.roles ∨ role ∈ roles := mem_union_iff

theorem Labelled.select {v : ValueId} {c : Candidate} (h : Labelled m scope v c)
    {roles : List VariableRole} (hroles : .argument ∉ roles) :
    Labelled m scope v (c.select v roles) :=
  ⟨fun _ => rfl, fun harg => h.2 ((mem_select.mp harg).resolve_right hroles)⟩

theorem labelled_collect : Each (Labelled m scope) (collect m context scope options).candidates :=
  keeps_collect
    { select := fun _ _ _ hroles h => h.select hroles
      call := fun _ _ _ h => h
      suppress := fun _ _ h => h }
    (fun _ => ⟨fun h => (nomatch h), fun h => (nomatch h)⟩)

theorem labelled_selectArguments {relevance : ValueId → Nat}
    (h : Each (Labelled m scope) candidates) :
    Each (Labelled m scope) (selectArguments m scope relevance candidates) := by
  have hsteps : ∀ (params : List ValueId) (candidates : ValueId → Candidate),
      (∀ p ∈ params, p ∈ m.blockParams scope.entryBlock) → Each (Labelled m scope) candidates →
      Each (Labelled m scope) (params.foldl (selectArgument m scope relevance) candidates) := by
    intro params
    induction params with
    | nil => exact fun _ _ h => h
    | cons p params ih =>
      intro candidates hparams h
      refine ih _ (fun q hq => hparams q (by simp [hq])) ?_
      unfold selectArgument
      split
      · exact h
      split
      · exact h
      rename_i index hindex
      split
      · exact h
      · exact h.update ⟨fun _ => rfl, fun _ => .entry ⟨hparams p (by simp), hindex⟩⟩
  exact hsteps _ candidates (fun _ hp => hp) h

theorem labelled_pushLabel {s : (ValueId → Candidate) × Bool} (h : Each (Labelled m scope) s.1)
    {slot : ValueId × ValueId} (hslot : slot ∈ scopeSlots m scope) :
    Each (Labelled m scope) (pushLabel m s slot).1 := by
  unfold pushLabel
  split
  · exact h
  rename_i hskip
  simp only [not_or, not_not] at hskip
  have hsource : Carried m scope (s.1 slot.1).argumentIndex slot.1 := (h slot.1).2 hskip.2.1
  dsimp only
  split
  · exact h.update ⟨fun _ => rfl, fun _ => hsource.pass hslot⟩
  rename_i hsame
  refine h.update ⟨fun _ => rfl, fun _ => ?_⟩
  rw [not_not.mp hsame]
  exact hsource.pass hslot

theorem labelled_labelPass (h : Each (Labelled m scope) candidates) :
    Each (Labelled m scope) (labelPass m scope candidates).1 := by
  have hsteps : ∀ (slots : List (ValueId × ValueId)) (s : (ValueId → Candidate) × Bool),
      (∀ slot ∈ slots, slot ∈ scopeSlots m scope) → Each (Labelled m scope) s.1 →
      Each (Labelled m scope) (slots.foldl (pushLabel m) s).1 := by
    intro slots
    induction slots with
    | nil => exact fun _ _ h => h
    | cons slot slots ih =>
      intro s hslots h
      exact ih _ (fun other hother => hslots other (by simp [hother]))
        (labelled_pushLabel h (hslots slot (by simp)))
  exact hsteps _ (candidates, false) (fun _ h => h) h

/-- However many passes there are, a label has a way from its argument. -/
theorem labelled_propagateLabels (h : Each (Labelled m scope) candidates) :
    Each (Labelled m scope) (propagateLabels m scope candidates) := by
  have hpasses : ∀ (n : Nat) (candidates : ValueId → Candidate),
      Each (Labelled m scope) candidates →
      Each (Labelled m scope) (passes (labelPass m scope) n candidates) := by
    intro n
    induction n with
    | zero => exact fun _ h => h
    | succ n ih =>
      intro candidates h
      rw [passes]
      split
      · exact ih _ (labelled_labelPass h)
      · exact labelled_labelPass h
  exact hpasses _ candidates h

theorem labelled_selectSymbols {inScope : ValueId → Bool} (h : Each (Labelled m scope) candidates) :
    Each (Labelled m scope) (selectSymbols context m inScope candidates) :=
  List.foldlRecOn (motive := Each (Labelled m scope)) _ _ h
    (fun _ hs _ _ => by
      split
      · exact hs.update ((hs _).select (by decide))
      · exact hs)

theorem labelled_selectRepeated {uses : ValueId → Nat} (h : Each (Labelled m scope) candidates) :
    Each (Labelled m scope) (selectRepeated m options uses candidates) := by
  unfold selectRepeated
  split
  · intro v
    dsimp only
    split
    · exact (h v).select (by decide)
    · exact h v
  · exact h

/-- The values of a register argument are those that it reaches. -/
def ArgumentValues (m : XairModule) (scope : VariableScope) (item : PresentationVariable) : Prop :=
  .argument ∈ item.roles → item.storageIdentity = false →
    ∀ v ∈ item.values, Carried m scope item.argumentIndex v

/-- All variables of a list have such values. -/
def AllArgumentValues (m : XairModule) (scope : VariableScope)
    (items : List PresentationVariable) : Prop :=
  ∀ item ∈ items, ArgumentValues m scope item

theorem argument_of_effective (h : .argument ∈ c.effective.roles) : .argument ∈ c.roles := by
  unfold Candidate.effective at h
  split at h
  · exact mem_of_mem_filter h
  · exact h

theorem effective_argumentIndex (c : Candidate) : c.effective.argumentIndex = c.argumentIndex := by
  unfold Candidate.effective
  split <;> rfl

theorem effective_value (c : Candidate) : c.effective.value = c.value := by
  unfold Candidate.effective
  split <;> rfl

theorem argumentValues_joinArgument {items joined : List PresentationVariable}
    (h : AllArgumentValues m scope items) (hc : Carried m scope c.argumentIndex c.value)
    (hjoin : joinArgument c items = some joined) : AllArgumentValues m scope joined := by
  induction items generalizing joined with
  | nil => cases hjoin
  | cons item rest ih =>
    have hitem := h item (by simp)
    have hrest : AllArgumentValues m scope rest := fun v hv => h v (by simp [hv])
    unfold joinArgument at hjoin
    split at hjoin
    · rename_i hargument
      simp only [PresentationVariable.isArgument, Bool.and_eq_true, decide_eq_true_eq,
        Bool.not_eq_true', beq_iff_eq] at hargument
      injection hjoin with hjoin
      subst hjoin
      intro v hv
      rcases mem_cons.mp hv with rfl | hv
      · intro _ hstorage w hw
        rcases mem_append.mp hw with hw | hw
        · exact hitem hargument.1.1 hstorage w hw
        · rw [mem_singleton.mp hw]
          exact hargument.2 ▸ hc
      · exact hrest v hv
    · obtain ⟨others, hothers, rfl⟩ := Option.map_eq_some_iff.mp hjoin
      intro v hv
      rcases mem_cons.mp hv with rfl | hv
      · exact hitem
      · exact ih hrest hothers v hv

theorem argumentValues_presentCandidate {items : List PresentationVariable}
    (h : AllArgumentValues m scope items) (hc : Labelled m scope v c) :
    AllArgumentValues m scope (presentCandidate m context items c) := by
  unfold presentCandidate
  split
  · rename_i hpresented
    have hselected : c.selected = true := by
      simp only [Candidate.presented, Bool.and_eq_true] at hpresented
      exact hpresented.1.1.1
    have hcarried : .argument ∈ c.effective.roles →
        Carried m scope c.effective.argumentIndex c.effective.value := by
      intro harg
      rw [effective_argumentIndex, effective_value, hc.1 hselected]
      exact hc.2 (argument_of_effective harg)
    dsimp only
    split
    · rename_i joined hjoin
      split at hjoin
      · rename_i hargument
        simp only [Candidate.isArgument, Bool.and_eq_true, decide_eq_true_eq] at hargument
        exact argumentValues_joinArgument h (hcarried hargument.1) hjoin
      · cases hjoin
    · intro item hitem
      rcases mem_append.mp hitem with hitem | hitem
      · exact h item hitem
      rw [mem_singleton.mp hitem]
      intro harg _ w hw
      rw [mem_singleton.mp hw]
      exact hcarried harg
  · exact h

theorem argumentValues_presentCandidates (h : Each (Labelled m scope) candidates) :
    AllArgumentValues m scope (presentCandidates m context candidates) := by
  unfold presentCandidates
  rw [foldl_map]
  exact List.foldlRecOn (motive := AllArgumentValues m scope) _ _ (fun item hitem => nomatch hitem)
    (fun _ hs v _ => argumentValues_presentCandidate hs (h v))

theorem argumentValues_unnamedVariables (m : XairModule) (context : VariableContext)
    (scope : VariableScope) (options : VariableOptions) :
    AllArgumentValues m scope (unnamedVariables m context scope options) := by
  intro item hitem
  have hmem := mem_of_mem_filter ((mem_insertionSort _).mp hitem)
  rcases mem_append.mp hmem with hcases | hglobal
  · rcases mem_append.mp hcases with hcandidate | hstack
    · exact argumentValues_presentCandidates
        (labelled_selectRepeated (labelled_selectSymbols (labelled_propagateLabels
          (labelled_selectArguments labelled_collect)))) item hcandidate
    · obtain ⟨entry, _, rfl⟩ := mem_map.mp hstack
      exact fun _ hstorage => (nomatch hstorage)
  · obtain ⟨entry, _, rfl⟩ := mem_map.mp hglobal
    exact fun _ hstorage => (nomatch hstorage)

theorem argumentValues_nameVariables {rounds : Nat} {names : List Text}
    {items named : List PresentationVariable} (h : AllArgumentValues m scope items)
    (hnamed : nameVariables rounds names items = some named) : AllArgumentValues m scope named := by
  induction items generalizing names named with
  | nil =>
    injection hnamed with hnamed
    exact hnamed ▸ h
  | cons v rest ih =>
    obtain ⟨name, _, hrest⟩ := Option.bind_eq_some_iff.mp hnamed
    obtain ⟨others, hothers, rfl⟩ := Option.map_eq_some_iff.mp hrest
    intro item hitem
    rcases mem_cons.mp hitem with rfl | hitem
    · exact h v (by simp)
    · exact ih (fun other hother => h other (by simp [hother])) hothers item hitem

/-- The values that a view attaches to a register argument are reached by it. -/
theorem argumentValues_buildVariables {rounds : Nat} {view : VariableView}
    (h : buildVariables m context rounds scope options = some view) :
    AllArgumentValues m scope view.vars := by
  unfold buildVariables at h
  split at h
  · obtain ⟨named, hnamed, rfl⟩ := Option.map_eq_some_iff.mp h
    have hvalues := argumentValues_nameVariables
      (argumentValues_unnamedVariables m context scope options) hnamed
    split
    · exact fun item hitem => hvalues item (mem_of_mem_take hitem)
    · exact hvalues
  · injection h with h
    subst h
    exact fun item hitem => nomatch hitem

/-- Where an execution is, and the values that it has computed. -/
structure Frame (Value : Type) where
  block : BlockId
  value : ValueId → Option Value

/-- The executions of a function: it begins with the arguments in the parameters of its
entry block, operations give their results any values, and an edge passes its arguments
for the parameters of its target, all at once.  An edge can only be taken with arguments
that are allowed. -/
inductive Execution {Value : Type} (m : XairModule) (scope : VariableScope)
    (allowed : ValueId → ValueId → Prop) (arguments : ValueId → Value) : Frame Value → Prop
  | enter : Execution m scope allowed arguments
      ⟨scope.entryBlock,
        fun v => if v ∈ m.blockParams scope.entryBlock then some (arguments v) else none⟩
  | compute {s : Frame Value} (h : Execution m scope allowed arguments s) {r : ValueId}
      (hdefined : (m.valueDefinition r).isSome) (value : Value) :
      Execution m scope allowed arguments ⟨s.block, Function.update s.value r (some value)⟩
  | transfer {s : Frame Value} (h : Execution m scope allowed arguments s) {t : Terminator}
      (hterm : m.terminator s.block = some t) {edge : BlockId × List ValueId}
      (hedge : edge ∈ t.targets) (hfrom : s.block ∈ scope.blocks) (hto : edge.1 ∈ scope.blocks)
      (hlength : edge.2.length = (m.blockParams edge.1).length)
      (hallowed : ∀ slot ∈ edge.2.zip (m.blockParams edge.1), allowed slot.1 slot.2)
      {value : ValueId → Option Value}
      (hpassed : ∀ slot ∈ edge.2.zip (m.blockParams edge.1), value slot.2 = s.value slot.1)
      (hframe : ∀ v, v ∉ m.blockParams edge.1 → value v = s.value v) :
      Execution m scope allowed arguments ⟨edge.1, value⟩

/-- An argument is allowed for a parameter if whatever reaches the parameter reaches it. -/
def SameSource (m : XairModule) (scope : VariableScope) (a p : ValueId) : Prop :=
  ∀ index, Carried m scope index p → Carried m scope index a

/-- An entry parameter is only reached by the argument that it carries, and no other
parameter carries that one. -/
def EntryApart (m : XairModule) (scope : VariableScope) : Prop :=
  ∀ p ∈ m.blockParams scope.entryBlock, ∀ index, Carried m scope index p →
    ∀ a, EntryArgument m scope index a → a = p

/-- Block parameters are not results of operations. -/
def ParamsApart (m : XairModule) : Prop :=
  ∀ b, ∀ p ∈ m.blockParams b, m.valueDefinition p = none

/-- In an execution whose edges keep the sources of parameters apart, what an argument
reaches has its value. -/
theorem Execution.carried {Value : Type} {arguments : ValueId → Value} {s : Frame Value}
    (hparams : ParamsApart m) (hentry : EntryApart m scope)
    (h : Execution m scope (SameSource m scope) arguments s) :
    ∀ index p w, Carried m scope index p → s.value p = some w →
      ∀ a, EntryArgument m scope index a → w = arguments a := by
  induction h with
  | enter =>
    intro index p w hcarried hw a ha
    dsimp only at hw
    split at hw
    · rename_i hp
      rw [hentry p hp index hcarried a ha]
      exact (Option.some.inj hw).symm
    · cases hw
  | compute h hdefined value ih =>
    intro index p w hcarried hw a ha
    obtain ⟨b, hp⟩ := hcarried.param
    rename_i r
    have hne : p ≠ r := by
      rintro rfl
      rw [hparams b p hp] at hdefined
      cases hdefined
    dsimp only at hw
    rw [Function.update_of_ne hne] at hw
    exact ih index p w hcarried hw a ha
  | transfer h hterm hedge hfrom hto hlength hallowed hpassed hframe ih =>
    rename_i s t edge value
    intro index p w hcarried hw a ha
    dsimp only at hw
    by_cases hp : p ∈ m.blockParams edge.1
    · obtain ⟨i, hi, rfl⟩ := mem_iff_getElem.mp hp
      have harg : i < edge.2.length := hlength ▸ hi
      have hslot : (edge.2[i], (m.blockParams edge.1)[i]) ∈
          edge.2.zip (m.blockParams edge.1) := by
        refine mem_iff_getElem.mpr ⟨i, by rw [length_zip]; omega, ?_⟩
        exact getElem_zip
      rw [hpassed _ hslot] at hw
      exact ih index _ w (hallowed _ hslot index hcarried) hw a ha
    · rw [hframe p hp] at hw
      exact ih index p w hcarried hw a ha

/-- In every execution whose edges pass, for a parameter that an argument reaches, only
what that argument reaches, the values of a register argument's variable have the value
of the argument on entry. -/
theorem argument_labels_hold {Value : Type} (m : XairModule) (context : VariableContext)
    (scope : VariableScope) (options : VariableOptions) (rounds : Nat) (view : VariableView)
    (hbuild : buildVariables m context rounds scope options = some view)
    (hparams : ParamsApart m) (hentry : EntryApart m scope)
    (arguments : ValueId → Value) (s : Frame Value)
    (hrun : Execution m scope (SameSource m scope) arguments s)
    (item : PresentationVariable) (hitem : item ∈ view.vars) (hrole : .argument ∈ item.roles)
    (hregister : item.storageIdentity = false) (p : ValueId) (hp : p ∈ item.values)
    (w : Value) (hw : s.value p = some w) : (∃ a, EntryArgument m scope item.argumentIndex a) ∧
      ∀ a, EntryArgument m scope item.argumentIndex a → w = arguments a := by
  have hcarried := argumentValues_buildVariables hbuild item hitem hrole hregister p hp
  exact ⟨hcarried.exists_entry, hrun.carried hparams hentry item.argumentIndex p w hcarried hw⟩

/-- A function whose second block receives either of two arguments. -/
def mergingModule : XairModule where
  values := [{ type := { kind := .int, bits := 64 }, name := "rcx" },
    { type := { kind := .int, bits := 64 }, name := "rdx" },
    { type := { kind := .int, bits := 1 } }, { type := { kind := .int, bits := 64 } }]
  ops := [{ opcode := .other 0, inputs := [3] }]
  blocks := [
    { params := [0, 1, 2]
      terminator := {
        kind := .cbranch, condition := 2, trueTarget := 1, trueArgs := [0]
        falseTarget := 1, falseArgs := [1] } },
    { ops := [0], params := [3], terminator := { kind := .ret } }]
  opcodeName := fun _ => []

def mergingScope : VariableScope where
  entryBlock := 0
  blocks := [0, 1]
  callingConvention := .win64

def mergingView : VariableView where
  vars := [
    { stableId := "value:0", kind := .argument, roles := [.argument], primaryValue := 0
      values := [0], nameText := "arg0", argumentIndex := 0 },
    { stableId := "value:1", kind := .argument, roles := [.argument], primaryValue := 1
      values := [1, 3], nameText := "arg1", argumentIndex := 1 }]

/-- The parameter that receives either argument is labelled as the second one, and has the
value of the first one where the first edge is taken. -/
theorem merged_parameter_mislabelled :
    buildVariables mergingModule {} 4 mergingScope {} = some mergingView ∧
      ∃ item ∈ mergingView.vars, .argument ∈ item.roles ∧ item.storageIdentity = false ∧
        3 ∈ item.values ∧ ∃ s : Frame Nat,
          Execution mergingModule mergingScope (fun _ _ => True) (fun v => v) s ∧
          s.value 3 = some 0 ∧ EntryArgument mergingModule mergingScope item.argumentIndex 1 := by
  refine ⟨by decide, mergingView.vars[1], by decide, by decide, rfl, by decide,
    ⟨1, fun v => if v = 3 then some 0 else if v ∈ [0, 1, 2] then some v else none⟩, ?_, rfl,
    by decide, by decide⟩
  refine @Execution.transfer Nat _ _ _ _ _ .enter _ rfl (1, [0]) (by decide) (by decide)
    (by decide) rfl (fun _ _ => trivial) _ (by decide) ?_
  intro v hv
  have hne : v ≠ 3 := fun h => hv (h ▸ by decide)
  exact if_neg hne

/-- A function whose second block receives its argument. -/
def copyingModule : XairModule where
  values := [{ type := { kind := .int, bits := 64 }, name := "rcx" },
    { type := { kind := .int, bits := 64 } }]
  ops := []
  blocks := [
    { params := [0], terminator := { kind := .jump, trueTarget := 1, trueArgs := [0] } },
    { params := [1], terminator := { kind := .ret } }]
  opcodeName := fun _ => []

def copyingView : VariableView where
  vars := [
    { stableId := "value:0", kind := .argument, roles := [.argument], primaryValue := 0
      values := [0, 1], nameText := "arg0", argumentIndex := 0 }]

theorem copyingModule_params {b : BlockId} (hp : p ∈ copyingModule.blockParams b) :
    p = b ∧ b < 2 := by
  match b with
  | 0 => exact ⟨mem_singleton.mp hp, Nat.zero_lt_two⟩
  | 1 => exact ⟨mem_singleton.mp hp, Nat.one_lt_two⟩
  | b + 2 => cases hp

/-- An argument that is only copied. -/
theorem copied_argument_holds : (∃ a, EntryArgument copyingModule mergingScope 0 a) ∧
      ∀ a, EntryArgument copyingModule mergingScope 0 a → 7 = a + 7 := by
  refine argument_labels_hold copyingModule {} mergingScope {} 4 copyingView (by decide)
    ?_ ?_ (fun v => v + 7) ⟨1, fun v => if v < 2 then some 7 else none⟩ ?_
    copyingView.vars[0] (by decide) (by decide) rfl 1 (by decide) 7 rfl
  · intro b p hp
    obtain ⟨rfl, hb⟩ := copyingModule_params hp
    match p, hb with
    | 0, _ => rfl
    | 1, _ => rfl
  · intro p hp index _ a ha
    exact (copyingModule_params ha.1).1.trans (copyingModule_params hp).1.symm
  refine @Execution.transfer Nat _ _ _ _ _ .enter _ rfl (1, [0]) (by decide) (by decide)
    (by decide) rfl ?_ _ (by decide) ?_
  · intro slot hslot
    rw [mem_singleton.mp hslot]
    intro index hcarried
    cases hcarried with
    | entry h => exact absurd (copyingModule_params h.1).1 (by decide)
    | pass h hslot' =>
      rename_i a
      have hall : ∀ slot ∈ scopeSlots copyingModule mergingScope, slot.1 = 0 := by decide
      have ha : a = 0 := hall _ hslot'
      exact ha ▸ h
  · intro v hv
    have hone : 1 ∈ copyingModule.blockParams 1 := by decide
    have hne : v ≠ 1 := fun h => hv (h ▸ hone)
    by_cases hzero : v = 0
    · subst hzero
      rfl
    have hbig : ¬ v < 2 := Nat.not_lt.mpr
      (Nat.lt_of_le_of_ne (Nat.one_le_iff_ne_zero.mpr hzero) (Ne.symm hne))
    have hout : v ∉ copyingModule.blockParams mergingScope.entryBlock := by
      intro hmem
      exact hzero (copyingModule_params hmem).1
    dsimp only
    rw [if_neg hbig, if_neg hout]

end Airece.VariableRecovery
