import IndagoRev.Airece.Expansions
import IndagoRev.Airece.ExpressionLimits

/-!
# Each operation is shown once

`can_expand` lets a value below the root be shown by its operation if the value has one
use.  A use is an input of an operation, and a flag read or a truncation that looks through
the operation below it shows inputs that another operation uses; the flag read prints that
operation as well.  As long as no operation is looked through twice, and none is reached
through two of its results, each of them has one place in the text.

* `count_shownInputs` is the step: a counted value has one place among what is reached;
* `count_expansions` follows the way by which a value is reached back to the root;
* `no_repeated_inlining` counts the operations, and has the converse where nothing is cut.
-/

namespace Airece

open List

variable {ctx : RenderContext} {m : XairModule}

/-- The value that an operation looks through: the flags of a flag read, and the extension
that a truncation undoes. -/
def XairModule.lookedThrough (m : XairModule) (v : ValueId) (o : XairOp) : Option ValueId :=
  match o.opcode with
  | .flagZf | .flagCf | .flagOf | .flagSf | .flagPf | .flagAf => o.inputs.head?
  | .trunc =>
    match o.inputs with
    | [] => none
    | input :: _ =>
      if m.valueType input = m.valueType v then none
      else (castIdentity m .trunc (m.valueType v) input).map (fun _ => input)
  | _ => none

/-- The value whose operation has the inputs that a value shows. -/
def XairModule.shownFrom (m : XairModule) (v : ValueId) (o : XairOp) : ValueId :=
  (m.lookedThrough v o).getD v

/-- The operation that a flag read prints in place of its own. -/
def XairModule.printedFlags (m : XairModule) (o : XairOp) : List OpId :=
  match o.opcode with
  | .flagZf | .flagCf | .flagOf | .flagSf | .flagPf | .flagAf =>
    match o.inputs.head?.bind m.definingOp with
    | some (id, f) =>
      if (f.opcode = .flagsAdd ∨ f.opcode = .flagsSub ∨ f.opcode = .flagsLogic) ∧
        f.inputs ≠ [] then [id] else []
    | none => []
  | _ => []

/-- The operations that stand in the text where a value is expanded. -/
def XairModule.printedOps (m : XairModule) (v : ValueId) : List OpId :=
  match m.definingOp v with
  | some (id, o) => id :: m.printedFlags o
  | none => []

variable (inputs : List ValueId)

theorem firstTwo_subperm : (firstTwo inputs).Subperm inputs := by
  match inputs with
  | [] => exact nil_subperm
  | [_] => exact nil_subperm
  | a :: b :: rest => exact (sublist_append_left [a, b] rest).subperm

theorem comparedInputs_subperm (compares : Bool) (inputs : List ValueId) :
    (comparedInputs ctx compares inputs).Subperm inputs := by
  unfold comparedInputs
  split
  · rename_i constant other hfound
    split at hfound
    · refine singleton_subperm_iff.mpr ?_
      match inputs with
      | [] => cases hfound
      | [_] => cases hfound
      | a :: b :: rest =>
        simp only [booleanOperand] at hfound
        split at hfound
        · cases hfound
          exact mem_cons_self
        · obtain ⟨_, _, heq⟩ := Option.map_eq_some_iff.mp hfound
          cases heq
          exact mem_cons_of_mem _ mem_cons_self
    · cases hfound
  · exact firstTwo_subperm inputs

theorem calledInputs_subperm (a : OpAttributes) : (calledInputs ctx inputs a).Subperm inputs := by
  have harguments : ∀ n, (callArguments ctx.module inputs n).Subperm inputs :=
    fun n => (filter_sublist.trans (take_sublist n inputs)).subperm
  unfold calledInputs
  split
  · split
    · rename_i target htarget
      -- the target stands behind the arguments
      generalize indirectTarget ctx.module inputs (inputs.length - 1) = i at htarget ⊢
      have hsplit : inputs = inputs.take i ++ target :: inputs.drop (i + 1) := by
        obtain ⟨hi, rfl⟩ := List.getElem?_eq_some_iff.mp htarget
        rw [getElem_cons_drop, take_append_drop]
      have hsub : ((callArguments ctx.module inputs i) ++ [target]).Sublist inputs := by
        conv_rhs => rw [hsplit]
        exact filter_sublist.append (singleton_sublist.mpr mem_cons_self)
      exact ((perm_append_singleton _ _).symm.subperm).trans hsub.subperm
    · exact harguments _
  · exact harguments _

theorem flagInputs_subperm (flags : ValueId) :
    m.flagInputs flags = [] ∨ ∃ id o, m.definingOp flags = some (id, o) ∧
      (m.flagInputs flags).Subperm o.inputs := by
  unfold XairModule.flagInputs
  cases m.definingOp flags with
  | none => exact Or.inl rfl
  | some found =>
    obtain ⟨id, o⟩ := found
    refine Or.inr ⟨id, o, rfl, ?_⟩
    dsimp only
    split
    · exact (take_sublist 1 o.inputs).subperm
    · split
      · exact firstTwo_subperm o.inputs
      · exact nil_subperm

theorem castIdentity_getD {opcode : Opcode} (h : opcode ≠ .trunc) (type : XairType)
    (input : ValueId) : (castIdentity m opcode type input).getD input = input := by
  unfold castIdentity
  rw [if_neg h]
  split <;> rfl

/-- What a truncation shows is an input of its own, or of the extension that it undoes. -/
theorem castIdentity_trunc (type : XairType) (input : ValueId) :
    castIdentity m .trunc type input = none ∨
      (m.valueType input = type ∧ castIdentity m .trunc type input = some input) ∨
      (m.valueType input ≠ type ∧ ∃ id o inner, m.definingOp input = some (id, o) ∧
        o.inputs = [inner] ∧ castIdentity m .trunc type input = some inner) := by
  unfold castIdentity
  by_cases htype : m.valueType input = type
  · exact Or.inr (Or.inl ⟨htype, if_pos htype⟩)
  rw [if_neg htype, if_pos rfl]
  cases hop : m.definingOp input with
  | none => exact Or.inl rfl
  | some found =>
    obtain ⟨id, o⟩ := found
    dsimp only
    split
    · split
      · rename_i inner hinputs
        split
        · exact Or.inr (Or.inr ⟨htype, id, o, inner, rfl, hinputs, rfl⟩)
        · exact Or.inl rfl
      · exact Or.inl rfl
    · exact Or.inl rfl

variable {o : XairOp} {id : OpId} {v : ValueId}

/-- What an operation shows are inputs of the operation that it is shown from. -/
theorem shownInputs_subperm
    (hop : ctx.module.definingOp v = some (id, o)) : shownInputs ctx v o = [] ∨ ∃ id' o',
      ctx.module.definingOp (ctx.module.shownFrom v o) = some (id', o') ∧
        (shownInputs ctx v o).Subperm o'.inputs := by
  unfold shownInputs XairModule.shownFrom XairModule.lookedThrough
  cases hcode : o.opcode
  all_goals dsimp only [Option.getD_none]
  all_goals first
    | exact Or.inl rfl
    | exact Or.inr ⟨id, o, hop, firstTwo_subperm o.inputs⟩
    | exact Or.inr ⟨id, o, hop, comparedInputs_subperm _ o.inputs⟩
    | exact Or.inr ⟨id, o, hop, calledInputs_subperm o.inputs o.attributes⟩
    | exact Or.inr ⟨id, o, hop, List.Subperm.refl _⟩
    | exact Or.inr ⟨id, o, hop, (take_sublist 1 o.inputs).subperm⟩
    | skip
  all_goals rcases hinputs : o.inputs with _ | ⟨a, rest⟩
  all_goals first
    | exact Or.inl rfl
    | exact flagInputs_subperm a
    | skip
  -- what shows inputs of its own operation
  all_goals have hown : ∀ shown : List ValueId, shown.Sublist (a :: rest) → shown = [] ∨ ∃ id' o',
      ctx.module.definingOp v = some (id', o') ∧ shown.Subperm o'.inputs :=
    fun shown hsub => Or.inr ⟨id, o, hop, hinputs ▸ hsub.subperm⟩
  all_goals have hfirst : [a].Sublist (a :: rest) := singleton_sublist.mpr mem_cons_self
  case trunc.cons =>
    dsimp only
    rcases castIdentity_trunc (ctx.module.valueType v) a with
      hnone | ⟨htype, hsame⟩ | ⟨htype, id', o', inner, hop', hinner, hthrough⟩
    · rw [hnone]
      simpa using hown [a] hfirst
    · rw [hsame, if_pos htype]
      exact hown [a] hfirst
    · rw [hthrough, if_neg htype]
      exact Or.inr ⟨id', o', hop', hinner ▸ List.Subperm.refl _⟩
  case select.cons =>
    rcases rest with _ | ⟨b, _ | ⟨c, rest⟩⟩
    · exact Or.inl rfl
    · exact Or.inl rfl
    · exact hown [a, b, c] (sublist_append_left [a, b, c] rest)
  case load.cons =>
    rcases rest with _ | ⟨b, rest⟩
    · exact Or.inl rfl
    · exact hown [b] (singleton_sublist.mpr (by simp))
  case store.cons =>
    rcases rest with _ | ⟨b, _ | ⟨c, rest⟩⟩
    · exact Or.inl rfl
    · exact Or.inl rfl
    · exact hown [b, c] ((sublist_append_left [b, c] rest).cons a)
  all_goals
    dsimp only
    rw [castIdentity_getD (by decide)]
    exact hown [a] hfirst

/-- The inputs of an operation. -/
def XairModule.inputsOf (m : XairModule) (id : OpId) : List ValueId :=
  match m.op id with
  | some o => o.inputs
  | none => []

/-- The operations of all blocks. -/
def XairModule.listed (m : XairModule) : List OpId := m.blocks.flatMap XairBlock.ops

theorem listed_sublist_uses (m : XairModule) : (m.listed.flatMap m.inputsOf).Sublist m.uses := by
  unfold XairModule.listed XairModule.uses
  induction m.blocks with
  | nil => exact List.Sublist.refl _
  | cons b blocks ih =>
    rw [flatMap_cons, flatMap_append, flatMap_cons]
    refine List.Sublist.append ?_ ih
    rw [append_assoc]
    exact sublist_append_left _ _

/-- What XAIR says about the definitions of a module: each defining operation is listed in a
block. -/
def XairModule.Laid (m : XairModule) : Prop := ∀ v id, m.valueDefinition v = some id → id ∈ m.listed

theorem valueDefinition_of_definingOp
    (h : m.definingOp v = some (id, o)) : m.valueDefinition v = some id ∧ m.op id = some o := by
  obtain ⟨id', hid, hmap⟩ := Option.bind_eq_some_iff.mp h
  obtain ⟨o', ho, heq⟩ := Option.map_eq_some_iff.mp hmap
  cases heq
  exact ⟨hid, ho⟩

theorem inputsOf_of_definingOp (h : m.definingOp v = some (id, o)) : m.inputsOf id = o.inputs := by
  unfold XairModule.inputsOf
  rw [(valueDefinition_of_definingOp h).2]

/-- A value is used as often as the inputs of some listed operations say. -/
theorem count_inputs_le {ids : List OpId} (hnodup : ids.Nodup) (hlisted : ids ⊆ m.listed)
    (w : ValueId) : (ids.flatMap m.inputsOf).count w ≤ m.useCount w := by
  obtain ⟨ids', hperm, hsub⟩ := subperm_of_subset hnodup hlisted
  have hcount : (ids.flatMap m.inputsOf).count w = (ids'.flatMap m.inputsOf).count w :=
    (hperm.symm.flatMap_right m.inputsOf).count_eq w
  rw [hcount]
  exact ((hsub.flatMap m.inputsOf).trans (listed_sublist_uses m)).count_le w

/-- An operation uses a value as often as it is among its inputs. -/
theorem count_inputs_le_useCount (hlaid : m.Laid)
    (hop : m.definingOp v = some (id, o)) (w : ValueId) : o.inputs.count w ≤ m.useCount w := by
  have hmem := hlaid v id (valueDefinition_of_definingOp hop).1
  have hcount := @count_inputs_le m [id] (by simp) (by simpa using hmem) w
  rwa [flatMap_singleton, inputsOf_of_definingOp hop] at hcount

/-- A value with one use is an input of one operation. -/
theorem eq_of_useCount (hlaid : m.Laid) {u v w : ValueId} {id id' : OpId} {o o' : XairOp}
    (huses : m.useCount w ≤ 1) (hop : m.definingOp u = some (id, o))
    (hop' : m.definingOp v = some (id', o')) (hmem : w ∈ o.inputs) (hmem' : w ∈ o'.inputs) :
    id = id' := by
  obtain ⟨hdef, _⟩ := valueDefinition_of_definingOp hop
  obtain ⟨hdef', _⟩ := valueDefinition_of_definingOp hop'
  by_contra hne
  have hcount := @count_inputs_le m [id, id'] (by simpa using hne)
    (by simpa using ⟨hlaid u id hdef, hlaid v id' hdef'⟩) w
  have hfirst := count_pos_iff.mpr hmem
  have hsecond := count_pos_iff.mpr hmem'
  rw [flatMap_cons, flatMap_singleton, count_append, inputsOf_of_definingOp hop,
    inputsOf_of_definingOp hop'] at hcount
  omega

/-- Operations that may be shown once only: not those that show nothing but a constant or an
unknown value. -/
def XairOp.Counted (o : XairOp) : Prop :=
  o.opcode ≠ .constU64 ∧ o.opcode ≠ .constWide ∧ o.opcode ≠ .undef ∧ o.opcode ≠ .unknown

/-- Whether `can_expand` may allow a value at a depth below the root. -/
def MayShow (ctx : RenderContext) (horizon : OpId) (depth : Nat) (w : ValueId) : Prop :=
  depth < ctx.options.maxDepth ∧
    ∃ id o, ctx.module.definingOp w = some (id, o) ∧ mayExpand ctx w id o horizon = true

/-- The values that may be expanded in the rendering of a value, with their depths. -/
inductive ReachedAt (ctx : RenderContext) (v : ValueId) : Nat → ValueId → Prop where
  | root : ReachedAt ctx v 0 v
  | shown {depth : Nat} {p w : ValueId} {id : OpId} {o : XairOp} (hreached : ReachedAt ctx v depth p)
      (hop : ctx.module.definingOp p = some (id, o)) (hmem : w ∈ shownInputs ctx p o)
      (hshow : MayShow ctx (rootOf ctx v) (depth + 1) w) : ReachedAt ctx v (depth + 1) w

/-- What is reached has one place. -/
structure LooksOnce (ctx : RenderContext) (v : ValueId) : Prop where
  /-- No operation is reached through two of its results. -/
  results : ∀ {d d' p q id} {o : XairOp}, ReachedAt ctx v d p → ReachedAt ctx v d' q →
    ctx.module.definingOp p = some (id, o) → ctx.module.definingOp q = some (id, o) →
    o.Counted → p = q
  /-- No two flags of one operation are read. -/
  flags : ∀ {d d' p q id id' f} {o o' : XairOp}, ReachedAt ctx v d p → ReachedAt ctx v d' q →
    ctx.module.definingOp p = some (id, o) → ctx.module.definingOp q = some (id', o') →
    f ∈ ctx.module.printedFlags o → f ∈ ctx.module.printedFlags o' → p = q
  /-- No operation is reached whose flags are read. -/
  unread : ∀ {d d' p q id f} {o : XairOp}, ReachedAt ctx v d p → ReachedAt ctx v d' q →
    ctx.module.definingOp p = some (id, o) → f ∈ ctx.module.printedFlags o →
    ctx.module.valueDefinition q ≠ some f
  /-- No operation has its inputs shown by two of the values, unless these inputs may not be
  expanded there. -/
  inputs : ∀ {d d' p q w id id' wid} {o o' wo : XairOp}, ReachedAt ctx v d p →
    ReachedAt ctx v d' q → ctx.module.definingOp p = some (id, o) →
    ctx.module.definingOp q = some (id', o') →
    ctx.module.valueDefinition (ctx.module.shownFrom p o) =
      ctx.module.valueDefinition (ctx.module.shownFrom q o') →
    w ∈ shownInputs ctx p o → w ∈ shownInputs ctx q o' →
    ctx.module.definingOp w = some (wid, wo) → wo.Counted →
    MayShow ctx (rootOf ctx v) (d + 1) w → MayShow ctx (rootOf ctx v) (d' + 1) w → p = q

variable {horizon : OpId} {w : ValueId}

/-- A counted value that may be shown below the root has one use. -/
theorem MayShow.useCount {depth : Nat}
    (h : MayShow ctx horizon depth w) (hop : ctx.module.definingOp w = some (id, o))
    (hcounted : o.Counted) : ctx.module.useCount w ≤ 1 := by
  obtain ⟨_, id', o', hop', hexpand⟩ := h
  rw [hop] at hop'
  cases hop'
  obtain ⟨hconst, hwide, hundef, hunknown⟩ := hcounted
  unfold mayExpand at hexpand
  rw [if_neg (by simp [hconst, hwide, hunknown, hundef])] at hexpand
  split at hexpand
  · simp only [Bool.and_eq_true, decide_eq_true_eq] at hexpand
    exact hexpand.1.2
  split at hexpand
  · cases hexpand
  split at hexpand
  · cases hexpand
  · simp only [Bool.and_eq_true, decide_eq_true_eq] at hexpand
    exact hexpand.2

/-- **One place.**  A counted value that is reached is shown once by the value that it is
reached from, and by no other. -/
theorem count_shownInputs (hlaid : ctx.module.Laid) (hlooks : LooksOnce ctx v)
    {d d' : Nat} {p w x : ValueId} {id wid xid : OpId} {o wo xo : XairOp}
    (hp : ReachedAt ctx v d p) (hop : ctx.module.definingOp p = some (id, o))
    (hmem : w ∈ shownInputs ctx p o) (hw : ctx.module.definingOp w = some (wid, wo))
    (hcounted : wo.Counted) (hshow : MayShow ctx (rootOf ctx v) (d + 1) w)
    (hx : ReachedAt ctx v d' x) (hxop : ctx.module.definingOp x = some (xid, xo))
    (hxshow : MayShow ctx (rootOf ctx v) (d' + 1) w) :
    (shownInputs ctx x xo).count w ≤ if x = p then 1 else 0 := by
  have huses := hshow.useCount hw hcounted
  by_cases hnone : w ∈ shownInputs ctx x xo
  · rcases shownInputs_subperm hop with hempty | ⟨sid, so, hsource, hsub⟩
    · rw [hempty] at hmem
      cases hmem
    rcases shownInputs_subperm hxop with hempty | ⟨sid', so', hsource', hsub'⟩
    · rw [hempty] at hnone
      cases hnone
    have hfrom := eq_of_useCount hlaid huses hsource' hsource (hsub'.subset hnone)
      (hsub.subset hmem)
    have hsameOp : ctx.module.valueDefinition (ctx.module.shownFrom x xo) =
        ctx.module.valueDefinition (ctx.module.shownFrom p o) := by
      rw [(valueDefinition_of_definingOp hsource').1, (valueDefinition_of_definingOp hsource).1,
        hfrom]
    have hsame := hlooks.inputs hx hp hxop hop hsameOp hnone hmem hw hcounted hxshow hshow
    rw [if_pos hsame]
    exact Nat.le_trans (hsub'.count_le w)
      (Nat.le_trans (count_inputs_le_useCount hlaid hsource' w) huses)
  · rw [count_eq_zero_of_not_mem hnone]
    exact Nat.zero_le _

/-- What is expanded is shown by an operation that the limits and the active values allow. -/
theorem expandedBy_spec {depth : Nat} {root : Bool} {nodes : Nat}
    {active : List ValueId} (h : expandedBy ctx v horizon depth root nodes active = some o) :
    v ∉ active ∧ ∃ id, ctx.module.definingOp v = some (id, o) ∧
      (root = false → MayShow ctx horizon depth v) := by
  unfold expandedBy at h
  cases hop : ctx.module.definingOp v with
  | none => simp [hop] at h
  | some found =>
    obtain ⟨id, o'⟩ := found
    simp only [hop] at h
    by_cases hactive : active.contains v = true
    · rw [if_pos hactive] at h
      cases h
    rw [if_neg hactive] at h
    split at h
    · rename_i hallowed
      cases h
      refine ⟨fun hmem => hactive (by simpa using hmem), id, rfl, fun hroot => ?_⟩
      unfold canExpand at hallowed
      rw [hroot, if_neg Bool.false_ne_true] at hallowed
      by_cases hlimit : atLimit ctx depth { nodes := nodes } = true
      · rw [if_pos hlimit] at hallowed
        exact absurd hallowed Bool.false_ne_true
      · rw [if_neg hlimit] at hallowed
        simp only [atLimit, Bool.or_eq_true, decide_eq_true_eq, not_or, Nat.not_le] at hlimit
        exact ⟨hlimit.1.1, id, o, hop, hallowed⟩
    · cases h

theorem expandedFrom_succ {n : Nat} {v : ValueId} {horizon : OpId} {depth : Nat} {root : Bool}
    {nodes : Nat} {active : List ValueId} :
    expandedFrom ctx (n + 1) v horizon depth root nodes active = [] ∨
      ∃ id o, v ∉ active ∧ ctx.module.definingOp v = some (id, o) ∧
        (root = false → MayShow ctx horizon depth v) ∧
        expandedFrom ctx (n + 1) v horizon depth root nodes active = v :: expandedAll
            (fun w nodes => expandedFrom ctx n w horizon (depth + 1) false nodes (v :: active))
            (shownInputs ctx v o) (nodes + 1) := by
  rw [expandedFrom]
  cases h : expandedBy ctx v horizon depth root nodes active with
  | none => exact Or.inl rfl
  | some o =>
    obtain ⟨hactive, id, hop, hshow⟩ := expandedBy_spec h
    exact Or.inr ⟨id, o, hactive, hop, hshow, rfl⟩

variable {expanded : ValueId → Nat → List ValueId}

theorem mem_expandedAll {y : ValueId} (vs : List ValueId) :
    ∀ nodes, y ∈ expandedAll expanded vs nodes → ∃ c ∈ vs, ∃ nodes', y ∈ expanded c nodes' := by
  induction vs with
  | nil => exact fun _ h => nomatch h
  | cons v rest ih =>
    intro nodes h
    rcases mem_append.mp h with h | h
    · exact ⟨v, mem_cons_self, nodes, h⟩
    · obtain ⟨c, hc, nodes', hy⟩ := ih _ h
      exact ⟨c, mem_cons_of_mem _ hc, nodes', hy⟩

theorem mem_expandedFrom (n : Nat) :
    ∀ x depth root nodes active, (root = false → MayShow ctx (rootOf ctx v) depth x →
        ReachedAt ctx v depth x) → (root = true → ReachedAt ctx v depth x) →
      ∀ y ∈ expandedFrom ctx n x (rootOf ctx v) depth root nodes active,
        y ∉ active ∧ ∃ d, ReachedAt ctx v d y := by
  induction n with
  | zero => exact fun _ _ _ _ _ _ _ _ h => nomatch h
  | succ n ih =>
    intro x depth root nodes active hshown hroot y hy
    rcases @expandedFrom_succ ctx n x (rootOf ctx v) depth root nodes active with
      hnone | ⟨id, o, hactive, hop, hshow, hexpanded⟩
    · rw [hnone] at hy
      cases hy
    have hx : ReachedAt ctx v depth x := by
      cases root with
      | false => exact hshown rfl (hshow rfl)
      | true => exact hroot rfl
    rw [hexpanded] at hy
    rcases mem_cons.mp hy with rfl | hy
    · exact ⟨hactive, depth, hx⟩
    obtain ⟨c, hc, nodes', hmem⟩ := mem_expandedAll _ _ hy
    obtain ⟨hnew, hreached⟩ := ih c (depth + 1) false nodes' (x :: active)
      (fun _ hmay => hx.shown hop hc hmay) (fun h => nomatch h) y hmem
    exact ⟨fun h => hnew (mem_cons_of_mem _ h), hreached⟩

/-- If each of several values expands a value at most as often as another one and as it is that
value itself, so do all of them. -/
theorem count_expandedAll {w p : ValueId} {k : Nat}
    (vs : List ValueId) (h : ∀ c ∈ vs, ∀ nodes, (expanded c nodes).count w ≤
      (if c = w then k else 0) + (expanded c nodes).count p) :
    ∀ nodes, (expandedAll expanded vs nodes).count w ≤
      k * vs.count w + (expandedAll expanded vs nodes).count p := by
  induction vs with
  | nil => exact fun _ => Nat.zero_le _
  | cons v rest ih =>
    intro nodes
    have hfirst := h v mem_cons_self nodes
    have hrest := ih (fun c hc => h c (mem_cons_of_mem _ hc))
      (nodes + (expanded v nodes).length)
    rw [expandedAll, count_append, count_append, count_cons]
    by_cases hv : v = w
    · subst hv
      simp only [if_true, beq_self_eq_true] at hfirst ⊢
      rw [Nat.mul_add, Nat.mul_one]
      omega
    · simp only [if_neg hv, beq_iff_eq] at hfirst ⊢
      rw [Nat.add_zero]
      omega

/-- A value that is shown once by one value, and by no other, is expanded at most as often as
that value, its own place apart. -/
theorem count_expandedFrom {v w p : ValueId} (honce : ∀ {d x id o}, ReachedAt ctx v d x →
      ctx.module.definingOp x = some (id, o) → MayShow ctx (rootOf ctx v) (d + 1) w →
      (shownInputs ctx x o).count w ≤ if x = p then 1 else 0) (n : Nat) :
    ∀ x depth root nodes active, (root = false → MayShow ctx (rootOf ctx v) depth x →
        ReachedAt ctx v depth x) → (root = true → ReachedAt ctx v depth x) →
      (expandedFrom ctx n x (rootOf ctx v) depth root nodes active).count w ≤
        (if x = w then 1 else 0) +
          (expandedFrom ctx n x (rootOf ctx v) depth root nodes active).count p := by
  induction n with
  | zero => exact fun _ _ _ _ _ _ _ => Nat.zero_le _
  | succ n ih =>
    intro x depth root nodes active hshown hroot
    rcases @expandedFrom_succ ctx n x (rootOf ctx v) depth root nodes active with
      hnone | ⟨id, o, _, hop, hshow, hexpanded⟩
    · rw [hnone]
      exact Nat.zero_le _
    have hx : ReachedAt ctx v depth x := by
      cases root with
      | false => exact hshown rfl (hshow rfl)
      | true => exact hroot rfl
    rw [hexpanded, count_cons, count_cons]
    generalize hrest : (fun w nodes =>
      expandedFrom ctx n w (rootOf ctx v) (depth + 1) false nodes (x :: active)) = expanded
    have hinner : ∀ c ∈ shownInputs ctx x o, ∀ nodes, (expanded c nodes).count w ≤
        (if c = w then 1 else 0) + (expanded c nodes).count p := by
      intro c hc nodes
      rw [← hrest]
      exact ih c (depth + 1) false nodes (x :: active) (fun _ hmay => hx.shown hop hc hmay)
        (fun h => nomatch h)
    by_cases hmay : MayShow ctx (rootOf ctx v) (depth + 1) w
    · have hall := count_expandedAll _ hinner (nodes + 1)
      have hplace := honce hx hop hmay
      simp only [beq_iff_eq]
      omega
    -- below the depth limit the value is not expanded at all
    have hnever : ∀ c ∈ shownInputs ctx x o, ∀ nodes, (expanded c nodes).count w ≤
        (if c = w then 0 else 0) + (expanded c nodes).count p := by
      intro c hc nodes
      by_cases hcw : c = w
      · have hempty : expanded c nodes = [] := by
          rw [← hrest]
          cases n with
          | zero => rfl
          | succ n =>
            rcases @expandedFrom_succ ctx n c (rootOf ctx v) (depth + 1) false nodes
              (x :: active) with hnone | ⟨_, _, _, _, hshow', _⟩
            · exact hnone
            · exact absurd (hcw ▸ hshow' rfl) hmay
        rw [hempty]
        exact Nat.zero_le _
      · have hc' := hinner c hc nodes
        rw [if_neg hcw] at hc'
        rw [if_neg hcw]
        exact hc'
    have hall := count_expandedAll _ hnever (nodes + 1)
    simp only [beq_iff_eq]
    omega

theorem counted_of_mem_shownInputs {p w : ValueId} (h : w ∈ shownInputs ctx p o) : o.Counted := by
  refine ⟨?_, ?_, ?_, ?_⟩ <;>
  · intro hop
    unfold shownInputs at h
    rw [hop] at h
    cases h

/-- Below itself a value is active, so the root is expanded once. -/
theorem count_root (ctx : RenderContext) (v : ValueId) : (expansions ctx v).count v ≤ 1 := by
  unfold expansions
  rcases @expandedFrom_succ ctx (ctx.options.maxDepth + 1) v (rootOf ctx v) 0 true 0 [] with
    hnone | ⟨_, vo, _, hvop, _, hexpanded⟩
  · rw [hnone]
    exact Nat.zero_le _
  rw [hexpanded, count_cons_self]
  refine Nat.succ_le_succ (Nat.le_of_eq (count_eq_zero_of_not_mem fun hmem => ?_))
  obtain ⟨c, hc, nodes', hy⟩ := mem_expandedAll _ _ hmem
  exact (mem_expandedFrom _ c 1 false nodes' [v] (fun _ hmay => .shown .root hvop hc hmay)
    (fun h => nomatch h) v hy).1 mem_cons_self

/-- **Once.**  A counted value is expanded at most once. -/
theorem count_expansions (hlaid : ctx.module.Laid) (hlooks : LooksOnce ctx v)
    (hop : ctx.module.definingOp w = some (id, o))
    (hcounted : o.Counted) : (expansions ctx v).count w ≤ 1 := by
  have hroot : ∀ y ∈ expansions ctx v, ∃ d, ReachedAt ctx v d y := fun y hy =>
    (mem_expandedFrom _ v 0 true 0 [] (fun h => nomatch h) (fun _ => .root) y hy).2
  by_cases hreached : ∃ d, ReachedAt ctx v d w
  · obtain ⟨d, hreached⟩ := hreached
    induction hreached generalizing id o with
    | root => exact count_root ctx v
    | @shown depth p w pid po hp hpop hmem hshow ih =>
      by_cases hself : v = w
      · exact hself ▸ count_root ctx v
      -- its only place is under the value that it is reached from
      have hcount := count_expandedFrom (fun hx hxop hmay =>
        count_shownInputs hlaid hlooks hp hpop hmem hop hcounted hshow hx hxop hmay)
        (ctx.options.maxDepth + 2) v 0 true 0 [] (fun h => nomatch h) (fun _ => .root)
      rw [if_neg hself, Nat.zero_add] at hcount
      exact Nat.le_trans hcount (ih hpop (counted_of_mem_shownInputs hmem))
  · exact Nat.le_trans (Nat.le_of_eq (count_eq_zero_of_not_mem
      fun hmem => hreached (hroot w hmem))) (Nat.zero_le _)

/-- The operations that the rendering of a value expands. -/
def expandedOps (ctx : RenderContext) (v : ValueId) : List OpId :=
  (expansions ctx v).flatMap ctx.module.printedOps

/-- A flag read prints an operation that sets flags. -/
theorem mem_printedFlags {f : OpId} (h : f ∈ m.printedFlags o) : o.Counted ∧
    m.printedFlags o = [f] ∧ ∃ fo, m.op f = some fo ∧ fo.Counted ∧ ∀ id, m.op id = some o → id ≠ f := by
  unfold XairModule.printedFlags at h ⊢
  split at h
  all_goals first
    | cases h
    | skip
  all_goals
    rename_i hcode
    split at h
    · rename_i id fo hflags
      split at h
      · rename_i hsets
        have hid : f = id := mem_singleton.mp h
        subst hid
        obtain ⟨flags, _, hop⟩ := Option.bind_eq_some_iff.mp hflags
        obtain ⟨_, ho⟩ := valueDefinition_of_definingOp hop
        refine ⟨by simp [XairOp.Counted, hcode], by simp [hsets], fo, ho, ?_, ?_⟩
        · rcases hsets.1 with hop | hop | hop <;> simp [XairOp.Counted, hop]
        · rintro id hid rfl
          rw [hid] at ho
          cases ho
          simp [hcode] at hsets
      · cases h
    · cases h

/-- What prints a counted operation is counted, and prints it once. -/
theorem mem_printedOps {x : ValueId} {f : OpId} {fo : XairOp} (h : f ∈ m.printedOps x)
    (hf : m.op f = some fo) (hcounted : fo.Counted) : ∃ id o, m.definingOp x = some (id, o) ∧
      o.Counted ∧ (id = f ∧ o = fo ∨ id ≠ f ∧ f ∈ m.printedFlags o) ∧ (m.printedOps x).count f = 1 := by
  unfold XairModule.printedOps at h ⊢
  cases hop : m.definingOp x with
  | none =>
    rw [hop] at h
    cases h
  | some found =>
    obtain ⟨id, o⟩ := found
    rw [hop] at h
    dsimp only at h ⊢
    obtain ⟨_, ho⟩ := valueDefinition_of_definingOp hop
    refine ⟨id, o, rfl, ?_⟩
    by_cases hread : f ∈ m.printedFlags o
    · obtain ⟨hread', honly, _, _, _, hne⟩ := mem_printedFlags hread
      have hne' := hne id ho
      refine ⟨hread', Or.inr ⟨hne', hread⟩, ?_⟩
      rw [honly, count_cons_of_ne hne', count_singleton_self]
    · rcases mem_cons.mp h with rfl | hmem
      · rw [ho] at hf
        cases hf
        exact ⟨hcounted, Or.inl ⟨rfl, rfl⟩, by
          rw [count_cons_self, count_eq_zero_of_not_mem hread]⟩
      · exact absurd hmem hread

/-- A counted operation is printed for one of the values that are reached. -/
theorem LooksOnce.printed (hlooks : LooksOnce ctx v) {d d' : Nat} {p q : ValueId} {f : OpId}
    {fo : XairOp} (hp : ReachedAt ctx v d p) (hq : ReachedAt ctx v d' q)
    (hf : ctx.module.op f = some fo) (hcounted : fo.Counted)
    (hmem : f ∈ ctx.module.printedOps p) (hmem' : f ∈ ctx.module.printedOps q) : p = q := by
  obtain ⟨id, o, hop, _, hown, _⟩ := mem_printedOps hmem hf hcounted
  obtain ⟨id', o', hop', _, hown', _⟩ := mem_printedOps hmem' hf hcounted
  rcases hown with ⟨rfl, rfl⟩ | ⟨_, hread⟩
  · rcases hown' with ⟨rfl, rfl⟩ | ⟨_, hread'⟩
    · exact hlooks.results hp hq hop hop' hcounted
    · exact absurd (valueDefinition_of_definingOp hop).1 (hlooks.unread hq hp hop' hread')
  · rcases hown' with ⟨rfl, rfl⟩ | ⟨_, hread'⟩
    · exact absurd (valueDefinition_of_definingOp hop').1 (hlooks.unread hp hq hop hread)
    · exact hlooks.flags hp hq hop hop' hread hread'

/-- What stands in one of the lists only, and once, stands once in all of them. -/
theorem count_flatMap_le_one {f : ValueId → List OpId} {id : OpId} (vs : List ValueId)
    (honce : ∀ x ∈ vs, id ∈ f x → (f x).count id = 1 ∧ vs.count x ≤ 1)
    (hsame : ∀ x ∈ vs, ∀ y ∈ vs, id ∈ f x → id ∈ f y → x = y) : (vs.flatMap f).count id ≤ 1 := by
  induction vs with
  | nil => exact Nat.zero_le _
  | cons x rest ih =>
    rw [flatMap_cons, count_append]
    have hrest := ih (fun y hy hmem => ⟨(honce y (mem_cons_of_mem _ hy) hmem).1,
        Nat.le_trans count_le_count_cons (honce y (mem_cons_of_mem _ hy) hmem).2⟩)
      (fun y hy z hz => hsame y (mem_cons_of_mem _ hy) z (mem_cons_of_mem _ hz))
    by_cases hmem : id ∈ f x
    · obtain ⟨hcount, honly⟩ := honce x mem_cons_self hmem
      rw [count_cons_self] at honly
      have hnone : (rest.flatMap f).count id = 0 := by
        refine count_eq_zero_of_not_mem fun hlater => ?_
        obtain ⟨y, hy, hin⟩ := mem_flatMap.mp hlater
        have hxy := hsame x mem_cons_self y (mem_cons_of_mem _ hy) hmem hin
        have hpos := count_pos_iff.mpr (hxy ▸ hy)
        omega
      omega
    · rw [count_eq_zero_of_not_mem hmem]
      omega

theorem loads_sublist (vs : List ValueId) :
    (vs.flatMap ctx.module.loadsOf).Sublist (vs.flatMap ctx.module.printedOps) := by
  induction vs with
  | nil => exact List.Sublist.refl _
  | cons x rest ih =>
    rw [flatMap_cons, flatMap_cons]
    refine List.Sublist.append ?_ ih
    unfold XairModule.loadsOf XairModule.printedOps
    cases ctx.module.definingOp x with
    | none => exact List.Sublist.refl _
    | some found =>
      dsimp only
      unfold ownLoads
      split
      · exact (nil_sublist _).cons_cons _
      · exact nil_sublist _

/-- Each operation is expanded at most once, the constants and unknown values apart. -/
def ExpandedOnce (ctx : RenderContext) (v : ValueId) : Prop :=
  ∀ id o, ctx.module.op id = some o → o.Counted → (expandedOps ctx v).count id ≤ 1

theorem expandedOnce_of_looksOnce (hlaid : ctx.module.Laid)
    (hlooks : LooksOnce ctx v) : ExpandedOnce ctx v ∧ (renderRoot ctx v).1.loads.Nodup := by
  have hops : ExpandedOnce ctx v := by
    intro id o ho hcounted
    have hreached : ∀ y ∈ expansions ctx v, ∃ d, ReachedAt ctx v d y := fun y hy =>
      (mem_expandedFrom _ v 0 true 0 [] (fun h => nomatch h) (fun _ => .root) y hy).2
    refine count_flatMap_le_one _ (fun x _ hmem => ?_) fun x hx y hy hmem hmem' => ?_
    · obtain ⟨_, _, hop, hcounted', _, honce⟩ := mem_printedOps hmem ho hcounted
      exact ⟨honce, count_expansions hlaid hlooks hop hcounted'⟩
    · obtain ⟨d, hp⟩ := hreached x hx
      obtain ⟨d', hq⟩ := hreached y hy
      exact hlooks.printed hp hq ho hcounted hmem hmem'
  refine ⟨hops, ?_⟩
  rw [(walked_renderRoot ctx v).2, nodup_iff_count]
  intro id
  by_cases hmem : id ∈ (expansions ctx v).flatMap ctx.module.loadsOf
  · obtain ⟨x, _, hx⟩ := mem_flatMap.mp hmem
    unfold XairModule.loadsOf at hx
    cases hop : ctx.module.definingOp x with
    | none =>
      rw [hop] at hx
      cases hx
    | some found =>
      obtain ⟨id', o⟩ := found
      rw [hop] at hx
      dsimp only [ownLoads] at hx
      split at hx
      · rename_i hload
        have hid : id = id' := mem_singleton.mp hx
        subst hid
        have hcounted : o.Counted := by
          simp [XairOp.Counted, hload.1]
        exact Nat.le_trans ((loads_sublist _).count_le id)
          (hops id o (valueDefinition_of_definingOp hop).2 hcounted)
      · cases hx
  · rw [count_eq_zero_of_not_mem hmem]
    exact Nat.zero_le _

/-- Definitions do not go in circles. -/
def XairModule.Acyclic (m : XairModule) : Prop :=
  ∃ rank : ValueId → Nat, ∀ x id o, m.definingOp x = some (id, o) →
    ∀ a ∈ o.inputs, rank a < rank x

theorem mem_of_lookedThrough {v u : ValueId} (h : m.lookedThrough v o = some u) : u ∈ o.inputs := by
  unfold XairModule.lookedThrough at h
  split at h
  all_goals first
    | exact mem_of_head? h
    | cases h
    | skip
  split at h
  · cases h
  rename_i hinputs
  split at h
  · cases h
  · obtain ⟨_, _, heq⟩ := Option.map_eq_some_iff.mp h
    rw [hinputs, heq]
    exact mem_cons_self

theorem rank_of_mem_shownInputs {rank : ValueId → Nat} (hrank : ∀ x id o,
      ctx.module.definingOp x = some (id, o) → ∀ a ∈ o.inputs, rank a < rank x)
    {x w : ValueId} (hop : ctx.module.definingOp x = some (id, o))
    (hmem : w ∈ shownInputs ctx x o) : rank w < rank x := by
  rcases shownInputs_subperm hop with hempty | ⟨sid, so, hsource, hsub⟩
  · rw [hempty] at hmem
    cases hmem
  have hbelow := hrank _ sid so hsource w (hsub.subset hmem)
  unfold XairModule.shownFrom at hbelow
  cases hthrough : ctx.module.lookedThrough x o with
  | none =>
    rw [hthrough] at hbelow
    exact hbelow
  | some u =>
    rw [hthrough] at hbelow
    exact Nat.lt_trans hbelow (hrank x id o hop u (mem_of_lookedThrough hthrough))

/-- How often the expanded values show a value. -/
def placesOf (ctx : RenderContext) (w : ValueId) (vs : List ValueId) : Nat :=
  (vs.map fun y => match ctx.module.definingOp y with
    | some (_, o) => (shownInputs ctx y o).count w
    | none => 0).sum

theorem placesOf_append (w : ValueId) (vs us : List ValueId) :
    placesOf ctx w (vs ++ us) = placesOf ctx w vs + placesOf ctx w us := by
  simp [placesOf]

variable {vs : List ValueId}

theorem placesOf_cons {x w : ValueId} (hop : ctx.module.definingOp x = some (id, o)) :
    placesOf ctx w (x :: vs) = (shownInputs ctx x o).count w + placesOf ctx w vs := by
  simp [placesOf, hop]

/-- As long as there is room, a value that may be shown is expanded. -/
theorem expandedFrom_ne_nil {n : Nat} {x : ValueId} {depth nodes : Nat}
    {active : List ValueId} (hshow : MayShow ctx horizon depth x) (hactive : x ∉ active)
    (hroom : nodes < ctx.options.room) :
    expandedFrom ctx (n + 1) x horizon depth false nodes active ≠ [] := by
  obtain ⟨hdepth, id, o, hop, hexpand⟩ := hshow
  obtain ⟨hnodes, htokens⟩ := Nat.lt_min.mp hroom
  have hlimit : ¬ atLimit ctx depth { nodes := nodes } = true := by
    simp only [atLimit, Bool.or_eq_true, decide_eq_true_eq, not_or, Nat.not_le]
    exact ⟨⟨hdepth, hnodes⟩, htokens⟩
  have hallowed : (canExpand ctx x id o horizon depth false { nodes := nodes }).1 = true := by
    unfold canExpand
    rw [if_neg Bool.false_ne_true, if_neg hlimit]
    exact hexpand
  have hexpanded : expandedBy ctx x horizon depth false nodes active = some o := by
    unfold expandedBy
    rw [hop]
    dsimp only
    rw [if_neg (by simpa using hactive), if_pos hallowed]
  rw [expandedFrom, hexpanded]
  exact cons_ne_nil _ _

/-- If each of several values expands a value at all its places, so do all of them. -/
theorem places_expandedAll {expanded : ValueId → Nat → List ValueId} {w : ValueId} {room : Nat}
    (vs : List ValueId) (h : ∀ c ∈ vs, ∀ nodes, nodes + (expanded c nodes).length < room →
      (if c = w then 1 else 0) + placesOf ctx w (expanded c nodes) ≤ (expanded c nodes).count w) :
    ∀ nodes, nodes + (expandedAll expanded vs nodes).length < room →
      vs.count w + placesOf ctx w (expandedAll expanded vs nodes) ≤
        (expandedAll expanded vs nodes).count w := by
  induction vs with
  | nil => exact fun _ _ => Nat.le_refl _
  | cons v rest ih =>
    intro nodes hroom
    rw [expandedAll, length_append] at hroom
    have hfirst := h v mem_cons_self nodes (by omega)
    have hrest := ih (fun c hc => h c (mem_cons_of_mem _ hc))
      (nodes + (expanded v nodes).length) (by omega)
    rw [expandedAll, count_append, placesOf_append, count_cons]
    simp only [beq_iff_eq]
    omega

section
variable {v w : ValueId} {rank : ValueId → Nat}

/-- Below the root, a value that may be shown is expanded at all its places. -/
theorem places_expandedFrom (hrank : ∀ x id o, ctx.module.definingOp x = some (id, o) →
      ∀ a ∈ o.inputs, rank a < rank x)
    (hdeep : ∀ {d x}, ReachedAt ctx v d x → d + 1 < ctx.options.maxDepth)
    (hw : ∃ id o, ctx.module.definingOp w = some (id, o) ∧
      mayExpand ctx w id o (rootOf ctx v) = true) (n : Nat) :
    ∀ x depth nodes active, ctx.options.maxDepth + 2 ≤ n + depth → depth < ctx.options.maxDepth →
      (MayShow ctx (rootOf ctx v) depth x → ReachedAt ctx v depth x) →
      (∀ a ∈ active, rank x < rank a) →
      nodes + (expandedFrom ctx n x (rootOf ctx v) depth false nodes active).length <
        ctx.options.room → (if x = w then 1 else 0) +
          placesOf ctx w (expandedFrom ctx n x (rootOf ctx v) depth false nodes active) ≤
        (expandedFrom ctx n x (rootOf ctx v) depth false nodes active).count w := by
  induction n with
  | zero =>
    intro x depth nodes active hn hdepth
    omega
  | succ n ih =>
    intro x depth nodes active hn hdepth hreached hactive hroom
    rcases @expandedFrom_succ ctx n x (rootOf ctx v) depth false nodes active with
      hnone | ⟨id, o, _, hop, hshow, hexpanded⟩
    · rw [hnone] at hroom ⊢
      by_cases hxw : x = w
      · subst hxw
        exact absurd hnone (expandedFrom_ne_nil ⟨hdepth, hw⟩
          (fun hmem => Nat.lt_irrefl _ (hactive x hmem)) hroom)
      · rw [if_neg hxw]
        exact Nat.le_refl _
    · have hx := hreached (hshow rfl)
      rw [hexpanded] at hroom ⊢
      rw [placesOf_cons hop, count_cons]
      have hall := @places_expandedAll ctx _ w _ (shownInputs ctx x o)
        (fun c hc nodes hroom => ih c (depth + 1) nodes (x :: active) (by omega) (hdeep hx)
          (fun hmay => hx.shown hop hc hmay) (by
            have hless := rank_of_mem_shownInputs hrank hop hc
            intro a ha
            rcases mem_cons.mp ha with rfl | ha
            · exact hless
            · exact Nat.lt_trans hless (hactive a ha)) hroom) (nodes + 1) (by
          rw [length_cons] at hroom
          omega)
      simp only [beq_iff_eq]
      omega

theorem places_expansions (hrank : ∀ x id o, ctx.module.definingOp x = some (id, o) →
      ∀ a ∈ o.inputs, rank a < rank x)
    (hdeep : ∀ {d x}, ReachedAt ctx v d x → d + 1 < ctx.options.maxDepth)
    (hw : ∃ id o, ctx.module.definingOp w = some (id, o) ∧
      mayExpand ctx w id o (rootOf ctx v) = true)
    (hroom : (expansions ctx v).length < ctx.options.room) :
    placesOf ctx w (expansions ctx v) ≤ (expansions ctx v).count w := by
  unfold expansions at hroom ⊢
  rcases @expandedFrom_succ ctx (ctx.options.maxDepth + 1) v (rootOf ctx v) 0 true 0 [] with
    hnone | ⟨id, o, _, hop, _, hexpanded⟩
  · rw [hnone]
    exact Nat.zero_le _
  rw [hexpanded] at hroom ⊢
  rw [placesOf_cons hop, count_cons]
  have hall := @places_expandedAll ctx _ w _ (shownInputs ctx v o)
    (fun c hc nodes hroom => places_expandedFrom hrank hdeep hw (ctx.options.maxDepth + 1) c
      (0 + 1) nodes [v] (by omega) (hdeep .root) (fun hmay => .shown .root hop hc hmay) (by
        intro a ha
        rw [mem_singleton.mp ha]
        exact rank_of_mem_shownInputs hrank hop hc) hroom) (0 + 1) (by
      rw [length_cons] at hroom
      omega)
  omega

theorem count_le_placesOf {p : ValueId}
    (hmem : p ∈ vs) (hop : ctx.module.definingOp p = some (id, o)) :
    (shownInputs ctx p o).count w ≤ placesOf ctx w vs := by
  obtain ⟨before, after, rfl⟩ := append_of_mem hmem
  rw [placesOf_append, placesOf_cons hop]
  omega

theorem count_add_le_placesOf {p q : ValueId} {id id' : OpId} {o o' : XairOp}
    (hne : p ≠ q) (hmem : p ∈ vs) (hop : ctx.module.definingOp p = some (id, o)) (hmem' : q ∈ vs)
    (hop' : ctx.module.definingOp q = some (id', o')) :
    (shownInputs ctx p o).count w + (shownInputs ctx q o').count w ≤ placesOf ctx w vs := by
  obtain ⟨before, after, rfl⟩ := append_of_mem hmem
  rw [placesOf_append, placesOf_cons hop]
  rcases mem_append.mp hmem' with hbefore | hafter
  · have hplace := count_le_placesOf (w := w) hbefore hop'
    omega
  rcases mem_cons.mp hafter with heq | hafter
  · exact absurd heq.symm hne
  · have hplace := count_le_placesOf (w := w) hafter hop'
    omega

theorem mem_expansions (hrank : ∀ x id o, ctx.module.definingOp x = some (id, o) →
      ∀ a ∈ o.inputs, rank a < rank x)
    (hdeep : ∀ {d x}, ReachedAt ctx v d x → d + 1 < ctx.options.maxDepth)
    (hroom : (expansions ctx v).length < ctx.options.room) {d : Nat} {x : ValueId}
    (hx : ReachedAt ctx v d x)
    (hop : ctx.module.definingOp x = some (id, o)) : x ∈ expansions ctx v := by
  induction hx generalizing id o with
  | root =>
    have hexpanded : expandedBy ctx v (rootOf ctx v) 0 true 0 [] = some o := by
      unfold expandedBy canExpand
      rw [hop]
      rfl
    unfold expansions
    rw [expandedFrom, hexpanded]
    exact mem_cons_self
  | @shown depth p w pid po hp hpop hmem hshow ih =>
    have hplaces := places_expansions hrank hdeep hshow.2 hroom
    have hplace := count_le_placesOf (w := w) (ih hpop) hpop
    have hpos := count_pos_iff.mpr hmem
    exact count_pos_iff.mp (by omega)

theorem count_le_flatMap {f : ValueId → List OpId} {p : ValueId} {id : OpId}
    (hmem : id ∈ f p) (vs : List ValueId) : vs.count p ≤ (vs.flatMap f).count id := by
  induction vs with
  | nil => exact Nat.le_refl _
  | cons x rest ih =>
    rw [flatMap_cons, count_append, count_cons]
    by_cases hxp : x = p
    · have hpos := count_pos_iff.mpr (hxp ▸ hmem)
      simp only [beq_iff_eq, if_pos hxp]
      omega
    · simp only [beq_iff_eq, if_neg hxp]
      omega

/-- If nothing is cut off, operations that are expanded once are looked through once. -/
theorem looksOnce_of_expandedOnce (hacyclic : ctx.module.Acyclic)
    (hdeep : ∀ {d x}, ReachedAt ctx v d x → d + 1 < ctx.options.maxDepth)
    (hroom : (renderRoot ctx v).2.nodes < ctx.options.room) (honce : ExpandedOnce ctx v) :
    LooksOnce ctx v := by
  obtain ⟨rank, hrank⟩ := hacyclic
  rw [(walked_renderRoot ctx v).1] at hroom
  -- two different values that print an operation expand it twice
  have hprinted : ∀ {d d' p q f id id'} {o o' fo : XairOp}, ReachedAt ctx v d p →
      ReachedAt ctx v d' q → ctx.module.definingOp p = some (id, o) →
      ctx.module.definingOp q = some (id', o') → ctx.module.op f = some fo → fo.Counted →
      f ∈ ctx.module.printedOps p → f ∈ ctx.module.printedOps q → p = q := by
    intro d d' p q f id id' o o' fo hp hq hop hop' hf hcounted hmem hmem'
    by_contra hne
    have hlimit := honce f fo hf hcounted
    obtain ⟨before, after, hsplit⟩ := append_of_mem (mem_expansions hrank hdeep hroom hp hop)
    have hin := mem_expansions hrank hdeep hroom hq hop'
    unfold expandedOps at hlimit
    rw [hsplit] at hlimit hin
    rw [flatMap_append, flatMap_cons, count_append, count_append] at hlimit
    have hfirst := count_pos_iff.mpr hmem
    rcases mem_append.mp hin with hbefore | hafter
    · have hsecond := count_pos_iff.mpr (mem_flatMap.mpr ⟨q, hbefore, hmem'⟩)
      omega
    rcases mem_cons.mp hafter with heq | hafter
    · exact hne heq.symm
    · have hsecond := count_pos_iff.mpr (mem_flatMap.mpr ⟨q, hafter, hmem'⟩)
      omega
  have hown : ∀ {x id} {o : XairOp}, ctx.module.definingOp x = some (id, o) →
      ctx.module.printedOps x = id :: ctx.module.printedFlags o := by
    intro x id o hop
    unfold XairModule.printedOps
    rw [hop]
  refine ⟨?_, ?_, ?_, ?_⟩
  · intro d d' p q id o hp hq hop hop' hcounted
    exact hprinted hp hq hop hop' (valueDefinition_of_definingOp hop).2 hcounted
      (by rw [hown hop]; exact mem_cons_self) (by rw [hown hop']; exact mem_cons_self)
  · intro d d' p q id id' f o o' hp hq hop hop' hread hread'
    obtain ⟨_, _, fo, hf, hcounted, _⟩ := mem_printedFlags hread
    exact hprinted hp hq hop hop' hf hcounted (by rw [hown hop]; exact mem_cons_of_mem _ hread)
      (by rw [hown hop']; exact mem_cons_of_mem _ hread')
  · intro d d' p q id f o hp hq hop hread hdef
    obtain ⟨_, _, fo, hf, hcounted, hne⟩ := mem_printedFlags hread
    have hop' : ctx.module.definingOp q = some (f, fo) := by simp [XairModule.definingOp, hdef, hf]
    have hsame := hprinted hp hq hop hop' hf hcounted
      (by rw [hown hop]; exact mem_cons_of_mem _ hread) (by rw [hown hop']; exact mem_cons_self)
    rw [hsame, hop'] at hop
    cases hop
    exact hne _ hf rfl
  · intro d d' p q w id id' wid o o' wo hp hq hop hop' _ hmem hmem' hw hcounted hshow _
    by_contra hne
    have hplaces := places_expansions hrank hdeep hshow.2 hroom
    have hboth := count_add_le_placesOf (w := w) hne (mem_expansions hrank hdeep hroom hp hop) hop
      (mem_expansions hrank hdeep hroom hq hop') hop'
    have hfirst := count_pos_iff.mpr hmem
    have hsecond := count_pos_iff.mpr hmem'
    have hcount : (expansions ctx v).count w ≤ (expandedOps ctx v).count wid :=
      count_le_flatMap (by rw [hown hw]; exact mem_cons_self) _
    have hlimit := honce wid wo (valueDefinition_of_definingOp hw).2 hcounted
    omega

end

/-- **No repeated inlining.**  If no operation is looked through by two of the values that are
reached, with an input that may be expanded there or with its own text, and none is reached
through two results, then each operation is expanded at most once, the constants and unknown
values apart, and no load is twice in the text.  In a rendering that no limit cuts off it is
the other way round as well. -/
theorem no_repeated_inlining (ctx : RenderContext) (v : ValueId) (hlaid : ctx.module.Laid) :
    (LooksOnce ctx v → ExpandedOnce ctx v ∧ (renderRoot ctx v).1.loads.Nodup) ∧
      (ctx.module.Acyclic → (∀ d x, ReachedAt ctx v d x → d + 1 < ctx.options.maxDepth) →
        (renderRoot ctx v).2.nodes < min ctx.options.maxNodes ctx.options.maxTokens →
        ExpandedOnce ctx v → LooksOnce ctx v) :=
  ⟨fun hlooks => expandedOnce_of_looksOnce hlaid hlooks,
    fun hacyclic hdeep hroom honce =>
      looksOnce_of_expandedOnce hacyclic (fun hx => hdeep _ _ hx) hroom honce⟩

/-- Nothing is looked through in a product of a sum. -/
theorem product_expanded_once : ExpandedOnce (productContext {}) 3 ∧
    (renderRoot (productContext {}) 3).1.loads.Nodup := by
  have hdefined : ∀ v id, productModule.valueDefinition v = some id → v < 4 := by
    intro v id hv
    by_contra hlarge
    have hnone : productModule.values[v]? = none :=
      getElem?_eq_none (Nat.le_of_not_lt hlarge)
    simp [XairModule.valueDefinition, hnone] at hv
  have hunread : ∀ {p id f} {o : XairOp}, productModule.definingOp p = some (id, o) →
      f ∉ productModule.printedFlags o := by
    intro p id f o hop
    have hall : ∀ v < 4, ∀ found ∈ productModule.definingOp v,
        productModule.printedFlags found.2 = [] := by
      decide
    rw [hall p (lt_of_definingOp hop) (id, o) hop]
    exact not_mem_nil
  have hsingle : ∀ {v w id}, productModule.valueDefinition v = some id →
      productModule.valueDefinition w = some id → v = w := by
    intro v w id hv hw
    have hall : ∀ v < 4, ∀ w < 4, ∀ id ∈ productModule.valueDefinition v,
        productModule.valueDefinition w = some id → v = w := by
      decide
    exact hall v (hdefined v id hv) w (hdefined w id hw) id hv hw
  refine (no_repeated_inlining (productContext {}) 3 ?_).1 ⟨?_, ?_, ?_, ?_⟩
  · intro v id hv
    have hall : ∀ v < 4, ∀ id ∈ productModule.valueDefinition v, id ∈ productModule.listed := by
      decide
    exact hall v (hdefined v id hv) id hv
  · intro d d' p q id o _ _ hop hop' _
    exact hsingle (valueDefinition_of_definingOp hop).1 (valueDefinition_of_definingOp hop').1
  · intro d d' p q id id' f o o' _ _ hop _ hread
    exact absurd hread (hunread hop)
  · intro d d' p q id f o _ _ hop hread
    exact absurd hread (hunread hop)
  · intro d d' p q w id id' wid o o' wo _ _ hop hop' hfrom _ _ _ _ _ _
    have hself : ∀ v < 4, ∀ found ∈ productModule.definingOp v,
        productModule.shownFrom v found.2 = v := by
      decide
    have hp := hself p (lt_of_definingOp hop) (id, o) hop
    have hq := hself q (lt_of_definingOp hop') (id', o') hop'
    change productModule.valueDefinition (productModule.shownFrom p o) =
      productModule.valueDefinition (productModule.shownFrom q o') at hfrom
    dsimp only at hp hq
    rw [hp, hq] at hfrom
    have hdef := (valueDefinition_of_definingOp hop').1
    exact hsingle (hfrom.trans hdef) hdef

/-- Two flags of one comparison: `v2` is loaded and compared with `v3`, and `v7` is true if it
is equal or below. -/
def comparedModule : XairModule where
  values :=
    [{ type := { kind := .mem } },
     { type := { kind := .addr, bits := 64 }, name := "p" },
     { type := { kind := .int, bits := 32 }, definition := some 0 },
     { type := { kind := .int, bits := 32 }, definition := some 1 },
     { type := { kind := .flags, bits := 8 }, definition := some 2 },
     { type := { kind := .int, bits := 1 }, definition := some 3 },
     { type := { kind := .int, bits := 1 }, definition := some 4 },
     { type := { kind := .int, bits := 1 }, definition := some 5 }]
  ops :=
    [{ opcode := .load, inputs := [0, 1], results := [2] },
     { opcode := .constU64, results := [3], immediateLow := 7 },
     { opcode := .flagsSub, inputs := [2, 3], results := [4] },
     { opcode := .flagZf, inputs := [4], results := [5] },
     { opcode := .flagCf, inputs := [4], results := [6] },
     { opcode := .or, inputs := [5, 6], results := [7] }]
  blocks := [{ ops := [0, 1, 2, 3, 4, 5], params := [0, 1], terminator := { kind := .ret } }]
  opcodeName := fun _ => []

/-- The rendering of the comparison, with the options as they are. -/
def comparedContext : RenderContext where
  module := comparedModule
  names := fun _ => none
  options := {}

/-- Both flag reads look through the comparison: it is expanded twice, and so is the load. -/
theorem load_shown_twice : (renderRoot comparedContext 7).1.loads = [0, 0] ∧
      (expandedOps comparedContext 7).count 0 = 2 ∧ (expandedOps comparedContext 7).count 2 = 2 ∧
      (buildNamed comparedContext 7).truncated = false := by
  decide

end Airece
