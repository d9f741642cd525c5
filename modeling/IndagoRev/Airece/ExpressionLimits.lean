import IndagoRev.Airece.ShownInputs

/-!
# The limits of an expression

A rendering that reached no limit does not change when the limits grow: the two renderings
run in lockstep, and as long as the first one is not truncated the second one takes the
same branch at each value.  The counter of the nodes stays within the limits, and below
`max_depth` no value is expanded, so the nesting is bounded on every module.
-/

namespace Airece

variable {ctx : RenderContext} {operand operand' : Operand}

theorem renderOperands_keeps {P : RenderState → Prop} (h : ∀ w s, P s → P (operand w s).2)
    (vs : List ValueId) : ∀ s, P s → P (renderOperands operand vs s).2 := by
  induction vs with
  | nil => exact fun _ hs => hs
  | cons v rest ih => exact fun s hs => ih _ (h v s hs)

theorem renderOperation_keeps {P : RenderState → Prop} (htracks : ∀ s s', Tracks s s' → P s → P s')
    (h : ∀ w s, P s → P (operand w s).2) (v : ValueId) (id : OpId) (o : XairOp)
    {s : RenderState} (hs : P s) : P (renderOperation ctx operand v id o s).2 := by
  obtain ⟨start, assemble, hstart, _, heq⟩ := @renders_operation ctx v id o
  have hrun : (renderOperation ctx operand v id o s).2 =
      (renderOperands operand (shownInputs ctx v o) (start s)).2 := congrArg Prod.snd (heq operand s)
  rw [hrun]
  exact renderOperands_keeps h _ _ (htracks _ _ (hstart s) hs)

/-- A value keeps what its operands keep, if what it does to the counter, the flag and the
active values keeps it too. -/
theorem renderValueWith_keeps {P : RenderState → Prop} {v : ValueId} {horizon : OpId} {depth : Nat}
    {root : Bool} {s : RenderState} (htracks : ∀ s s', Tracks s s' → P s → P s')
    (homit : ∀ s, P s → P s.omit) (hactive : ∀ s active, P s → P { s with active := active })
    (hcount : root = true ∨ atLimit ctx depth (s.trackValue v) = false → P s →
      P { s.trackValue v with nodes := s.nodes + 1 })
    (h : ∀ w s, P s → P (operand w s).2) (hs : P s) :
    P (renderValueWith ctx operand v horizon depth root s).2 := by
  have htracked : P (s.trackValue v) := htracks _ _ (tracks_trackValue s v) hs
  unfold renderValueWith
  dsimp only
  split
  · exact homit _ htracked
  split
  · exact htracked
  split
  · exact homit _ htracked
  rename_i id _ _ o _
  split
  · exact htracked
  unfold canExpand
  by_cases hroot : root = true
  · simp only [if_pos hroot, Bool.not_true, Bool.false_eq_true, if_false]
    exact hactive _ _ (renderOperation_keeps htracks h v id o
      (htracks _ _ (tracks_trackOperation _ id) (hactive _ _ (hcount (.inl hroot) hs))))
  simp only [if_neg hroot]
  by_cases hlimit : atLimit ctx depth (s.trackValue v) = true
  · simp only [if_pos hlimit, Bool.not_false, if_true]
    exact homit _ htracked
  simp only [if_neg hlimit]
  split
  · exact htracked
  · exact hactive _ _ (renderOperation_keeps htracks h v id o
      (htracks _ _ (tracks_trackOperation _ id)
        (hactive _ _ (hcount (.inr (by simpa using hlimit)) hs))))

theorem renderValue_truncated (n : Nat) (horizon : OpId) : ∀ v depth root s, s.truncated = true →
      (renderValue ctx n v horizon depth root s).2.truncated = true := by
  induction n with
  | zero => exact fun _ _ _ _ hs => hs
  | succ n ih =>
    intro v depth root s hs
    exact @renderValueWith_keeps ctx _ (fun s => s.truncated = true) v horizon depth root s
      (fun _ _ htracks h => htracks.truncated.trans h) (fun _ _ => rfl) (fun _ _ h => h)
      (fun _ h => h) (fun w s h => ih w (depth + 1) false s h) hs

variable (o : ExpressionOptions)

/-- The number of nodes that the options leave room for. -/
def ExpressionOptions.room : Nat := min o.maxNodes o.maxTokens

/-- Below the root, a value is expanded only while there is room. -/
theorem nodes_renderValue {bound : Nat} (hbound : ctx.options.room ≤ bound) (n : Nat)
    (horizon : OpId) :
    ∀ v depth s, s.nodes ≤ bound → (renderValue ctx n v horizon depth false s).2.nodes ≤ bound := by
  induction n with
  | zero => exact fun _ _ _ hs => hs
  | succ n ih =>
    intro v depth s hs
    refine @renderValueWith_keeps ctx _ (fun s => s.nodes ≤ bound) v horizon depth false s
      (fun _ _ htracks h => le_of_eq_of_le htracks.nodes h) (fun _ h => h) (fun _ _ h => h) ?_
      (fun w s h => ih w (depth + 1) s h) hs
    intro hroom _
    have hlimit : atLimit ctx depth (s.trackValue v) = false :=
      hroom.resolve_left Bool.false_ne_true
    simp only [atLimit, Bool.or_eq_false_iff, decide_eq_false_iff_not, Nat.not_le] at hlimit
    have hnodes : s.nodes < ctx.options.maxNodes := hlimit.1.2
    have htokens : s.nodes < ctx.options.maxTokens := hlimit.2
    have hless : s.nodes < ctx.options.room := Nat.lt_min.mpr ⟨hnodes, htokens⟩
    exact Nat.succ_le_of_lt (Nat.lt_of_lt_of_le hless hbound)

/-- The root is expanded in any case, and with it no more nodes than there is room for. -/
theorem nodes_renderRoot (ctx : RenderContext) (v : ValueId) :
    (renderRoot ctx v).2.nodes ≤ max 1 ctx.options.room := by
  refine @renderValueWith_keeps ctx _ (fun s => s.nodes ≤ max 1 ctx.options.room) v _ 0 true {}
    (fun _ _ htracks h => le_of_eq_of_le htracks.nodes h) (fun _ h => h) (fun _ _ h => h) ?_
    (fun w s h => nodes_renderValue (Nat.le_max_right _ _) _ _ w _ s h) (Nat.zero_le _)
  exact fun _ _ => Nat.le_max_left _ _

/-- A second rendering of operands does what a first one does that is not truncated. -/
def InStep (operand operand' : Operand) : Prop :=
  ∀ w s, (operand w s).2.truncated = false → operand' w s = operand w s

/-- A rendering of operands takes no truncation back. -/
def KeepsTruncated (operand : Operand) : Prop :=
  ∀ w s, s.truncated = true → (operand w s).2.truncated = true

theorem renderOperands_inStep (hkeeps : KeepsTruncated operand) (h : InStep operand operand')
    (vs : List ValueId) : ∀ s, (renderOperands operand vs s).2.truncated = false →
      renderOperands operand' vs s = renderOperands operand vs s := by
  induction vs with
  | nil => exact fun _ _ => rfl
  | cons v rest ih =>
    intro s hs
    have hfirst : (operand v s).2.truncated = false := by
      by_contra htrue
      rw [Bool.not_eq_false] at htrue
      have hend := renderOperands_keeps (P := fun s => s.truncated = true) hkeeps rest _ htrue
      exact Bool.false_ne_true (hs.symm.trans hend)
    have hrest := ih (operand v s).2 hs
    simp only [renderOperands, h v s hfirst, hrest]

variable {s : RenderState}

theorem renderOperation_inStep (hkeeps : KeepsTruncated operand) (h : InStep operand operand')
    (v : ValueId) (id : OpId) (o : XairOp)
    (hs : (renderOperation ctx operand v id o s).2.truncated = false) :
    renderOperation ctx operand' v id o s = renderOperation ctx operand v id o s := by
  obtain ⟨start, assemble, _, _, heq⟩ := @renders_operation ctx v id o
  have hrun := heq operand s
  have hrun' := heq operand' s
  dsimp only at hrun hrun'
  rw [hrun] at hs ⊢
  rw [hrun', renderOperands_inStep hkeeps h _ _ hs]

/-- Options with the same choices whose limits are at least those of others.  A zero
`max_characters` is no limit. -/
structure Wider (o o' : ExpressionOptions) : Prop where
  singleUse : o'.inlineSingleUse = o.inlineSingleUse
  loads : o'.inlineLoads = o.inlineLoads
  depth : o.maxDepth ≤ o'.maxDepth
  nodes : o.maxNodes ≤ o'.maxNodes
  tokens : o.maxTokens ≤ o'.maxTokens
  characters : o'.maxCharacters = 0 ∨ o.maxCharacters ≠ 0 ∧ o.maxCharacters ≤ o'.maxCharacters

/-- The same rendering with other options. -/
def RenderContext.withOptions (ctx : RenderContext) (o : ExpressionOptions) : RenderContext :=
  { ctx with options := o }

variable {o' : ExpressionOptions}

theorem renderOperation_withOptions (v : ValueId) (id : OpId) (o : XairOp) (s : RenderState) :
    renderOperation (ctx.withOptions o') operand v id o s =
      renderOperation ctx operand v id o s := rfl

variable {depth : Nat}

theorem Wider.atLimit (h : Wider ctx.options o') (hroom : Airece.atLimit ctx depth s = false) :
    Airece.atLimit (ctx.withOptions o') depth s = false := by
  have hdepth := h.depth
  have hnodes := h.nodes
  have htokens := h.tokens
  simp only [Airece.atLimit, Bool.or_eq_false_iff, decide_eq_false_iff_not, Nat.not_le]
    at hroom ⊢
  obtain ⟨⟨hdeep, hcount⟩, htoken⟩ := hroom
  exact ⟨⟨Nat.lt_of_lt_of_le hdeep hdepth, Nat.lt_of_lt_of_le hcount hnodes⟩,
    Nat.lt_of_lt_of_le htoken htokens⟩

theorem Wider.mayExpand (h : Wider ctx.options o') (v : ValueId) (id : OpId) (o : XairOp)
    (horizon : OpId) :
    Airece.mayExpand (ctx.withOptions o') v id o horizon = Airece.mayExpand ctx v id o horizon := by
  have hsingle := h.singleUse
  have hloads := h.loads
  unfold Airece.mayExpand RenderContext.withOptions
  dsimp only
  rw [hsingle, hloads]

variable {horizon : OpId} {v : ValueId} {root : Bool}

theorem Wider.canExpand (h : Wider ctx.options o') {id : OpId} {o : XairOp}
    (hfull : (Airece.canExpand ctx v id o horizon depth root s).2.truncated = false) :
    Airece.canExpand (ctx.withOptions o') v id o horizon depth root s =
      Airece.canExpand ctx v id o horizon depth root s := by
  unfold Airece.canExpand at hfull ⊢
  by_cases hroot : root = true
  · rw [if_pos hroot, if_pos hroot]
  rw [if_neg hroot] at hfull
  rw [if_neg hroot, if_neg hroot]
  by_cases hlimit : Airece.atLimit ctx depth s = true
  · rw [if_pos hlimit] at hfull
    exact absurd hfull.symm Bool.false_ne_true
  · have hroom : Airece.atLimit ctx depth s = false := by simpa using hlimit
    rw [hroom, h.atLimit hroom, h.mayExpand]

theorem depth_of_canExpand {id : OpId} {o : XairOp} (hroot : root = true → depth = 0)
    (hallowed : (canExpand ctx v id o horizon depth root s).1 = true) :
    depth < max 1 ctx.options.maxDepth := by
  unfold canExpand at hallowed
  by_cases htop : root = true
  · rw [hroot htop]
    exact Nat.lt_of_lt_of_le Nat.zero_lt_one (Nat.le_max_left _ _)
  rw [if_neg htop] at hallowed
  by_cases hlimit : atLimit ctx depth s = true
  · rw [if_pos hlimit] at hallowed
    exact absurd hallowed Bool.false_ne_true
  · simp only [atLimit, Bool.or_eq_true, decide_eq_true_eq, not_or, Nat.not_le] at hlimit
    exact Nat.lt_of_lt_of_le hlimit.1.1 (Nat.le_max_right _ _)

/-- One value in lockstep: below `max_depth` the operands do the same, and deeper there are
none. -/
theorem renderValueWith_inStep (h : Wider ctx.options o')
    (hroot : root = true → depth = 0) (hkeeps : KeepsTruncated operand)
    (hstep : depth < max 1 ctx.options.maxDepth → InStep operand operand')
    (hfull : (renderValueWith ctx operand v horizon depth root s).2.truncated = false) :
    renderValueWith (ctx.withOptions o') operand' v horizon depth root s =
      renderValueWith ctx operand v horizon depth root s := by
  have hmodule : (ctx.withOptions o').module = ctx.module := rfl
  unfold renderValueWith at hfull ⊢
  dsimp only at hfull ⊢
  by_cases hvalid : ctx.module.valueCount ≤ v
  · exact (if_pos hvalid).trans (if_pos hvalid).symm
  rw [if_neg hvalid] at hfull
  refine (if_neg hvalid).trans (Eq.trans ?_ (if_neg hvalid).symm)
  simp only [hmodule]
  cases hdef : ctx.module.valueDefinition v with
  | none => rfl
  | some id =>
    simp only [hdef] at hfull
    dsimp only
    cases hop : ctx.module.op id with
    | none => rfl
    | some o =>
      simp only [hop] at hfull
      dsimp only
      by_cases hactive : (s.trackValue v).active.contains v = true
      · exact (if_pos hactive).trans (if_pos hactive).symm
      rw [if_neg hactive] at hfull
      refine (if_neg hactive).trans (Eq.trans ?_ (if_neg hactive).symm)
      have hkept : (canExpand ctx v id o horizon depth root
          (s.trackValue v)).2.truncated = false := by
        by_contra htrue
        rw [Bool.not_eq_false] at htrue
        split at hfull
        · exact Bool.false_ne_true (hfull.symm.trans htrue)
        · exact Bool.false_ne_true (hfull.symm.trans (@renderOperation_keeps ctx operand
            (fun s => s.truncated = true) (fun _ _ htracks ht => htracks.truncated.trans ht)
            hkeeps v id o _ htrue))
      rw [h.canExpand hkept]
      by_cases hallowed : (canExpand ctx v id o horizon depth root (s.trackValue v)).1 = true
      · have hdeep := hstep (depth_of_canExpand hroot hallowed)
        simp only [hallowed, Bool.not_true, Bool.false_eq_true, if_false] at hfull ⊢
        rw [renderOperation_withOptions, renderOperation_inStep hkeeps hdeep v id o hfull]
      · simp only [hallowed, Bool.not_false, if_true]
        rfl

/-- **Lockstep.**  With wider limits, a rendering does what a rendering did that reached none
of its limits. -/
theorem renderValue_inStep (h : Wider ctx.options o') (horizon : OpId) (n n' : Nat) :
    ∀ v depth root s, (root = true → depth = 0) → depth ≤ max 1 ctx.options.maxDepth →
      max 1 ctx.options.maxDepth < n + depth → max 1 o'.maxDepth < n' + depth →
      (renderValue ctx n v horizon depth root s).2.truncated = false →
      renderValue (ctx.withOptions o') n' v horizon depth root s =
        renderValue ctx n v horizon depth root s := by
  induction n generalizing n' with
  | zero =>
    intro v depth root s _ hdepth hn
    exact absurd (Nat.lt_of_lt_of_le hn (by omega)) (Nat.lt_irrefl _)
  | succ n ih =>
    intro v depth root s hroot hdepth hn hn' hfull
    have hwide := h.depth
    cases n' with
    | zero => omega
    | succ n' =>
      refine renderValueWith_inStep h hroot
        (fun w s hs => renderValue_truncated n horizon w (depth + 1) false s hs) ?_ hfull
      intro hdeep w s hs
      exact ih n' w (depth + 1) false s (fun hfalse => absurd hfalse Bool.false_ne_true)
        hdeep (by omega) (by omega) hs

/-- A value whose operands are shown the same way above `max_depth` is shown the same way. -/
theorem renderValueWith_congr (hroot : root = true → depth = 0)
    (h : depth < max 1 ctx.options.maxDepth → operand' = operand) :
    renderValueWith ctx operand' v horizon depth root s =
      renderValueWith ctx operand v horizon depth root s := by
  by_cases hdeep : depth < max 1 ctx.options.maxDepth
  · rw [h hdeep]
  have hrefused : ∀ id o, (canExpand ctx v id o horizon depth root (s.trackValue v)).1 = false :=
    fun id o => Bool.not_eq_true _ ▸ fun htrue => hdeep (depth_of_canExpand hroot htrue)
  unfold renderValueWith
  dsimp only
  split
  · rfl
  split
  · rfl
  · split
    · rfl
    · simp only [hrefused, Bool.not_false, if_true]

/-- The rendering of a value does not depend on how much nesting is left over. -/
theorem renderValue_enough (horizon : OpId) (n n' : Nat) :
    ∀ v depth root s, (root = true → depth = 0) → depth ≤ max 1 ctx.options.maxDepth →
      max 1 ctx.options.maxDepth < n + depth → max 1 ctx.options.maxDepth < n' + depth →
      renderValue ctx n' v horizon depth root s = renderValue ctx n v horizon depth root s := by
  induction n generalizing n' with
  | zero =>
    intro v depth root s _ hdepth hn
    omega
  | succ n ih =>
    intro v depth root s hroot hdepth hn hn'
    cases n' with
    | zero => omega
    | succ n' =>
      refine renderValueWith_congr hroot fun hdeep => ?_
      funext w s
      exact ih n' w (depth + 1) false s (fun hfalse => absurd hfalse Bool.false_ne_true)
        hdeep (by omega) (by omega)

/-- **Limits.**  If an expression reached none of its limits, wider limits change nothing of
it; in any case the nodes that are expanded are within the limits, the root apart; and the
nesting is bounded by `max_depth`, whatever the module is. -/
theorem expression_limits (ctx : RenderContext) (o' : ExpressionOptions) (v : ValueId) :
    (Wider ctx.options o' → (buildNamed ctx v).truncated = false →
      (buildNamed (ctx.withOptions o') v).text = (buildNamed ctx v).text ∧
      (buildNamed (ctx.withOptions o') v).operations = (buildNamed ctx v).operations ∧
      (buildNamed (ctx.withOptions o') v).referencedValues = (buildNamed ctx v).referencedValues ∧
      (buildNamed (ctx.withOptions o') v).truncated = false) ∧
    (renderRoot ctx v).2.nodes ≤ max 1 (min ctx.options.maxNodes ctx.options.maxTokens) ∧
    ∀ extra, renderValue ctx (ctx.options.maxDepth + 2 + extra) v
      ((ctx.module.valueDefinition v).getD invalidId) 0 true {} = renderRoot ctx v := by
  refine ⟨fun h hfull => ?_, nodes_renderRoot ctx v, fun extra => ?_⟩
  · by_cases hvalid : ctx.module.valueCount ≤ v
    · have hinvalid : buildNamed (ctx.withOptions o') v = buildNamed ctx v :=
        (if_pos hvalid).trans (if_pos hvalid).symm
      rw [hinvalid]
      exact ⟨rfl, rfl, rfl, hfull⟩
    unfold buildNamed at hfull
    rw [if_neg hvalid] at hfull
    dsimp only at hfull
    by_cases hcut : ctx.options.maxCharacters ≠ 0 ∧
        ctx.options.maxCharacters < (renderRoot ctx v).1.rendered.text.length
    · rw [if_pos hcut] at hfull
      exact absurd hfull.symm Bool.false_ne_true
    rw [if_neg hcut] at hfull
    have hsame : renderRoot (ctx.withOptions o') v = renderRoot ctx v :=
      renderValue_inStep h _ _ _ v 0 true {} (fun _ => rfl) (Nat.zero_le _)
        (by omega) (by show _ < o'.maxDepth + 2 + 0; omega) hfull
    have hcut' : ¬ (o'.maxCharacters ≠ 0 ∧
        o'.maxCharacters < (renderRoot (ctx.withOptions o') v).1.rendered.text.length) := by
      rw [hsame]
      have hcharacters := h.characters
      omega
    have heq : buildNamed (ctx.withOptions o') v = buildNamed ctx v := by
      unfold buildNamed
      rw [if_neg hvalid]
      refine (if_neg hvalid).trans ?_
      dsimp only
      rw [if_neg hcut, if_neg hcut]
      rw [show (ctx.withOptions o').options = o' from rfl, if_neg hcut', if_neg hcut', hsame]
      rfl
    rw [heq]
    unfold buildNamed
    rw [if_neg hvalid]
    dsimp only
    refine ⟨rfl, rfl, rfl, ?_⟩
    rw [if_neg hcut]
    exact hfull
  · exact renderValue_enough _ _ _ v 0 true {} (fun _ => rfl) (Nat.zero_le _) (by omega) (by omega)

/-- Two unknown values, their sum, and its product with the second one. -/
def productModule : XairModule where
  values :=
    [{ type := { kind := .int, bits := 32 }, name := "a" },
     { type := { kind := .int, bits := 32 }, name := "b" },
     { type := { kind := .int, bits := 32 }, definition := some 0 },
     { type := { kind := .int, bits := 32 }, definition := some 1 }]
  ops :=
    [{ opcode := .add, inputs := [0, 1], results := [2] },
     { opcode := .mul, inputs := [2, 1], results := [3] }]
  blocks := [{ ops := [0, 1], params := [0, 1], terminator := { kind := .ret } }]
  opcodeName := fun _ => []

/-- The product with given options. -/
def productContext : RenderContext where
  module := productModule
  names := fun _ => none
  options := o

theorem product_shown_in_full :
    (buildNamed (productContext { maxDepth := 9, maxNodes := 70, maxCharacters := 0 }) 3).text =
      (buildNamed (productContext {}) 3).text :=
  ((expression_limits (productContext {}) { maxDepth := 9, maxNodes := 70, maxCharacters := 0 }
    3).1 ⟨rfl, rfl, by decide, by decide, by decide, Or.inl rfl⟩ (by decide)).1

/-- A zero limit on the characters is no limit, so a positive one is not wider; and a zero
depth lets no operand be expanded. -/
theorem zero_limits_differ :
    (buildNamed (productContext { maxCharacters := 0 }) 3).truncated = false ∧
      (buildNamed (productContext { maxCharacters := 5 }) 3).truncated = true ∧
      (buildNamed (productContext {}) 3).truncated = false ∧
      (buildNamed (productContext { maxDepth := 0 }) 3).truncated = true := by
  decide

end Airece
