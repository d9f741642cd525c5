import IndagoRev.Airece.LoadInlining

/-!
# What an operation shows

Every form of an operation first notes what it tracks, then shows some values one after
the other, and then puts their texts together.  Which values these are depends only on
the module.  A flag read and a truncation that undoes an extension look through the
operation below them: they show its inputs as their own.
-/

namespace Airece

open List

/-- The operands of `render_binary`. -/
def firstTwo : List ValueId → List ValueId
  | a :: b :: _ => [a, b]
  | _ => []

/-- What a flag read shows: inputs of the operation that sets the flags. -/
def XairModule.flagInputs (m : XairModule) (flags : ValueId) : List ValueId :=
  match m.definingOp flags with
  | none => []
  | some (_, o) =>
    if o.opcode = .flagsLogic then o.inputs.take 1
    else if o.opcode = .flagsAdd ∨ o.opcode = .flagsSub then firstTwo o.inputs
    else []

variable (ctx : RenderContext)

/-- What an operation shows, apart from the constant of a comparison or an exclusive or. -/
def comparedInputs (compares : Bool) (inputs : List ValueId) : List ValueId :=
  match (if compares then booleanOperand ctx inputs else none) with
  | some (_, other) => [other]
  | none => firstTwo inputs

variable (inputs : List ValueId) (a : OpAttributes)

/-- The values that a call shows. -/
def calledInputs : List ValueId :=
  if a.importName.isEmpty ∧ a.directTarget = 0 ∧ a.indirectCall = true then
    match inputs[indirectTarget ctx.module inputs (inputs.length - 1)]? with
    | some target =>
      target :: callArguments ctx.module inputs
        (indirectTarget ctx.module inputs (inputs.length - 1))
    | none => callArguments ctx.module inputs inputs.length
  else callArguments ctx.module inputs inputs.length

/-- The values that the operation of a value shows, in their order. -/
def shownInputs (v : ValueId) (o : XairOp) : List ValueId :=
  match o.opcode with
  | .constU64 | .constWide | .unknown | .undef => []
  | .add | .addrAdd | .sub | .addrSub | .mul | .udiv | .sdiv | .urem | .srem | .and | .or
  | .shl | .lshr | .ashr => firstTwo o.inputs
  | .xor => comparedInputs ctx ((ctx.module.valueType v).bits == 1) o.inputs
  | .eq | .ne | .ult | .ule | .slt | .sle =>
    comparedInputs ctx (decide (o.opcode = .eq ∨ o.opcode = .ne)) o.inputs
  | .zext | .sext | .trunc | .intToAddr | .addrToInt =>
    match o.inputs with
    | [] => []
    | input :: _ =>
      [(castIdentity ctx.module o.opcode (ctx.module.valueType v) input).getD input]
  | .extract => o.inputs.take 1
  | .select =>
    match o.inputs with
    | c :: a :: b :: _ => [c, a, b]
    | _ => []
  | .load =>
    match o.inputs with
    | _ :: address :: _ => [address]
    | _ => []
  | .store =>
    match o.inputs with
    | _ :: address :: data :: _ => [address, data]
    | _ => []
  | .flagZf | .flagCf | .flagOf | .flagSf | .flagPf | .flagAf =>
    match o.inputs with
    | [] => []
    | flags :: _ => ctx.module.flagInputs flags
  | .call => calledInputs ctx o.inputs o.attributes
  | _ => o.inputs

variable {ctx}

/-- What tracking leaves alone. -/
structure Tracks (s s' : RenderState) : Prop where
  nodes : s'.nodes = s.nodes
  truncated : s'.truncated = s.truncated
  omitted : s'.omitted = s.omitted
  active : s'.active = s.active

variable (s : RenderState)

theorem Tracks.refl : Tracks s s := ⟨rfl, rfl, rfl, rfl⟩

theorem Tracks.trans {s s' s'' : RenderState} (h : Tracks s s') (h' : Tracks s' s'') :
    Tracks s s'' where
  nodes := h'.nodes.trans h.nodes
  truncated := h'.truncated.trans h.truncated
  omitted := h'.omitted.trans h.omitted
  active := h'.active.trans h.active

theorem tracks_trackValue (v : ValueId) : Tracks s (s.trackValue v) :=
  ⟨rfl, rfl, rfl, rfl⟩

theorem tracks_trackOperation (id : OpId) : Tracks s (s.trackOperation id) :=
  ⟨rfl, rfl, rfl, rfl⟩

theorem tracks_inputs : Tracks s (inputs.foldl RenderState.trackValue s) := by
  induction inputs generalizing s with
  | nil => exact Tracks.refl s
  | cons v rest ih => exact (tracks_trackValue s v).trans (ih (s.trackValue v))

/-- A rendering tracks something, shows the given values in their order, and puts what
they show together: of the loads in its text the given ones are its own. -/
def Renders (loads : List OpId) (f : Operand → RenderState → Shown × RenderState)
    (shown : List ValueId) : Prop :=
  ∃ (start : RenderState → RenderState) (assemble : List Shown → Shown),
    (∀ s, Tracks s (start s)) ∧
    (∀ es, es.length = shown.length → (assemble es).loads = loads ++ argumentLoads es) ∧
    ∀ operand s, f operand s =
      (assemble (renderOperands operand shown (start s)).1,
        (renderOperands operand shown (start s)).2)

variable {loads : List OpId} {f : Operand → RenderState → Shown × RenderState}
  {shown : List ValueId}

theorem renders_constant {e : Shown} (he : e.loads = []) : Renders [] (fun _ s => (e, s)) [] := by
  refine ⟨id, fun _ => e, Tracks.refl, fun es hes => ?_, fun _ _ => rfl⟩
  rw [length_eq_zero_iff.mp hes, he]
  rfl

theorem renders_single (v : ValueId) : Renders [] (fun operand s => operand v s) [v] := by
  refine ⟨id, fun es => es.headD (.word []), Tracks.refl, fun es hes => ?_, fun _ _ => rfl⟩
  obtain ⟨e, rfl⟩ := length_eq_one_iff.mp hes
  exact (append_nil _).symm

theorem renders_operands {g : List Shown → Shown} (hg : ∀ es, (g es).loads = argumentLoads es)
    (vs : List ValueId) : Renders [] (fun operand s =>
      (g (renderOperands operand vs s).1, (renderOperands operand vs s).2)) vs :=
  ⟨id, g, Tracks.refl, fun es _ => hg es, fun _ _ => rfl⟩

theorem Renders.map (h : Renders [] f shown) {own : List OpId} (g : Shown → Shown)
    (hg : ∀ e, (g e).loads = own ++ e.loads) :
    Renders own (fun operand s => (g (f operand s).1, (f operand s).2)) shown := by
  obtain ⟨start, assemble, hstart, hloads, heq⟩ := h
  refine ⟨start, g ∘ assemble, hstart, fun es hes => ?_, fun operand s => ?_⟩
  · rw [Function.comp_apply, hg, hloads es hes, nil_append]
  · simp only [heq, Function.comp_apply]

theorem Renders.after (h : Renders loads f shown) {before : RenderState → RenderState}
    (hbefore : ∀ s, Tracks s (before s)) :
    Renders loads (fun operand s => f operand (before s)) shown := by
  obtain ⟨start, assemble, hstart, hloads, heq⟩ := h
  exact ⟨start ∘ before, assemble, fun s => (hbefore s).trans (hstart (before s)), hloads,
    fun operand s => heq operand (before s)⟩

theorem Renders.named (h : Renders [] f shown) (name : StdText.Text) :
    Renders [] (fun operand s => (.function name [(f operand s).1], (f operand s).2)) shown :=
  h.map (fun e => .function name [e]) (fun _ => append_nil _)

theorem renders_binary (op : InfixOp) :
    Renders [] (fun operand s => renderBinary operand inputs op s) (firstTwo inputs) := by
  match inputs with
  | [] => exact renders_constant rfl
  | [_] => exact renders_constant rfl
  | a :: b :: _ =>
    refine ⟨id, fun es => .binary op (es.headD (.word [])) (es.tail.headD (.word [])),
      Tracks.refl, fun es hes => ?_, fun _ _ => rfl⟩
    obtain ⟨l, r, rfl⟩ := length_eq_two.mp hes
    exact congrArg (l.loads ++ ·) (append_nil _).symm

variable (opcode : Opcode)

theorem renders_comparison :
    Renders [] (fun operand s => renderComparison ctx operand inputs opcode s)
      (comparedInputs ctx (decide (opcode = .eq ∨ opcode = .ne)) inputs) := by
  unfold renderComparison comparedInputs
  simp only [decide_eq_true_eq]
  by_cases hshort : inputs.length < 2
  · have hnone : booleanOperand ctx inputs = none := by
      rcases inputs with _ | ⟨a, _ | ⟨b, rest⟩⟩
      · rfl
      · rfl
      · exact absurd hshort (by simp)
    have hfirst : firstTwo inputs = [] := by
      rcases inputs with _ | ⟨a, _ | ⟨b, rest⟩⟩
      · rfl
      · rfl
      · exact absurd hshort (by simp)
    simp only [if_pos hshort, hnone, ite_self, hfirst]
    exact renders_constant rfl
  · simp only [if_neg hshort]
    cases (if opcode = .eq ∨ opcode = .ne then booleanOperand ctx inputs else none) with
    | none => exact renders_binary inputs _
    | some found =>
      obtain ⟨constant, other⟩ := found
      dsimp only
      split
      · exact (renders_single other).map Shown.negated (fun _ => rfl)
      · exact renders_single other

theorem renders_flag (flag : Opcode) (flags : ValueId) :
    Renders [] (fun operand s => renderFlag ctx operand flag flags s)
      (ctx.module.flagInputs flags) := by
  unfold renderFlag XairModule.flagInputs
  cases ctx.module.definingOp flags with
  | none => exact renders_constant rfl
  | some found =>
    obtain ⟨id, o⟩ := found
    dsimp only
    by_cases hother : (o.opcode ≠ .flagsAdd ∧ o.opcode ≠ .flagsSub ∧ o.opcode ≠ .flagsLogic) ∨
        o.inputs = []
    · simp only [if_pos hother]
      have hnothing : (if o.opcode = .flagsLogic then o.inputs.take 1
          else if o.opcode = .flagsAdd ∨ o.opcode = .flagsSub then firstTwo o.inputs
          else []) = [] := by
        rcases hother with ⟨hadd, hsub, hlogic⟩ | hnil
        · simp [hadd, hsub, hlogic]
        · simp [hnil, firstTwo]
      rw [hnothing]
      exact renders_constant rfl
    · simp only [if_neg hother]
      rw [not_or, not_and_or, not_and_or, not_not, not_not, not_not] at hother
      obtain ⟨hop, hne⟩ := hother
      have htrack := fun s => tracks_trackOperation s id
      by_cases hlogic : o.opcode = .flagsLogic
      · -- the tested value alone
        obtain ⟨a, rest, hinputs⟩ := exists_cons_of_ne_nil hne
        simp only [hlogic, hinputs, reduceCtorEq, false_and, if_false, if_true, List.take]
        split
        · exact ((renders_single a).map Shown.zeroTest (fun _ => rfl)).after htrack
        · exact ((renders_single a).named _).after htrack
      have harith : o.opcode = .flagsAdd ∨ o.opcode = .flagsSub := by
        rcases hop with h | h | h
        · exact Or.inl h
        · exact Or.inr h
        · exact absurd h hlogic
      simp only [if_neg hlogic, if_pos harith]
      split
      · exact (renders_binary o.inputs .eq).after htrack
      · split
        · exact (renders_binary o.inputs .ult).after htrack
        · split
          · exact ((renders_binary o.inputs _).map Shown.zeroTest (fun _ => rfl)).after htrack
          · exact ((renders_binary o.inputs _).named _).after htrack

theorem renders_call :
    Renders [] (fun operand s => renderCall ctx operand inputs a s) (calledInputs ctx inputs a) := by
  unfold renderCall calledInputs
  dsimp only
  by_cases himport : a.importName.isEmpty = true
  · by_cases hdirect : a.directTarget = 0
    · simp only [himport, hdirect, Bool.not_true, Bool.false_eq_true, if_false, ne_eq,
        not_true_eq_false, true_and]
      by_cases hindirect : a.indirectCall = true
      · simp only [hindirect, if_true]
        cases inputs[indirectTarget ctx.module inputs (inputs.length - 1)]? with
        | none => exact renders_operands (fun _ => rfl) _
        | some target =>
          refine ⟨id, fun es => .apply (es.headD (.word [])) es.tail, Tracks.refl,
            fun es hes => ?_, fun _ _ => rfl⟩
          obtain ⟨e, rest, rfl⟩ := exists_cons_of_length_eq_add_one hes
          rfl
      · simp only [hindirect, Bool.false_eq_true, if_false]
        exact renders_operands (fun _ => rfl) _
    · simp only [himport, hdirect, Bool.not_true, Bool.false_eq_true, if_false, ne_eq,
        not_false_eq_true, if_true, false_and, and_false]
      exact renders_operands (fun _ => rfl) _
  · simp only [himport, Bool.not_false, if_true, false_and, Bool.false_eq_true, if_false]
    exact renders_operands (fun _ => rfl) _

theorem renders_xor (bits : Nat) (inputs : List ValueId) : Renders [] (fun operand s =>
        match (if bits = 1 then booleanOperand ctx inputs else none) with
        | some (constant, other) =>
          if constant then (.negated (operand other s).1, (operand other s).2)
          else operand other s
        | none => renderBinary operand inputs .xor s)
      (comparedInputs ctx (bits == 1) inputs) := by
  unfold comparedInputs
  simp only [beq_iff_eq]
  cases (if bits = 1 then booleanOperand ctx inputs else none) with
  | none => exact renders_binary inputs _
  | some found =>
    obtain ⟨constant, other⟩ := found
    dsimp only
    split
    · exact (renders_single other).map Shown.negated (fun _ => rfl)
    · exact renders_single other

theorem renders_cast (type : XairType) (name : StdText.Text) (input : ValueId) :
    Renders [] (fun operand s =>
        match castIdentity ctx.module opcode type input with
        | some inner => operand inner s
        | none => (.cast opcode type name (operand input s).1, (operand input s).2))
      [(castIdentity ctx.module opcode type input).getD input] := by
  cases castIdentity ctx.module opcode type input with
  | none => exact (renders_single input).map (Shown.cast opcode type name) (fun _ => rfl)
  | some inner => exact renders_single inner

/-- The load that an operation shows itself. -/
def ownLoads (id : OpId) (o : XairOp) : List OpId :=
  if o.opcode = .load ∧ 2 ≤ o.inputs.length then [id] else []

/-- Every form of an operation shows its values in their order. -/
theorem renders_operation (v : ValueId) (id : OpId) (o : XairOp) :
    Renders (ownLoads id o) (fun operand s => renderOperation ctx operand v id o s) (shownInputs ctx v o) := by
  unfold renderOperation shownInputs ownLoads
  cases hop : o.opcode
  all_goals simp only [reduceCtorEq, false_and, if_false, true_and]
  all_goals first
    | exact (renders_constant rfl).after (tracks_inputs _)
    | exact (renders_binary _ _).after (tracks_inputs _)
    | exact (renders_comparison _ _).after (tracks_inputs _)
    | exact (renders_call _ _).after (tracks_inputs _)
    | exact (renders_operands (fun _ => rfl) _).after (tracks_inputs _)
    | exact (renders_xor _ _).after (tracks_inputs _)
    | skip
  -- what is left are the forms that look at the number of their inputs
  all_goals rcases hinputs : o.inputs with _ | ⟨a, _ | ⟨b, _ | ⟨c, rest⟩⟩⟩
  all_goals first
    | exact (renders_constant rfl).after (tracks_inputs _)
    | exact (renders_cast _ _ _ _).after (tracks_inputs _)
    | exact (renders_flag _ _).after (tracks_inputs _)
    | exact ((renders_single a).named _).after (tracks_inputs _)
    | exact (renders_operands (fun _ => rfl) _).after (tracks_inputs _)
    | skip
  case select =>
    refine ⟨_, fun es => .select (es.headD (.word [])) (es.tail.headD (.word []))
      (es.tail.tail.headD (.word [])), tracks_inputs _, fun es hes => ?_, fun _ _ => rfl⟩
    obtain ⟨x, y, z, rfl⟩ := length_eq_three.mp hes
    exact congrArg (fun ids => x.loads ++ (y.loads ++ ids)) (append_nil _).symm
  all_goals simp only [length_cons, length_nil, Nat.reduceAdd, Nat.le_refl,
    Nat.le_add_left, if_true]
  all_goals exact ((renders_single b).map (Shown.load id _) (fun _ => rfl)).after (tracks_inputs _)

end Airece
