import IndagoRev.Airece.ShownInputs
import IndagoRev.Airece.ConcreteValues

/-!
# The values that a rendering expands

The walk of `render_value`, without its texts: which values are expanded, in their order.
It needs no more of the state than the counter and the active values.  The renderer counts
the values of the walk, and its text shows the loads among them.
-/

namespace Airece

open List

variable (ctx : RenderContext)

variable (v : ValueId)

/-- The operation that a value is shown by, for a state of the counter and of the active
values. -/
def expandedBy (horizon : OpId) (depth : Nat) (root : Bool) (nodes : Nat)
    (active : List ValueId) : Option XairOp :=
  match ctx.module.definingOp v with
  | none => none
  | some (id, o) =>
    if active.contains v then none
    else if (canExpand ctx v id o horizon depth root { nodes := nodes }).1 then some o
    else none

/-- What several values expand, one after the other. -/
def expandedAll (expanded : ValueId → Nat → List ValueId) : List ValueId → Nat → List ValueId
  | [], _ => []
  | w :: rest, nodes =>
    expanded w nodes ++ expandedAll expanded rest (nodes + (expanded w nodes).length)

/-- The values that `render_value` expands, in their order. -/
def expandedFrom : Nat → ValueId → OpId → Nat → Bool → Nat → List ValueId → List ValueId
  | 0, _, _, _, _, _, _ => []
  | n + 1, v, horizon, depth, root, nodes, active =>
    match expandedBy ctx v horizon depth root nodes active with
    | none => []
    | some o =>
      v :: expandedAll
        (fun w nodes => expandedFrom n w horizon (depth + 1) false nodes (v :: active))
        (shownInputs ctx v o) (nodes + 1)

/-- The operation at which a value is to be computed. -/
def rootOf : OpId := (ctx.module.valueDefinition v).getD invalidId

/-- The values that the rendering of a value expands. -/
def expansions : List ValueId :=
  expandedFrom ctx (ctx.options.maxDepth + 2) v (rootOf ctx v) 0 true 0 []

/-- The loads that the operation of a value shows itself. -/
def XairModule.loadsOf (m : XairModule) (v : ValueId) : List OpId :=
  match m.definingOp v with
  | some (id, o) => ownLoads id o
  | none => []

variable {ctx} {operand : Operand}

/-- A rendering counts what it expands, and its text has the loads among it. -/
structure Walked (m : XairModule) (s : RenderState) (expanded : List ValueId)
    (shown : List OpId) (s' : RenderState) : Prop where
  nodes : s'.nodes = s.nodes + expanded.length
  active : s'.active = s.active
  loads : shown = expanded.flatMap m.loadsOf

theorem walked_leaf {m : XairModule} {s s' : RenderState} (hnodes : s'.nodes = s.nodes)
    (hactive : s'.active = s.active) : Walked m s [] [] s' :=
  ⟨hnodes, hactive, rfl⟩

theorem walked_operands {expanded : ValueId → Nat → List ValueId} {active : List ValueId}
    (h : ∀ w s, s.active = active →
      Walked ctx.module s (expanded w s.nodes) (operand w s).1.loads (operand w s).2)
    (vs : List ValueId) : ∀ s, s.active = active →
      Walked ctx.module s (expandedAll expanded vs s.nodes)
        (argumentLoads (renderOperands operand vs s).1) (renderOperands operand vs s).2 := by
  induction vs with
  | nil => exact fun s _ => walked_leaf rfl rfl
  | cons v rest ih =>
    intro s hs
    have hfirst := h v s hs
    have hrest := ih (operand v s).2 (hfirst.active.trans hs)
    rw [hfirst.nodes] at hrest
    refine ⟨?_, hrest.active.trans hfirst.active, ?_⟩
    · refine hrest.nodes.trans ?_
      rw [hfirst.nodes, expandedAll, length_append, Nat.add_assoc]
    · rw [expandedAll, flatMap_append, ← hfirst.loads, ← hrest.loads]
      rfl

theorem length_renderOperands (vs : List ValueId) :
    ∀ s, (renderOperands operand vs s).1.length = vs.length := by
  induction vs with
  | nil => exact fun _ => rfl
  | cons v rest ih => exact fun s => congrArg Nat.succ (ih _)

theorem walked_operation {expanded : ValueId → Nat → List ValueId} {v : ValueId} {id : OpId}
    {o : XairOp} {s : RenderState} (h : ∀ w t, t.active = s.active →
      Walked ctx.module t (expanded w t.nodes) (operand w t).1.loads (operand w t).2)
    (hop : ctx.module.definingOp v = some (id, o)) :
    (renderOperation ctx operand v id o s).2.nodes =
        s.nodes + (expandedAll expanded (shownInputs ctx v o) s.nodes).length ∧
      (renderOperation ctx operand v id o s).2.active = s.active ∧
      (renderOperation ctx operand v id o s).1.loads = ctx.module.loadsOf v ++
          (expandedAll expanded (shownInputs ctx v o) s.nodes).flatMap ctx.module.loadsOf := by
  obtain ⟨start, assemble, hstart, hloads, heq⟩ := @renders_operation ctx v id o
  have hrun := heq operand s
  have hwalked := walked_operands h (shownInputs ctx v o) (start s) (hstart s).active
  have hown : ctx.module.loadsOf v = ownLoads id o := by
    unfold XairModule.loadsOf
    rw [hop]
  dsimp only at hrun
  rw [hrun, hloads _ (length_renderOperands _ _), hown]
  rw [(hstart s).nodes] at hwalked
  refine ⟨?_, hwalked.active.trans (hstart s).active, congrArg _ hwalked.loads⟩
  exact hwalked.nodes.trans (by rw [(hstart s).nodes])

theorem canExpand_fst {v : ValueId} {id : OpId} {o : XairOp} {horizon : OpId} {depth : Nat}
    {root : Bool} {s : RenderState} :
    (canExpand ctx v id o horizon depth root { nodes := s.nodes }).1 =
      (canExpand ctx v id o horizon depth root s).1 := by
  unfold canExpand
  split
  · rfl
  · change (if atLimit ctx depth s = true then _ else _ : Bool × RenderState).1 = _
    split <;> rfl

theorem canExpand_snd {v : ValueId} {id : OpId} {o : XairOp} {horizon : OpId} {depth : Nat}
    {root : Bool} {s : RenderState} :
    (canExpand ctx v id o horizon depth root s).2.nodes = s.nodes ∧
      (canExpand ctx v id o horizon depth root s).2.active = s.active := by
  unfold canExpand
  split
  · exact ⟨rfl, rfl⟩
  · split <;> exact ⟨rfl, rfl⟩

/-- The renderer expands the values of the walk: it counts them, and its text has the loads
among them. -/
theorem walked_renderValue (horizon : OpId) (n : Nat) : ∀ v depth root s, Walked ctx.module s
      (expandedFrom ctx n v horizon depth root s.nodes s.active)
      (renderValue ctx n v horizon depth root s).1.loads
      (renderValue ctx n v horizon depth root s).2 := by
  induction n with
  | zero => exact fun _ _ _ _ => walked_leaf rfl rfl
  | succ n ih =>
    intro v depth root s
    have hnone : ctx.module.definingOp v = none →
        expandedFrom ctx (n + 1) v horizon depth root s.nodes s.active = [] := by
      intro hop
      simp only [expandedFrom, expandedBy, hop]
    rw [renderValue, renderValueWith]
    dsimp only
    split
    · rename_i hinvalid
      have hop : ctx.module.definingOp v = none :=
        Option.eq_none_iff_forall_ne_some.mpr
          fun _ h => absurd (lt_of_definingOp h) (Nat.not_lt.mpr hinvalid)
      rw [hnone hop]
      exact walked_leaf rfl rfl
    split
    · rename_i hdef
      rw [hnone (by simp [XairModule.definingOp, hdef])]
      exact walked_leaf rfl rfl
    rename_i id hdef
    split
    · rename_i hopless
      rw [hnone (by simp [XairModule.definingOp, hdef, hopless])]
      exact walked_leaf rfl rfl
    rename_i o ho
    have hop : ctx.module.definingOp v = some (id, o) := by
      simp [XairModule.definingOp, hdef, ho]
    obtain ⟨hnodes, hactive⟩ : (canExpand ctx v id o horizon depth root
        (s.trackValue v)).2.nodes = s.nodes ∧ (canExpand ctx v id o horizon depth root
        (s.trackValue v)).2.active = s.active := canExpand_snd
    have hfirst : (canExpand ctx v id o horizon depth root { nodes := s.nodes }).1 =
        (canExpand ctx v id o horizon depth root (s.trackValue v)).1 :=
      @canExpand_fst ctx v id o horizon depth root (s.trackValue v)
    by_cases hcycle : s.active.contains v = true
    · have hrefused : expandedFrom ctx (n + 1) v horizon depth root s.nodes s.active =
          [] := by
        simp only [expandedFrom, expandedBy, hop, if_pos hcycle]
      rw [hrefused]
      simp only [if_pos (show (s.trackValue v).active.contains v = true from hcycle)]
      exact walked_leaf rfl rfl
    simp only [if_neg (show ¬ (s.trackValue v).active.contains v = true from hcycle)]
    by_cases hallowed : (canExpand ctx v id o horizon depth root (s.trackValue v)).1 = true
    · simp only [hallowed, Bool.not_true, Bool.false_eq_true, if_false]
      have hexpanded : expandedFrom ctx (n + 1) v horizon depth root s.nodes s.active =
          v :: expandedAll (fun w nodes =>
            expandedFrom ctx n w horizon (depth + 1) false nodes (v :: s.active))
            (shownInputs ctx v o) (s.nodes + 1) := by
        simp only [expandedFrom, expandedBy, hop, if_neg hcycle, hfirst, hallowed, if_true]
      rw [hexpanded]
      let t : RenderState := RenderState.trackOperation
        { (canExpand ctx v id o horizon depth root (s.trackValue v)).2 with
          nodes := (canExpand ctx v id o horizon depth root (s.trackValue v)).2.nodes + 1
          active := v :: (canExpand ctx v id o horizon depth root
            (s.trackValue v)).2.active } id
      have htnodes : t.nodes = s.nodes + 1 := congrArg Nat.succ hnodes
      have htactive : t.active = v :: s.active := congrArg (v :: ·) hactive
      have hinner : ∀ w u, u.active = t.active → Walked ctx.module u
          (expandedFrom ctx n w horizon (depth + 1) false u.nodes (v :: s.active))
          (renderValue ctx n w horizon (depth + 1) false u).1.loads
          (renderValue ctx n w horizon (depth + 1) false u).2 := by
        intro w u hu
        have hstep := ih w (depth + 1) false u
        rwa [hu, htactive] at hstep
      obtain ⟨hcount, hsame, hloads⟩ := @walked_operation ctx
        (fun w s => renderValue ctx n w horizon (depth + 1) false s)
        (fun w nodes => expandedFrom ctx n w horizon (depth + 1) false nodes
          (v :: s.active)) v id o t hinner hop
      rw [htnodes] at hcount hloads
      refine ⟨hcount.trans ?_, ?_, hloads⟩
      · rw [length_cons]
        omega
      · refine (congrArg (List.filter (· ≠ v)) (hsame.trans htactive)).trans ?_
        rw [filter_cons_of_neg (by simp)]
        refine filter_eq_self.mpr fun w hw => ?_
        have hne : w ≠ v := fun heq => hcycle (by simpa [heq] using hw)
        simpa using hne
    · have hrefused : expandedFrom ctx (n + 1) v horizon depth root s.nodes s.active =
          [] := by
        simp only [expandedFrom, expandedBy, hop, if_neg hcycle, hfirst, hallowed,
          Bool.false_eq_true, if_false]
      rw [hrefused]
      simp only [hallowed, Bool.not_false, if_true]
      exact walked_leaf hnodes hactive

/-- The rendering of a value expands as many nodes as it counts, and its text shows the loads
among them. -/
theorem walked_renderRoot (ctx : RenderContext) (v : ValueId) :
    (renderRoot ctx v).2.nodes = (expansions ctx v).length ∧
      (renderRoot ctx v).1.loads = (expansions ctx v).flatMap ctx.module.loadsOf := by
  have hwalked := @walked_renderValue ctx (rootOf ctx v) (ctx.options.maxDepth + 2) v 0
    true {}
  exact ⟨hwalked.nodes.trans (Nat.zero_add _), hwalked.loads⟩

end Airece
