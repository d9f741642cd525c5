import IndagoRev.Airece.PseudoControlFlow

/-!
# When the pseudo view preserves control flow

A layout exit depends on nothing, on one truth, on one index or on one choice;
a transfer of the control view does so too.  Since an evaluation can set each of
these independently, the text follows the transfers of a block only when both
depend on the same thing and agree on it.
-/

namespace Airece

open StdText List

variable (view : CompactFunctionView)

variable (view : CompactFunctionView) (transfers : List ControlTransfer)

/-- Every evaluation allows some transfer of the list. -/
def Exhaustive : Prop :=
  ∀ env : Evaluation, ∃ t ∈ transfers, mayTake view env t

/-- All transfers lead to one place, and one of them always applies. -/
def AlwaysAgrees (exit : Exit) (transfers : List ControlTransfer) : Prop :=
  (∀ t ∈ transfers, destination view t = exit) ∧
    (transfers ≠ [] → Exhaustive view transfers)

/-- Every transfer is conditional on the printed condition and leads to the side
of its own truth value. -/
def BranchAgrees (condition : Text) (whenTrue whenFalse : Exit)
    (transfers : List ControlTransfer) : Prop :=
  ∀ t ∈ transfers, t.conditional = true ∧
    blockCondition view t.source t.condition = condition ∧
    destination view t = if t.conditionWhenTrue then whenTrue else whenFalse

/-- Every transfer is a local switch target that the mapping of the printed
index selects, for the values for which the text goes there. -/
def SelectAgrees (index : Text) (choose : Int → Option NodeId)
    (transfers : List ControlTransfer) : Prop :=
  ∀ t ∈ transfers, t.conditional = false ∧ t.kind = .switchCase ∧
    t.target ∈ view.control.blockOrder ∧
    ∃ region, switchRegionFor view t.source = some region ∧
      regionCondition view region = index ∧ (∃ v, selectCase region v = t.target) ∧
      ∀ v, choose v = some t.target ↔ selectCase region v = t.target

/-- Every transfer is a local target of the jump itself, and the text offers
it. -/
def PickAgrees (choose : NodeId → Option NodeId) (transfers : List ControlTransfer) : Prop :=
  ∀ t ∈ transfers, t.conditional = false ∧ t.kind = .switchCase ∧
    t.target ∈ view.control.blockOrder ∧ switchRegionFor view t.source = none ∧
    ∀ v, choose v = some t.target ↔ v = t.target

/-- A layout exit agrees with the transfers of its block.  An exit that depends
on nothing, whatever its form, has to be where all transfers lead. -/
def BlockExit.Agrees : BlockExit → Prop
  | .always exit => AlwaysAgrees view exit transfers
  | .branch condition a b =>
    (a = b ∧ AlwaysAgrees view a transfers) ∨
      (a ≠ b ∧ BranchAgrees view condition a b transfers)
  | .select index choose =>
    (∃ exit, (∀ v, enter (choose v) = exit) ∧ AlwaysAgrees view exit transfers) ∨
      ((∃ v w, choose v ≠ choose w) ∧ SelectAgrees view index choose transfers)
  | .pick _ choose =>
    (∃ exit, (∀ v, enter (choose v) = exit) ∧ AlwaysAgrees view exit transfers) ∨
      ((∃ v w, choose v ≠ choose w) ∧ PickAgrees view choose transfers)

/-- What the text does and what the transfers say, for one way of leaving a
block. -/
def Follows (run : Evaluation → Exit) : Prop :=
  ∀ t ∈ transfers, ∀ env, run env = destination view t ↔
    ∃ t' ∈ transfers, destination view t' = destination view t ∧ mayTake view env t'

variable (t : ControlTransfer)

/-- **The four sorts of transfers.**  A transfer depends on the truth of its
condition, on an index that its mapping reads, on the choice of its jump, or on
nothing. -/
theorem mayTake_cases : (t.conditional = true ∧ ∀ env, mayTake view env t ↔
      env.truth (blockCondition view t.source t.condition) = t.conditionWhenTrue) ∨
    (t.conditional = false ∧ t.kind = .switchCase ∧ ∃ region,
      switchRegionFor view t.source = some region ∧ (∃ v, selectCase region v = t.target) ∧
      ∀ env, mayTake view env t ↔
        selectCase region (env.index (regionCondition view region)) = t.target) ∨
    (t.conditional = false ∧ t.kind = .switchCase ∧ switchRegionFor view t.source = none ∧
      ∀ env, mayTake view env t ↔ env.pick t.source = t.target) ∨ (∀ env, mayTake view env t) := by
  cases hcond : t.conditional with
  | true => exact Or.inl ⟨rfl, fun env => by simp [mayTake, hcond]⟩
  | false =>
    by_cases hkind : t.kind = .switchCase
    · cases hregion : switchRegionFor view t.source with
      | none =>
        exact Or.inr (Or.inr (Or.inl ⟨rfl, hkind, rfl, fun env => by
          simp [mayTake, hcond, hkind, hregion]⟩))
      | some region =>
        by_cases hselected : ∃ v, selectCase region v = t.target
        · refine Or.inr (Or.inl ⟨rfl, hkind, region, rfl, hselected, fun env => ?_⟩)
          have hnever : ¬ ∀ v, selectCase region v ≠ t.target := by
            simpa using hselected
          simp only [mayTake, hcond, hkind, hregion]
          simp [hnever]
        · refine Or.inr (Or.inr (Or.inr fun env => ?_))
          have hnever : ∀ v, selectCase region v ≠ t.target := by
            simpa using hselected
          simp only [mayTake, hcond, hkind, hregion]
          exact Or.inr hnever
    · exact Or.inr (Or.inr (Or.inr fun env => by simp [mayTake, hcond, hkind]))

theorem exists_mayTake : ∃ env, mayTake view env t := by
  rcases mayTake_cases view t with ⟨-, h⟩ | ⟨-, -, region, -, ⟨v, hv⟩, h⟩ | ⟨-, -, -, h⟩ | h
  · exact ⟨⟨fun _ => t.conditionWhenTrue, fun _ => 0, fun _ => 0⟩, (h _).mpr rfl⟩
  · exact ⟨⟨fun _ => true, fun _ => v, fun _ => 0⟩, (h _).mpr hv⟩
  · exact ⟨⟨fun _ => true, fun _ => 0, fun _ => t.target⟩, (h _).mpr rfl⟩
  · exact ⟨⟨fun _ => true, fun _ => 0, fun _ => 0⟩, h _⟩

variable {view} in
/-- Under an evaluation that allows a transfer, the text goes where it leads. -/
theorem Follows.run_eq {transfers : List ControlTransfer} {run : Evaluation → Exit}
    (h : Follows view transfers run) {t : ControlTransfer} (ht : t ∈ transfers)
    {env : Evaluation} (htake : mayTake view env t) : run env = destination view t :=
  (h t ht env).mpr ⟨t, ht, rfl, htake⟩

/-- An exit that depends on nothing follows the transfers exactly when all of
them lead there and one of them always applies. -/
theorem follows_always_iff (exit : Exit) :
    Follows view transfers (fun _ => exit) ↔ AlwaysAgrees view exit transfers := by
  constructor
  · intro h
    have hall : ∀ t ∈ transfers, destination view t = exit := by
      intro t ht
      obtain ⟨env, htake⟩ := exists_mayTake view t
      exact (h.run_eq ht htake).symm
    refine ⟨hall, fun hne env => ?_⟩
    obtain ⟨t, ht⟩ := exists_mem_of_ne_nil transfers hne
    obtain ⟨t', ht', -, htake⟩ := (h t ht env).mp (hall t ht).symm
    exact ⟨t', ht', htake⟩
  · rintro ⟨hall, hexhaustive⟩ t ht env
    obtain ⟨t', ht', htake⟩ := hexhaustive (ne_nil_of_mem ht) env
    exact ⟨fun _ => ⟨t', ht', by rw [hall t' ht', hall t ht], htake⟩,
      fun _ => (hall t ht).symm⟩

theorem destination_local {t : ControlTransfer} (hkind : t.kind = .switchCase)
    (hlocal : t.target ∈ view.control.blockOrder) : destination view t = .block t.target := by
  simp [destination, hkind, hlocal]

/-- A transfer that enters a block enters its target, and the target is local. -/
theorem target_of_destination {t : ControlTransfer} {node : NodeId}
    (h : destination view t = .block node) :
    t.target = node ∧ t.target ∈ view.control.blockOrder := by
  unfold destination at h
  by_cases hkind : t.kind = .returnFromFunction
  · simp [hkind] at h
  by_cases hlocal : t.target ∈ view.control.blockOrder
  · simp only [hkind, if_false, contains_iff_mem, hlocal, if_true,
      Exit.block.injEq] at h
    exact ⟨h, hlocal⟩
  · simp [hkind, hlocal] at h

theorem destination_ne_stuck : destination view t ≠ .stuck := by
  unfold destination
  split
  · exact Exit.noConfusion
  · split <;> exact Exit.noConfusion

/-- A transfer that the text reaches by entering a chosen block is local. -/
theorem target_of_enter {t : ControlTransfer} {choice : Option NodeId}
    (h : enter choice = destination view t) :
    choice = some t.target ∧ t.target ∈ view.control.blockOrder := by
  cases choice with
  | none => exact absurd h.symm (destination_ne_stuck view t)
  | some node =>
    obtain ⟨rfl, hlocal⟩ := target_of_destination view h.symm
    exact ⟨rfl, hlocal⟩

/-- An exit that depends on one truth follows the transfers exactly when each of
them is conditional on it and leads to its own side. -/
theorem follows_branch_iff (condition : Text) {a b : Exit} (hne : a ≠ b) :
    Follows view transfers (fun env => if env.truth condition then a else b) ↔
      BranchAgrees view condition a b transfers := by
  constructor
  · intro h t ht
    -- a transfer that is possible under both truth values would lead to both sides
    have hboth : ¬ ∀ value, ∃ env : Evaluation, env.truth condition = value ∧
        mayTake view env t := by
      intro hfree
      obtain ⟨env, hvalue, htake⟩ := hfree true
      obtain ⟨env', hvalue', htake'⟩ := hfree false
      have hrun := h.run_eq ht htake
      have hrun' := h.run_eq ht htake'
      simp only [hvalue, hvalue'] at hrun hrun'
      exact hne (hrun.trans hrun'.symm)
    rcases mayTake_cases view t with ⟨hcond, htest⟩ | ⟨-, -, region, -, ⟨v, hv⟩, htest⟩ |
        ⟨-, -, -, htest⟩ | htest
    · have htext : blockCondition view t.source t.condition = condition := by
        by_contra hother
        apply hboth
        intro value
        obtain ⟨truth, hown, hprinted⟩ := exists_truth_of_ne hother t.conditionWhenTrue value
        exact ⟨⟨truth, fun _ => 0, fun _ => 0⟩, hprinted, (htest _).mpr hown⟩
      refine ⟨hcond, htext, ?_⟩
      exact (h.run_eq ht
        ((htest ⟨fun _ => t.conditionWhenTrue, fun _ => 0, fun _ => 0⟩).mpr rfl)).symm
    · exact absurd (fun value => ⟨⟨fun _ => value, fun _ => v, fun _ => 0⟩, rfl,
        (htest _).mpr hv⟩) hboth
    · exact absurd (fun value => ⟨⟨fun _ => value, fun _ => 0, fun _ => t.target⟩, rfl,
        (htest _).mpr rfl⟩) hboth
    · exact absurd (fun value => ⟨⟨fun _ => value, fun _ => 0, fun _ => 0⟩, rfl, htest _⟩) hboth
  · intro h t ht env
    have htake : ∀ t' ∈ transfers,
        (mayTake view env t' ↔ env.truth condition = t'.conditionWhenTrue) := by
      intro t' ht'
      obtain ⟨hcond, htext, -⟩ := h t' ht'
      simp [mayTake, hcond, htext]
    have hside : ∀ t' ∈ transfers,
        ((if env.truth condition then a else b) = destination view t' ↔
          env.truth condition = t'.conditionWhenTrue) := by
      intro t' ht'
      rw [(h t' ht').2.2]
      cases env.truth condition <;> cases t'.conditionWhenTrue <;>
        simp [hne, Ne.symm hne]
    constructor
    · intro hrun
      exact ⟨t, ht, rfl, (htake t ht).mpr ((hside t ht).mp hrun)⟩
    · rintro ⟨t', ht', hsame, htaken⟩
      rw [← hsame]
      exact (hside t' ht').mpr ((htake t' ht').mp htaken)

variable {α : Type}

/-- A transfer of an exit that depends on a reading is not taken for every value of it. -/
theorem Follows.not_free {transfers : List ControlTransfer} (read : Evaluation → α)
    {choose : α → Option NodeId} (h : Follows view transfers (fun env => enter (choose (read env))))
    (hvary : ∃ v w, choose v ≠ choose w) {t : ControlTransfer} (ht : t ∈ transfers) :
    ¬ ∀ value, ∃ env, read env = value ∧ mayTake view env t := by
  intro hfree
  obtain ⟨v, w, hne⟩ := hvary
  obtain ⟨env, hvalue, htake⟩ := hfree v
  obtain ⟨env', hvalue', htake'⟩ := hfree w
  have hv := (target_of_enter view (h.run_eq ht htake)).1
  have hw := (target_of_enter view (h.run_eq ht htake')).1
  rw [hvalue] at hv
  rw [hvalue'] at hw
  exact hne (hv.trans hw.symm)

/-- An exit that depends on one index follows the transfers of a block exactly
when each of them is a local target of the mapping of that index. -/
theorem follows_select_iff {transfers : List ControlTransfer} {node : NodeId}
    (hsource : ∀ t ∈ transfers, t.source = node) (index : Text)
    {choose : Int → Option NodeId} (hvary : ∃ v w, choose v ≠ choose w) :
    Follows view transfers (fun env => enter (choose (env.index index))) ↔
      SelectAgrees view index choose transfers := by
  constructor
  · intro h
    -- what each transfer is, from what the text does when it applies
    have hform : ∀ t ∈ transfers, t.conditional = false ∧ t.kind = .switchCase ∧
        t.target ∈ view.control.blockOrder ∧ ∃ region,
          switchRegionFor view t.source = some region ∧ regionCondition view region = index ∧
          (∃ v, selectCase region v = t.target) ∧
          (∀ v, selectCase region v = t.target → choose v = some t.target) ∧
          ∀ env, mayTake view env t ↔ selectCase region (env.index index) = t.target := by
      intro t ht
      have hfixed := h.not_free view (fun env => env.index index) hvary ht
      rcases mayTake_cases view t with ⟨-, htest⟩ | ⟨hcond, hkind, region, hregion, ⟨v, hv⟩,
          htest⟩ | ⟨-, -, -, htest⟩ | htest
      · exact absurd (fun value => ⟨⟨fun _ => t.conditionWhenTrue, fun _ => value,
          fun _ => 0⟩, rfl, (htest _).mpr rfl⟩) hfixed
      · have htext : regionCondition view region = index := by
          by_contra hother
          apply hfixed
          intro value
          refine ⟨⟨fun _ => true, fun i => if i = index then value else v, fun _ => 0⟩,
            if_pos rfl, (htest _).mpr ?_⟩
          simpa [hother] using hv
        have hreach : ∀ w, selectCase region w = t.target →
            choose w = some t.target ∧ t.target ∈ view.control.blockOrder := fun w hw =>
          target_of_enter view
            (h.run_eq ht ((htest ⟨fun _ => true, fun _ => w, fun _ => 0⟩).mpr hw))
        exact ⟨hcond, hkind, (hreach v hv).2, region, hregion, htext, ⟨v, hv⟩,
          fun w hw => (hreach w hw).1, htext ▸ htest⟩
      · exact absurd (fun value => ⟨⟨fun _ => true, fun _ => value, fun _ => t.target⟩, rfl,
          (htest _).mpr rfl⟩) hfixed
      · exact absurd (fun value => ⟨⟨fun _ => true, fun _ => value, fun _ => 0⟩, rfl,
          htest _⟩) hfixed
    intro t ht
    obtain ⟨hcond, hkind, hlocal, region, hregion, htext, hselected, hforward, -⟩ := hform t ht
    refine ⟨hcond, hkind, hlocal, region, hregion, htext, hselected, fun v => ⟨?_, hforward v⟩⟩
    intro hchosen
    obtain ⟨t', ht', hsame, htaken⟩ :=
      (h t ht ⟨fun _ => true, fun _ => v, fun _ => 0⟩).mp (by
        simp [hchosen, enter, destination_local view hkind hlocal])
    obtain ⟨-, -, -, region', hregion', -, -, -, htest'⟩ := hform t' ht'
    rw [destination_local view hkind hlocal] at hsame
    rw [hsource t' ht', ← hsource t ht, hregion, Option.some.injEq] at hregion'
    rw [← (target_of_destination view hsame).1, hregion']
    exact (htest' _).mp htaken
  · intro h t ht env
    obtain ⟨hcond, hkind, hlocal, region, hregion, htext, -, hchoose⟩ := h t ht
    rw [destination_local view hkind hlocal]
    constructor
    · intro hrun
      have hchosen := (target_of_enter view
        (hrun.trans (destination_local view hkind hlocal).symm)).1
      refine ⟨t, ht, destination_local view hkind hlocal, ?_⟩
      simp [mayTake, hcond, hkind, hregion, htext, (hchoose _).mp hchosen]
    · rintro ⟨t', ht', hsame, htaken⟩
      obtain ⟨hcond', hkind', -, region', hregion', htext', ⟨v, hv⟩, hchoose'⟩ := h t' ht'
      have hselect : selectCase region' (env.index index) = t'.target := by
        simp only [mayTake, hcond', hkind', hregion', htext'] at htaken
        rcases htaken with hselect | hnever
        · exact hselect
        · exact absurd hv (hnever v)
      show enter (choose (env.index index)) = .block t.target
      rw [(hchoose' _).mpr hselect, (target_of_destination view hsame).1]
      rfl

variable {choose : NodeId → Option NodeId}

/-- An exit that an indirect jump picks follows the transfers of the block
exactly when each of them is a local target of the jump that the text offers. -/
theorem follows_pick_iff {transfers : List ControlTransfer} {node : NodeId}
    (hsource : ∀ t ∈ transfers, t.source = node) (hvary : ∃ v w, choose v ≠ choose w) :
    Follows view transfers (fun env => enter (choose (env.pick node))) ↔
      PickAgrees view choose transfers := by
  constructor
  · intro h
    have hform : ∀ t ∈ transfers, t.conditional = false ∧ t.kind = .switchCase ∧
        t.target ∈ view.control.blockOrder ∧ switchRegionFor view t.source = none ∧
        choose t.target = some t.target ∧ ∀ env, mayTake view env t ↔ env.pick node = t.target := by
      intro t ht
      have hfixed := h.not_free view (fun env => env.pick node) hvary ht
      rcases mayTake_cases view t with ⟨-, htest⟩ | ⟨-, -, region, -, ⟨v, hv⟩, htest⟩ |
          ⟨hcond, hkind, hregion, htest⟩ | htest
      · exact absurd (fun value => ⟨⟨fun _ => t.conditionWhenTrue, fun _ => 0,
          fun _ => value⟩, rfl, (htest _).mpr rfl⟩) hfixed
      · exact absurd (fun value => ⟨⟨fun _ => true, fun _ => v, fun _ => value⟩, rfl,
          (htest _).mpr hv⟩) hfixed
      · rw [hsource t ht] at htest
        obtain ⟨hchosen, hlocal⟩ := target_of_enter view
          (h.run_eq ht ((htest ⟨fun _ => true, fun _ => 0, fun _ => t.target⟩).mpr rfl))
        exact ⟨hcond, hkind, hlocal, hregion, hchosen, htest⟩
      · exact absurd (fun value => ⟨⟨fun _ => true, fun _ => 0, fun _ => value⟩, rfl,
          htest _⟩) hfixed
    intro t ht
    obtain ⟨hcond, hkind, hlocal, hregion, hchosen, -⟩ := hform t ht
    refine ⟨hcond, hkind, hlocal, hregion, fun v => ⟨?_, fun hv => hv ▸ hchosen⟩⟩
    intro hpicked
    obtain ⟨t', ht', hsame, htaken⟩ :=
      (h t ht ⟨fun _ => true, fun _ => 0, fun _ => v⟩).mp (by
        simp [hpicked, enter, destination_local view hkind hlocal])
    rw [destination_local view hkind hlocal] at hsame
    rw [← (target_of_destination view hsame).1]
    exact ((hform t' ht').2.2.2.2.2 _).mp htaken
  · intro h t ht env
    obtain ⟨hcond, hkind, hlocal, hregion, hchoose⟩ := h t ht
    rw [destination_local view hkind hlocal]
    constructor
    · intro hrun
      have hchosen := (target_of_enter view
        (hrun.trans (destination_local view hkind hlocal).symm)).1
      rw [hsource t ht] at hregion
      refine ⟨t, ht, destination_local view hkind hlocal, ?_⟩
      simp [mayTake, hcond, hkind, hsource t ht, hregion, (hchoose _).mp hchosen]
    · rintro ⟨t', ht', hsame, htaken⟩
      obtain ⟨hcond', hkind', -, hregion', hchoose'⟩ := h t' ht'
      rw [hsource t' ht'] at hregion'
      have hpick : env.pick node = t'.target := by
        simpa [mayTake, hcond', hkind', hsource t' ht', hregion'] using htaken
      show enter (choose (env.pick node)) = .block t.target
      rw [(hchoose' _).mpr hpick, (target_of_destination view hsame).1]
      rfl

theorem exists_exit_of_constant {choose : α → Option NodeId} (v : α)
    (h : ¬ ∃ v w, choose v ≠ choose w) : ∃ exit, ∀ w, enter (choose w) = exit := by
  refine ⟨enter (choose v), fun w => ?_⟩
  by_contra hne
  exact h ⟨w, v, fun heq => hne (congrArg enter heq)⟩

theorem constant_of_exit {choose : α → Option NodeId} {exit : Exit}
    (h : ∀ v, enter (choose v) = exit) : ¬ ∃ v w, choose v ≠ choose w := by
  rintro ⟨v, w, hne⟩
  have hsame := (h v).trans (h w).symm
  cases hv : choose v <;> cases hw : choose w <;> simp_all [enter]

/-- An exit that depends on a reading leads to one place or varies with it. -/
theorem follows_reading_iff {transfers : List ControlTransfer}
    (read : Evaluation → α) (v : α) {choose : α → Option NodeId} {agrees : Prop}
    (hvaries : (∃ v w, choose v ≠ choose w) →
      (Follows view transfers (fun env => enter (choose (read env))) ↔ agrees)) :
    Follows view transfers (fun env => enter (choose (read env))) ↔
      (∃ exit, (∀ v, enter (choose v) = exit) ∧ AlwaysAgrees view exit transfers) ∨
        ((∃ v w, choose v ≠ choose w) ∧ agrees) := by
  by_cases hvary : ∃ v w, choose v ≠ choose w
  · rw [hvaries hvary]
    constructor
    · exact fun h => Or.inr ⟨hvary, h⟩
    · rintro (⟨exit, hexit, -⟩ | ⟨-, h⟩)
      · exact absurd hvary (constant_of_exit hexit)
      · exact h
  · obtain ⟨exit, hexit⟩ := exists_exit_of_constant v hvary
    have hrun : (fun env => enter (choose (read env))) = fun _ => exit :=
      funext fun env => hexit _
    rw [hrun, follows_always_iff]
    constructor
    · exact fun h => Or.inl ⟨exit, hexit, h⟩
    · rintro (⟨exit', hexit', h⟩ | ⟨h, -⟩)
      · rwa [← hexit v, hexit' v]
      · exact absurd h hvary

/-- **One block.**  The text follows the transfers of a block exactly when its
layout exit agrees with them. -/
theorem follows_eval_iff (node : NodeId) (exit : BlockExit)
    (hpick : ∀ m choose, exit = .pick m choose → m = node) :
    Follows view (outgoing view node) (fun env => exit.eval env) ↔
      exit.Agrees view (outgoing view node) := by
  have hsource : ∀ t ∈ outgoing view node, t.source = node := by
    intro t ht
    simp only [outgoing, mem_filter, Bool.and_eq_true, beq_iff_eq] at ht
    exact ht.2.1
  cases exit with
  | always exit => exact follows_always_iff view _ exit
  | branch condition a b =>
    by_cases hab : a = b
    · subst hab
      simpa [BlockExit.eval, BlockExit.Agrees] using
        follows_always_iff view (outgoing view node) a
    · simpa [BlockExit.eval, BlockExit.Agrees, hab] using
        follows_branch_iff view (outgoing view node) condition hab
  | select index choose =>
    exact follows_reading_iff view (fun env => env.index index) 0
      (follows_select_iff view hsource index)
  | pick m choose =>
    obtain rfl := hpick m choose rfl
    exact follows_reading_iff view (fun env => env.pick m) 0 (follows_pick_iff view hsource)

theorem pick_node_of_mem_blockExits {x : NodeId × BlockExit} {m : NodeId}
    (labels heads : List NodeId)
    (hx : x ∈ exitsFrom view labels heads) (hpick : x.2 = .pick m choose) : m = x.1 := by
  have hended : ∀ node exit, orEnded view node exit = .pick m choose →
      exit = .pick m choose := by
    intro node exit h
    unfold orEnded at h
    split at h
    · cases h
    · exact h
  have hfallback : ∀ next node, fallbackExit view labels next node = .pick m choose →
      m = node := by
    intro next node h
    unfold fallbackExit at h
    split at h
    · cases h
    split at h
    · cases h
    split at h
    · cases h
    split at h
    · cases h
    · cases h
      rfl
  induction heads with
  | nil => simp [exitsFrom] at hx
  | cons node rest ih =>
    rcases mem_append.mp hx with hpiece | hrest
    · unfold pieceExits at hpiece
      split at hpiece
      · simp at hpiece
      split at hpiece
      · simp only [mem_cons, mem_map] at hpiece
        rcases hpiece with rfl | ⟨target, -, rfl⟩ <;> cases hended _ _ hpick
      split at hpiece
      · simp only [mem_cons, not_mem_nil, or_false] at hpiece
        rcases hpiece with rfl | rfl | rfl <;> cases hended _ _ hpick
      · rw [mem_singleton.mp hpiece] at hpick ⊢
        exact hfallback _ _ (hended _ _ hpick)
    · exact ih hrest

/-- Control flow is preserved when every layout exit follows the transfers of its
block. -/
theorem controlFlowPreserved_iff_follows : ControlFlowPreserved view ↔ ∀ x ∈ blockExits view,
      Follows view (outgoing view x.1) (fun env => x.2.eval env) := by
  have hruns : ControlFlowPreserved view ↔
      ∀ x ∈ codeRuns (printedHeads view) (pseudoLines view),
        Follows view (outgoing view x.1) x.2 := by
    simp only [ControlFlowPreserved, codeRuns, forall_mem_map, Follows]
  rw [hruns, codeRuns_pseudoLines]
  simp only [exitRuns, forall_mem_map]

/-- **Control flow, exactly.**  The pseudo view preserves control flow if and
only if every printed block that is not in a loop is laid out so that the way
out of its lines agrees with its transfers. -/
theorem controlFlowPreserved_iff : ControlFlowPreserved view ↔
      ∀ x ∈ blockExits view, x.2.Agrees view (outgoing view x.1) := by
  rw [controlFlowPreserved_iff_follows]
  constructor
  · intro h x hx
    exact (follows_eval_iff view x.1 x.2 fun m choose hpick =>
      pick_node_of_mem_blockExits view _ _ hx hpick).mp (h x hx)
  · intro h x hx
    exact (follows_eval_iff view x.1 x.2 fun m choose hpick =>
      pick_node_of_mem_blockExits view _ _ hx hpick).mpr (h x hx)

/-- `if (a) { if (b) x; else y; } else z;` with its blocks in address order.
Only the inner conditional is certified. -/
def nestedIfView : CompactFunctionView :=
  { statements :=
      [{ kind := .branch, node := 0,
         text := "if rdi == 0x0:bits64 -> label_1004 else label_1010" },
       { kind := .branch, node := 1,
         text := "if rsi == 0x0:bits64 -> label_1008 else label_100c" },
       { kind := .memoryWrite, node := 2, text := "store64(rdx, 0x1:bits64)" },
       { kind := .branch, node := 2, text := "goto label_1014" },
       { kind := .memoryWrite, node := 3, text := "store64(rdx, 0x2:bits64)" },
       { kind := .branch, node := 3, text := "goto label_1014" },
       { kind := .memoryWrite, node := 4, text := "store64(rdx, 0x3:bits64)" },
       { kind := .branch, node := 4, text := "goto label_1014" },
       { kind := .returnValue, node := 5, text := "return" }]
    control :=
      { entry := 0
        blockOrder := [0, 1, 2, 3, 4, 5]
        regions :=
          [{ kind := .ifElse, header := 0, join := 5, conditionNode := 0, condition := 5,
             nodes := [0, 1, 4] },
           { kind := .ifElse, header := 1, join := 5, conditionNode := 1, condition := 6,
             nodes := [1, 2, 3] }]
        transfers :=
          [{ edge := 0, kind := .branchTrue, source := 0, target := 1, condition := 5,
             conditional := true, conditionWhenTrue := true },
           { edge := 1, kind := .branchFalse, source := 0, target := 4, condition := 5,
             conditional := true },
           { edge := 2, kind := .branchTrue, source := 1, target := 2, condition := 6,
             conditional := true, conditionWhenTrue := true },
           { edge := 3, kind := .branchFalse, source := 1, target := 3, condition := 6,
             conditional := true },
           { edge := 4, kind := .gotoLabel, source := 2, target := 5 },
           { edge := 5, kind := .gotoLabel, source := 3, target := 5 },
           { edge := 6, kind := .gotoLabel, source := 4, target := 5 },
           { edge := 7, kind := .returnFromFunction, source := 5,
             target := cfgInvalidId }] } }

/-- After the inner conditional the text runs into the outer `else` block: block
4 is printed next, while both arms go to block 5. -/
theorem nestedIf_runs_into_else :
    nestedIfView.control.truncated = false ∧ nestedIfView.control.fallback = false ∧
      ¬ ControlFlowPreserved nestedIfView := by
  refine ⟨rfl, rfl, fun hpreserved => ?_⟩
  have hlayout : (2, BlockExit.always (.block 4)) ∈ blockExits nestedIfView :=
    mem_cons_of_mem _ (mem_cons_of_mem _ mem_cons_self)
  have hfollows := (controlFlowPreserved_iff_follows nestedIfView).mp hpreserved _ hlayout
  have htransfer : ({ edge := 4, kind := .gotoLabel, source := 2, target := 5 } :
      ControlTransfer) ∈ outgoing nestedIfView 2 := by decide
  have hleads := (follows_always_iff nestedIfView _ _).mp hfollows |>.1 _ htransfer
  revert hleads
  decide

end Airece
