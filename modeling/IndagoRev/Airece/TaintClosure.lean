import IndagoRev.Transactions
import IndagoRev.Airece.TaintRanges

/-!
# The end of the taint loop

The loop ends with a round that reports no change.  What is not reported is that a merge
makes an offset inexact.  A round that reports nothing changes nothing but transforms
and the exactness of some tags, and when no exact offset is among these, everything that
the rules yield is already there.
-/

namespace Airece

open StdText List
open Transactions (forall₂_mem_left forall₂_mem_right)

variable (o : FlowOptions) (transform : Text)

/-- The tags of a value that cross the border of a function. -/
def crossedTags (ts : List Tag) : List Tag :=
  (ts.filter (fun t => decide (t.callDepth < o.functionDepth))).map
    (fun t => { t with callDepth := t.callDepth + 1 }.appendTransform transform)

/-- The tags that come to values when some values cross over to others. -/
def crossYield (bindings : List (ValueId × ValueId)) (tags : Tags) : List (ValueId × Tag) :=
  bindings.flatMap (fun b => (crossedTags o transform (tags.of b.1)).map (fun t => (b.2, t)))

variable (c : TaintContext)

/-- The tags that come to the results of an operation. -/
def passYield (o : XairOp) (tags : Tags) : List (ValueId × Tag) :=
  (taintedResults c.module o).flatMap (fun r => (outgoingTags c o tags).map (fun t => (r, t)))

variable (record : OperationRecord) (tags : Tags)

/-- The tags that `propagate_operation` adds. -/
def operationYield : List (ValueId × Tag) :=
  match c.module.op record.operation with
  | none => []
  | some o =>
    match if o.opcode = .call then directCallee c.session o else none with
    | some callee =>
      crossYield c.options "call-argument" (directCallArguments c callee o) tags ++
        (crossYield c.options "call-return" (directCallReturns c callee o) tags ++
          if functionReturns c.session callee = [] then passYield c o tags else [])
    | none => passYield c o tags

/-- The tags that `propagate_block_arguments` adds. -/
def argumentYield : List (ValueId × Tag) :=
  (blockArguments c.session.cfg c.module).flatMap (fun b =>
    (tags.of b.2).map (fun t => (b.1, t.appendTransform "phi")))

/-- A tag says at least what another one says. -/
structure Tag.Subsumes (present incoming : Tag) : Prop where
  key : present.sameKey incoming = true
  start : present.start ≤ incoming.start
  stop : incoming.stop ≤ present.stop
  depth : present.callDepth ≤ incoming.callDepth
  exactOffset : present.exactOffset = true → incoming.exactOffset = true

instance (t u : Tag) : Decidable (t.Subsumes u) :=
  decidable_of_iff
    (t.sameKey u = true ∧ t.start ≤ u.start ∧ u.stop ≤ t.stop ∧ t.callDepth ≤ u.callDepth ∧
      (t.exactOffset = true → u.exactOffset = true))
    ⟨fun h => ⟨h.1, h.2.1, h.2.2.1, h.2.2.2.1, h.2.2.2.2⟩,
      fun h => ⟨h.key, h.start, h.stop, h.depth, h.exactOffset⟩⟩

variable (y : ValueId × Tag)

/-- A tag that comes to a value says nothing new, unless the value is none. -/
def Covered : Prop :=
  y.1 = invalidId ∨ ∃ t ∈ tags.of y.1, t.Subsumes y.2

instance (tags : Tags) (y : ValueId × Tag) : Decidable (Covered tags y) := by
  unfold Covered
  infer_instance

/-- Nothing new comes of any operation, nor of the arguments of any block. -/
structure TaintClosed (c : TaintContext) (operations : List OperationRecord) (tags : Tags) :
    Prop where
  records : ∀ record ∈ operations, ∀ y ∈ operationYield c record tags, Covered tags y
  arguments : ∀ y ∈ argumentYield c tags, Covered tags y

/-- Whether the loop over the operations is stopped. -/
def operationsStopped (w : Watch) (c : TaintContext) : List OperationRecord → TaintRun → Bool
  | [], _ => false
  | record :: rest, t =>
    match TaintRun.poll w c.options { t with call := propagateOperation c record t.call } with
    | (true, _) => true
    | (false, t) => operationsStopped w c rest t

/-- Whether a round is stopped. -/
def roundStopped (w : Watch) (c : TaintContext) (operations : List OperationRecord)
    (t : TaintRun) : Bool :=
  operationsStopped w c operations t.fresh ||
    ((runOperations w c operations t.fresh).poll w c.options).1

/-- Whether the taint loop is stopped by a limit, the clock or a cancellation. -/
def taintStopped (w : Watch) (c : TaintContext) (operations : List OperationRecord) :
    Nat → TaintRun → Bool
  | 0, _ => false
  | n + 1, t =>
    if t.call.taint.changed = false then false
    else
      match t.poll w c.options with
      | (true, _) => true
      | (false, t) =>
        roundStopped w c operations t ||
          taintStopped w c operations n (taintRound w c operations t)

/-- A tag keeps everything but its transforms, and may lose its exactness when its range
is not a single offset. -/
structure Tag.Fades (t t' : Tag) : Prop where
  same : t' = { t with exactOffset := t'.exactOffset, transforms := t'.transforms }
  faded : t'.exactOffset = true → t.exactOffset = true
  kept : t.exactOffset = true → t.start = t.stop → t'.exactOffset = true

/-- All tags of all values fade, and no value comes to have tags. -/
structure Tags.Fades (a b : Tags) : Prop where
  known : ∀ v, (a v).isSome = (b v).isSome
  tags : ∀ v, List.Forall₂ Tag.Fades (a.of v) (b.of v)

theorem Tag.Fades.refl (t : Tag) : t.Fades t := ⟨rfl, id, fun h _ => h⟩

variable {t t' : Tag}

theorem Tag.Fades.start_eq (h : t.Fades t') : t'.start = t.start := by
  rw [h.same]

theorem Tag.Fades.stop_eq (h : t.Fades t') : t'.stop = t.stop := by
  rw [h.same]

theorem Tag.Fades.depth_eq (h : t.Fades t') : t'.callDepth = t.callDepth := by
  rw [h.same]

variable {t t' u : Tag}

theorem Tag.Fades.sameKey_left (h : t.Fades t') : t'.sameKey u = t.sameKey u := by
  rw [h.same]
  rfl

theorem Tag.Fades.sameKey_right (h : t.Fades t') : u.sameKey t' = u.sameKey t := by
  rw [h.same]
  rfl

theorem Tag.Fades.trans {a b c : Tag} (hab : a.Fades b) (hbc : b.Fades c) : a.Fades c where
  same := by
    rw [hbc.same, hab.same]
  faded := fun h => hab.faded (hbc.faded h)
  kept := fun h hsingle => by
    refine hbc.kept (hab.kept h hsingle) ?_
    rw [hab.start_eq, hab.stop_eq]
    exact hsingle

theorem Tags.Fades.refl (a : Tags) : a.Fades a :=
  ⟨fun _ => rfl, fun _ => forall₂_same.mpr (fun t _ => Tag.Fades.refl t)⟩

section Related

variable {α : Type} {R : α → α → Prop} {l l' : List α}

theorem forall₂_trans (htrans : ∀ {a b c}, R a b → R b c → R a c) {l'' : List α}
    (h : List.Forall₂ R l l') (h' : List.Forall₂ R l' l'') : List.Forall₂ R l l'' := by
  induction h generalizing l'' with
  | nil => exact h'
  | cons hab _ ih =>
    cases h' with
    | cons hbc hrest => exact List.Forall₂.cons (htrans hab hbc) (ih hrest)

end Related

theorem Tags.Fades.trans {a b c : Tags} (hab : a.Fades b) (hbc : b.Fades c) : a.Fades c :=
  ⟨fun v => (hab.known v).trans (hbc.known v),
    fun v => forall₂_trans (fun h h' => h.trans h') (hab.tags v) (hbc.tags v)⟩

/-- A tag subsumes another one, and is exact only when that is a single exact offset. -/
structure Tag.Absorbs (present incoming : Tag) : Prop where
  key : present.sameKey incoming = true
  start : present.start ≤ incoming.start
  stop : incoming.stop ≤ present.stop
  depth : present.callDepth ≤ incoming.callDepth
  single : present.exactOffset = true →
    incoming.exactOffset = true ∧ incoming.start = incoming.stop

/-- A tag that comes to a value is absorbed, unless the value is none. -/
def Absorbed : Prop :=
  y.1 = invalidId ∨ ∃ t ∈ tags.of y.1, t.Absorbs y.2

theorem Absorbed.covered {tags : Tags} {y : ValueId × Tag} (h : Absorbed tags y) :
    Covered tags y := by
  rcases h with hnone | ⟨t, ht, habsorbs⟩
  · exact Or.inl hnone
  · exact Or.inr ⟨t, ht, habsorbs.key, habsorbs.start, habsorbs.stop, habsorbs.depth,
      fun h => (habsorbs.single h).1⟩

theorem Tag.Absorbs.fades_left (h : t.Absorbs u) (hfades : t.Fades t') : t'.Absorbs u where
  key := hfades.sameKey_left.trans h.key
  start := hfades.start_eq ▸ h.start
  stop := hfades.stop_eq ▸ h.stop
  depth := hfades.depth_eq ▸ h.depth
  single := fun hexact => h.single (hfades.faded hexact)

theorem Tag.Absorbs.fades_right {t u u' : Tag} (h : t.Absorbs u) (hfades : u.Fades u') :
    t.Absorbs u' where
  key := hfades.sameKey_right.trans h.key
  start := hfades.start_eq.symm ▸ h.start
  stop := hfades.stop_eq.symm ▸ h.stop
  depth := hfades.depth_eq.symm ▸ h.depth
  single := by
    intro hexact
    have hsingle := h.single hexact
    rw [hfades.start_eq, hfades.stop_eq]
    exact ⟨hfades.kept hsingle.1 hsingle.2, hsingle.2⟩

theorem Tag.Absorbs.fades_back {t u u' : Tag} (h : t.Absorbs u') (hfades : u.Fades u') :
    t.Absorbs u where
  key := hfades.sameKey_right.symm.trans h.key
  start := hfades.start_eq ▸ h.start
  stop := hfades.stop_eq ▸ h.stop
  depth := hfades.depth_eq ▸ h.depth
  single := by
    intro hexact
    have hsingle := h.single hexact
    rw [hfades.start_eq, hfades.stop_eq] at hsingle
    exact ⟨hfades.faded hsingle.1, hsingle.2⟩

theorem Absorbed.fades {a b : Tags} {y : ValueId × Tag} (h : Absorbed a y) (hfades : a.Fades b) :
    Absorbed b y := by
  rcases h with hnone | ⟨t, ht, habsorbs⟩
  · exact Or.inl hnone
  · obtain ⟨t', ht', hfade⟩ := forall₂_mem_left (hfades.tags y.1) ht
    exact Or.inr ⟨t', ht', habsorbs.fades_left hfade⟩

/-- No exact offset is made inexact by a tag that comes to a value. -/
def Settled : Prop :=
  ∀ t ∈ tags.of y.1, t.sameKey y.2 = true → t.exactOffset = true → t.start = t.stop →
    y.2.exactOffset = true ∧ y.2.start = y.2.stop

instance (tags : Tags) (y : ValueId × Tag) : Decidable (Settled tags y) := by
  unfold Settled
  infer_instance

variable {v : ValueId}

theorem Settled.fades {a b : Tags} {u u' : Tag} (h : Settled a (v, u))
    (hfades : a.Fades b) (hfade : u.Fades u') : Settled b (v, u') := by
  intro t ht hkey hexact hsingle
  obtain ⟨t₀, ht₀, hfade₀⟩ := forall₂_mem_right (hfades.tags v) ht
  rw [hfade₀.start_eq, hfade₀.stop_eq] at hsingle
  rw [hfade.sameKey_right, hfade₀.sameKey_left] at hkey
  have hsettled := h t₀ ht₀ hkey (hfade₀.faded hexact) hsingle
  dsimp only at hsettled ⊢
  rw [hfade.start_eq, hfade.stop_eq]
  exact ⟨hfade.kept hsettled.1 hsettled.2, hsettled.2⟩

theorem merge_unreported {existing incoming : Tag} (hkey : existing.sameKey incoming = true)
    (hchanged : existing.mergeChanges incoming = false)
    (hsettled : existing.exactOffset = true → existing.start = existing.stop →
      incoming.exactOffset = true ∧ incoming.start = incoming.stop) :
    existing.Fades (existing.merge incoming) ∧ (existing.merge incoming).Absorbs incoming := by
  have hranges : existing.start = (existing.merge incoming).start ∧
      existing.stop = (existing.merge incoming).stop ∧
      existing.callDepth = (existing.merge incoming).callDepth := by
    simpa [Tag.mergeChanges, and_assoc] using hchanged
  have hstart : existing.start = min existing.start incoming.start := hranges.1
  have hstop : existing.stop = max existing.stop incoming.stop := hranges.2.1
  have hdepth : existing.callDepth = min existing.callDepth incoming.callDepth := hranges.2.2
  have hexact : (existing.merge incoming).exactOffset =
      (existing.exactOffset && incoming.exactOffset && existing.start == existing.stop) := by
    unfold Tag.merge
    dsimp only
    rw [← hstart, ← hstop]
  constructor
  · constructor
    · unfold Tag.merge
      dsimp only
      rw [← hstart, ← hstop, ← hdepth]
    · intro h
      rw [hexact] at h
      simp only [Bool.and_eq_true] at h
      exact h.1.1
    · intro h hsingle
      rw [hexact, h, (hsettled h hsingle).1, hsingle]
      simp
  · constructor
    · exact hkey
    · exact Nat.min_le_right _ _
    · exact Nat.le_max_right _ _
    · exact Nat.min_le_right _ _
    intro h
    rw [hexact] at h
    simp only [Bool.and_eq_true, beq_iff_eq] at h
    exact hsettled h.1.1 h.2

/-- The loop over the tags of a value, when it reports no change. -/
theorem mergeTag_unreported {incoming : Tag} {existing merged : List Tag}
    (h : mergeTag incoming existing = some (merged, false))
    (hsettled : ∀ t ∈ existing, t.sameKey incoming = true → t.exactOffset = true →
      t.start = t.stop → incoming.exactOffset = true ∧ incoming.start = incoming.stop) :
    List.Forall₂ Tag.Fades existing merged ∧ ∃ t ∈ merged, t.Absorbs incoming := by
  induction existing generalizing merged with
  | nil => cases h
  | cons first rest ih =>
    unfold mergeTag at h
    split at h
    · next hkey =>
        rw [Option.some_inj, Prod.mk.injEq] at h
        obtain ⟨rfl, hchanged⟩ := h
        have hmerge := merge_unreported hkey hchanged
          (hsettled first mem_cons_self hkey)
        refine ⟨List.Forall₂.cons hmerge.1 ?_, _, mem_cons_self, hmerge.2⟩
        exact forall₂_same.mpr (fun t _ => Tag.Fades.refl t)
    · rw [Option.map_eq_some_iff] at h
      obtain ⟨⟨later, changed⟩, hlater, heq⟩ := h
      rw [Prod.mk.injEq] at heq
      obtain ⟨rfl, rfl⟩ := heq
      have hrest := ih hlater (fun t ht => hsettled t (mem_cons_of_mem _ ht))
      obtain ⟨hfades, t, ht, habsorbs⟩ := hrest
      exact ⟨List.Forall₂.cons (Tag.Fades.refl first) hfades, t,
        mem_cons_of_mem _ ht, habsorbs⟩

theorem addTag_reports (n : Nat) (s : TaintState) (v : ValueId) (t : Tag)
    (h : (addTag n s v t).changed = false) : s.changed = false := by
  unfold addTag at h
  split at h
  · exact h
  split at h
  · exact (Bool.or_eq_false_iff.mp h).2
  · split at h
    · exact h
    · cases h

theorem foldl_reports {β : Type} {step : TaintState → β → TaintState}
    (hstep : ∀ s x, (step s x).changed = false → s.changed = false) (l : List β)
    (s : TaintState) (h : (l.foldl step s).changed = false) : s.changed = false := by
  induction l generalizing s with
  | nil => exact h
  | cons x rest ih => exact hstep s x (ih _ h)

theorem addTag_unreported {n : Nat} {s : TaintState} {t : Tag}
    (hroom : n = 0 ∨ s.states < n) (hsettled : Settled s.tags (v, t))
    (h : (addTag n s v t).changed = false) :
    s.tags.Fades (addTag n s v t).tags ∧ (addTag n s v t).states = s.states ∧
      Absorbed (addTag n s v t).tags (v, t) := by
  unfold addTag at h ⊢
  split
  · next hnone => exact ⟨Tags.Fades.refl _, rfl, Or.inl hnone⟩
  next hvalue =>
    rw [if_neg hvalue] at h
    split
    · next merged changed hmerge =>
        rw [hmerge] at h
        have hchanged : changed = false := (Bool.or_eq_false_iff.mp h).1
        rw [hchanged] at hmerge
        have hmerged := mergeTag_unreported hmerge hsettled
        have hknown : (s.tags v).isSome = true := by
          by_contra hunknown
          have hnone := Option.not_isSome_iff_eq_none.mp hunknown
          unfold Tags.of at hmerge
          rw [hnone] at hmerge
          cases hmerge
        refine ⟨⟨?_, ?_⟩, rfl, Or.inr ?_⟩
        · intro u
          by_cases huv : u = v
          · subst huv
            simp [hknown]
          · dsimp only
            rw [Function.update_of_ne huv]
        · intro u
          rw [Tags.of_update]
          split
          · next huv =>
              rw [huv]
              exact hmerged.1
          · exact forall₂_same.mpr (fun t _ => Tag.Fades.refl t)
        · dsimp only
          rw [Tags.of_update, if_pos rfl]
          exact hmerged.2
    · next hmerge =>
        rw [hmerge] at h
        exfalso
        dsimp only at h
        split at h
        · next hfull => omega
        · cases h

/-- A part of a round, which begins where others have only faded: when it reports nothing it
lets tags fade, and what it yields is absorbed. -/
structure Quiet (states : Nat) (a : Tags) (ys : List (ValueId × Tag))
    (f : TaintState → TaintState) : Prop where
  reports : ∀ s, (f s).changed = false → s.changed = false
  quiet : ∀ s, a.Fades s.tags → s.states = states → (f s).changed = false →
    s.tags.Fades (f s).tags ∧ (f s).states = states ∧ ∀ y ∈ ys, Absorbed (f s).tags y

section Parts

variable {states : Nat} {a : Tags} {ys zs : List (ValueId × Tag)} {f g : TaintState → TaintState}

theorem Quiet.nothing : Quiet states a [] id where
  reports := fun _ h => h
  quiet := fun s _ hstates _ => ⟨Tags.Fades.refl s.tags, hstates, fun _ hy => by cases hy⟩

theorem Quiet.comp (hf : Quiet states a ys f) (hg : Quiet states a zs g) :
    Quiet states a (ys ++ zs) (fun s => g (f s)) where
  reports := fun s h => hf.reports s (hg.reports _ h)
  quiet := by
    intro s hfades hstates hchanged
    obtain ⟨hfirst, hstates', hys⟩ := hf.quiet s hfades hstates (hg.reports _ hchanged)
    obtain ⟨hsecond, hstates'', hzs⟩ := hg.quiet _ (hfades.trans hfirst) hstates' hchanged
    refine ⟨hfirst.trans hsecond, hstates'', ?_⟩
    intro y hy
    rcases mem_append.mp hy with hleft | hright
    · exact (hys y hleft).fades hsecond
    · exact hzs y hright

theorem Quiet.foldl {β : Type} {l : List β} {yields : β → List (ValueId × Tag)}
    (step : TaintState → β → TaintState)
    (h : ∀ x ∈ l, Quiet states a (yields x) (fun s => step s x)) :
    Quiet states a (l.flatMap yields) (fun s => l.foldl step s) := by
  induction l with
  | nil => exact Quiet.nothing
  | cons x rest ih =>
    have hrest := ih (fun x hx => h x (mem_cons_of_mem _ hx))
    exact (h x mem_cons_self).comp hrest

variable {n : Nat}

theorem Quiet.add (hroom : n = 0 ∨ states < n) {v : ValueId} {t t' : Tag}
    (hsettled : Settled a (v, t)) (hfade : t.Fades t') :
    Quiet states a [(v, t)] (fun s => addTag n s v t') where
  reports := fun s h => addTag_reports n s v t' h
  quiet := by
    intro s hfades hstates hchanged
    have hroom' : n = 0 ∨ s.states < n := hstates.symm ▸ hroom
    obtain ⟨hadded, hstates', habsorbed⟩ :=
      addTag_unreported hroom' (hsettled.fades hfades hfade) hchanged
    refine ⟨hadded, hstates'.trans hstates, ?_⟩
    intro y hy
    rw [mem_singleton.mp hy]
    rcases habsorbed with hnone | ⟨e, he, habsorbs⟩
    · exact Or.inl hnone
    · exact Or.inr ⟨e, he, habsorbs.fades_back hfade⟩

/-- Some tags that are added to a value, when others stand for them that have faded. -/
theorem Quiet.addAll (hroom : n = 0 ∨ states < n) {ts ts' : List Tag}
    (hsettled : ∀ t ∈ ts, Settled a (v, t)) (hfade : List.Forall₂ Tag.Fades ts ts') :
    Quiet states a (ts.map (fun t => (v, t)))
      (fun s => ts'.foldl (fun s t => addTag n s v t) s) := by
  induction hfade with
  | nil => exact Quiet.nothing
  | cons h _ ih =>
    have hrest := ih (fun t ht => hsettled t (mem_cons_of_mem _ ht))
    exact (Quiet.add hroom (hsettled _ mem_cons_self) h).comp hrest

theorem Quiet.addRead (hroom : n = 0 ∨ states < n) {ts : List Tag}
    (reading : Tags → List Tag) (hsettled : ∀ t ∈ ts, Settled a (v, t))
    (hread : ∀ b, a.Fades b → List.Forall₂ Tag.Fades ts (reading b)) :
    Quiet states a (ts.map (fun t => (v, t)))
      (fun s => (reading s.tags).foldl (fun s t => addTag n s v t) s) where
  reports := fun s h => foldl_reports (fun s t => addTag_reports n s v t) _ s h
  quiet := fun s hfades hstates hchanged =>
    (Quiet.addAll hroom hsettled (hread s.tags hfades)).quiet s hfades hstates hchanged

end Parts

theorem Tag.Fades.appendTransform (h : t.Fades t') (transform : Text) :
    (t.appendTransform transform).Fades (t'.appendTransform transform) := by
  obtain ⟨transforms, heq⟩ := appendTransform_eq t transform
  obtain ⟨transforms', heq'⟩ := appendTransform_eq t' transform
  rw [heq, heq']
  constructor
  · dsimp only
    rw [h.same]
  · exact h.faded
  · exact h.kept

theorem crossedTags_fades {ts ts' : List Tag} (h : List.Forall₂ Tag.Fades ts ts') :
    List.Forall₂ Tag.Fades (crossedTags o transform ts) (crossedTags o transform ts') := by
  have hkept : List.Forall₂ Tag.Fades
      (ts.filter (fun t => decide (t.callDepth < o.functionDepth)))
      (ts'.filter (fun t => decide (t.callDepth < o.functionDepth))) := by
    refine rel_filter ?_ h
    intro t t' hfade
    dsimp only
    rw [hfade.depth_eq]
  refine rel_map ?_ hkept
  intro t t' hfade
  refine Tag.Fades.appendTransform ?_ transform
  constructor
  · dsimp only
    rw [hfade.same]
  · exact hfade.faded
  · exact hfade.kept

/-- An exact pointer to bytes has one offset. -/
def Tag.Single (t : Tag) : Prop :=
  t.pointer = true → t.bytes = true → t.exactOffset = true → t.start = t.stop

theorem Tag.Single.appendTransform {t : Tag} (h : t.Single) (transform : Text) :
    (t.appendTransform transform).Single := by
  obtain ⟨transforms, heq⟩ := appendTransform_eq t transform
  rw [heq]
  exact h

theorem single_law : TagLaw Tag.Single where
  merge := by
    intro existing incoming _ _ _ _ _ hexact
    have hmerged : (existing.exactOffset && incoming.exactOffset &&
        min existing.start incoming.start == max existing.stop incoming.stop) = true := hexact
    simp only [Bool.and_eq_true, beq_iff_eq] at hmerged
    exact hmerged.2
  transform := fun transform h => h.appendTransform transform
  cross := fun h => h
  stored := by
    intro t offset h
    unfold Tag.stored
    apply Tag.Single.appendTransform
    exact h
  moved := by
    intro t delta transform h
    unfold Tag.moved
    split
    · apply Tag.Single.appendTransform
      split
      · intro _ _ hexact
        cases hexact
      split
      · intro _ _ hexact
        cases hexact
      · intro _ _ _
        rfl
    · exact h

theorem loadKeeps_single (step : TaintStep) : LoadKeeps Tag.Single c step := by
  intro o _ _ t _ h
  unfold Tag.loaded
  split
  · apply Tag.Single.appendTransform
    exact h
  split
  · apply Tag.Single.appendTransform
    intro hpointer
    cases hpointer
  · exact h

theorem Tag.Fades.exact_eq (h : t.Fades t') (hsingle : t.Single)
    (hpointer : t.pointer = true) (hbytes : t.bytes = true) : t'.exactOffset = t.exactOffset := by
  rw [Bool.eq_iff_iff]
  exact ⟨h.faded, fun hexact => h.kept hexact (hsingle hpointer hbytes hexact)⟩

theorem Tag.Fades.stored (h : t.Fades t') (offset : Option (BitVec 64)) :
    (t.stored offset).Fades (t'.stored offset) := by
  unfold Tag.stored
  apply Tag.Fades.appendTransform
  constructor
  · dsimp only
    rw [h.same]
  · exact h.faded
  · exact h.kept

/-- A tag that fades but stays as exact as it is keeps all its ranges. -/
theorem Tag.Fades.forget (h : t.Fades t') (hexact : t'.exactOffset = t.exactOffset) :
    t' = { t with transforms := t'.transforms } := by
  rw [h.same, hexact]

theorem Tag.Fades.loaded (h : t.Fades t') (hsingle : t.Single) (c : TaintContext)
    (width : Nat) : (t.loaded c width).Fades (t'.loaded c width) := by
  have hstorage : t'.storage = t.storage := by rw [h.same]
  have hpointer : t'.pointer = t.pointer := by rw [h.same]
  have hbytes : t'.bytes = t.bytes := by rw [h.same]
  unfold Tag.loaded
  rw [hstorage, hpointer, hbytes]
  split
  · apply Tag.Fades.appendTransform
    constructor
    · dsimp only
      rw [h.same]
    · exact h.faded
    · exact h.kept
  · split
    · next hboth =>
        rw [Bool.and_eq_true] at hboth
        have hforget := h.forget (h.exact_eq hsingle hboth.1 hboth.2)
        generalize t'.transforms = transforms at hforget
        rw [hforget]
        apply Tag.Fades.appendTransform
        exact ⟨rfl, id, fun hexact _ => hexact⟩
    · exact h

theorem Tag.Fades.moved (h : t.Fades t') (hsingle : t.Single)
    (delta : Option (BitVec 64) × Bool) (transform : Text) :
    (t.moved delta transform).Fades (t'.moved delta transform) := by
  have hpointer : t'.pointer = t.pointer := by rw [h.same]
  have hbytes : t'.bytes = t.bytes := by rw [h.same]
  unfold Tag.moved
  rw [hpointer, hbytes]
  split
  · next hboth =>
      rw [Bool.and_eq_true] at hboth
      have hforget := h.forget (h.exact_eq hsingle hboth.1 hboth.2)
      generalize t'.transforms = transforms at hforget
      rw [hforget]
      apply Tag.Fades.appendTransform
      split
      · exact ⟨rfl, id, fun hexact _ => hexact⟩
      dsimp only
      split
      · exact ⟨rfl, id, fun hexact _ => hexact⟩
      · exact ⟨rfl, id, fun hexact _ => hexact⟩
  · exact h

section Reads

variable {c : TaintContext} {o : XairOp} {a b : Tags}

theorem mergedTags_fades (h : a.Fades b) :
    List.Forall₂ Tag.Fades (mergedTags c o a) (mergedTags c o b) := by
  refine rel_flatMap (R := Eq) (forall₂_same.mpr (fun _ _ => rfl)) ?_
  rintro ⟨input, index⟩ _ rfl
  dsimp only
  split
  · exact List.Forall₂.nil
  split
  · refine rel_map ?_ (h.tags input)
    intro t t' hfade
    exact hfade.stored _
  · exact h.tags input

/-- Whether a value has tags at all decides by which constant a pointer moves. -/
theorem pointerDelta_fades (h : a.Fades b) : pointerDelta c o a = pointerDelta c o b := by
  unfold pointerDelta
  split
  · next x y _ => rw [h.known x]
  · rfl

theorem outgoingTags_fades (h : a.Fades b) (hsingle : a.All Tag.Single) :
    List.Forall₂ Tag.Fades (outgoingTags c o a) (outgoingTags c o b) := by
  have hmerged := mergedTags_fades (c := c) (o := o) h
  have hboth : List.Forall₂ (fun t t' => t.Single ∧ t.Fades t')
      (mergedTags c o a) (mergedTags c o b) :=
    (forall₂_and_left _ _).mpr ⟨single_law.mergedTags hsingle, hmerged⟩
  unfold outgoingTags
  dsimp only
  split
  · have hkept : List.Forall₂ (fun t t' => t.Single ∧ t.Fades t')
        ((mergedTags c o a).filter (fun t => !t.missedBy (addressOffset c o)))
        ((mergedTags c o b).filter (fun t => !t.missedBy (addressOffset c o))) := by
      refine rel_filter ?_ hboth
      intro t t' hfade
      have hmissed : t'.missedBy (addressOffset c o) = t.missedBy (addressOffset c o) := by
        rw [hfade.2.same]
        rfl
      dsimp only
      rw [hmissed]
    refine rel_map ?_ hkept
    intro t t' hfade
    exact hfade.2.loaded hfade.1 c _
  · split
    · rw [pointerDelta_fades h]
      refine rel_map ?_ hboth
      intro t t' hfade
      exact hfade.2.moved hfade.1 _ _
    · refine rel_map ?_ hmerged
      intro t t' hfade
      exact hfade.appendTransform _

/-- A tag that comes to a value fades. -/
def YieldFades (y y' : ValueId × Tag) : Prop := y.1 = y'.1 ∧ y.2.Fades y'.2

theorem yieldFades_map {ts ts' : List Tag} (v : ValueId) (h : List.Forall₂ Tag.Fades ts ts') :
    List.Forall₂ YieldFades (ts.map (fun t => (v, t))) (ts'.map (fun t => (v, t))) := by
  refine rel_map ?_ h
  intro t t' hfade
  exact ⟨rfl, hfade⟩

theorem crossYield_fades (options : FlowOptions) (transform : Text)
    (bindings : List (ValueId × ValueId)) (h : a.Fades b) :
    List.Forall₂ YieldFades (crossYield options transform bindings a)
      (crossYield options transform bindings b) := by
  refine rel_flatMap (R := Eq) (forall₂_same.mpr (fun _ _ => rfl)) ?_
  rintro binding _ rfl
  exact yieldFades_map _ (crossedTags_fades _ _ (h.tags binding.1))

theorem passYield_fades (h : a.Fades b) (hsingle : a.All Tag.Single) :
    List.Forall₂ YieldFades (passYield c o a) (passYield c o b) := by
  refine rel_flatMap (R := Eq) (forall₂_same.mpr (fun _ _ => rfl)) ?_
  rintro r _ rfl
  exact yieldFades_map _ (outgoingTags_fades h hsingle)

theorem operationYield_fades (h : a.Fades b) (hsingle : a.All Tag.Single) :
    List.Forall₂ YieldFades (operationYield c record a) (operationYield c record b) := by
  unfold operationYield
  split
  · exact List.Forall₂.nil
  split
  · refine rel_append (crossYield_fades _ _ _ h)
      (rel_append (crossYield_fades _ _ _ h) ?_)
    split
    · exact passYield_fades h hsingle
    · exact List.Forall₂.nil
  · exact passYield_fades h hsingle

theorem argumentYield_fades (h : a.Fades b) :
    List.Forall₂ YieldFades (argumentYield c a) (argumentYield c b) := by
  refine rel_flatMap (R := Eq) (forall₂_same.mpr (fun _ _ => rfl)) ?_
  rintro binding _ rfl
  refine rel_map ?_ (h.tags binding.2)
  intro t t' hfade
  exact ⟨rfl, hfade.appendTransform _⟩

theorem absorbed_fades {ys ys' : List (ValueId × Tag)} (h : a.Fades b)
    (hyields : List.Forall₂ YieldFades ys ys') (habsorbed : ∀ y ∈ ys, Absorbed a y) :
    ∀ y ∈ ys', Absorbed b y := by
  intro y' hy'
  obtain ⟨y, hy, hvalue, hfade⟩ := forall₂_mem_right hyields hy'
  rcases (habsorbed y hy).fades h with hnone | ⟨t, ht, habsorbs⟩
  · exact Or.inl (hvalue.symm.trans hnone)
  · exact Or.inr ⟨t, hvalue ▸ ht, habsorbs.fades_right hfade⟩

end Reads

/-- The tags of one value that cross over to another, without the depth. -/
def crossAdd (s : TaintState) (binding : ValueId × ValueId) : TaintState :=
  (crossedTags o transform (s.tags.of binding.1)).foldl
    (fun s t => addTag o.maxStates s binding.2 t) s

theorem crossTags_taint (target : ValueId) (ts : List Tag)
    (s : CallState) : (ts.foldl (crossTag o transform target) s).taint =
      (crossedTags o transform ts).foldl (fun s t => addTag o.maxStates s target t) s.taint := by
  induction ts generalizing s with
  | nil => rfl
  | cons t rest ih =>
    rw [foldl_cons, ih]
    unfold crossTag crossedTags
    by_cases hdepth : o.functionDepth ≤ t.callDepth
    · rw [if_pos hdepth, filter_cons_of_neg (by simpa using hdepth)]
    · rw [if_neg hdepth, filter_cons_of_pos (by simpa using hdepth)]
      rfl

theorem crossValues_taint (bindings : List (ValueId × ValueId)) (s : CallState) :
    (bindings.foldl (crossValue o transform) s).taint =
      bindings.foldl (crossAdd o transform) s.taint := by
  refine (foldl_hom CallState.taint ?_).symm
  intro s binding
  exact (crossTags_taint o transform binding.2 _ s).symm

section Operations

variable {states : Nat} {a : Tags} {c : TaintContext}

theorem crossAdd_quiet {o : FlowOptions} {transform : Text} {bindings : List (ValueId × ValueId)}
    (hroom : o.maxStates = 0 ∨ states < o.maxStates)
    (hsettled : ∀ y ∈ crossYield o transform bindings a, Settled a y) :
    Quiet states a (crossYield o transform bindings a)
      (fun s => bindings.foldl (crossAdd o transform) s) := by
  refine Quiet.foldl (crossAdd o transform) ?_
  intro binding hbinding
  refine Quiet.addRead hroom (fun b => crossedTags o transform (b.of binding.1)) ?_ ?_
  · intro t ht
    exact hsettled _ (mem_flatMap.mpr ⟨binding, hbinding, mem_map_of_mem ht⟩)
  · intro b hfades
    exact crossedTags_fades o transform (hfades.tags binding.1)

/-- What has changed stays reported when an operation passes tags on. -/
theorem passOn_reports (o : XairOp) (s : TaintState) (h : (passOn c o s).changed = false) :
    s.changed = false := by
  refine foldl_reports ?_ _ s h
  intro s r
  exact foldl_reports (fun s t => addTag_reports _ s r t) _ s

theorem crossAdd_reports (bindings : List (ValueId × ValueId)) (s : TaintState)
    (h : (bindings.foldl (crossAdd o transform) s).changed = false) : s.changed = false := by
  refine foldl_reports ?_ _ s h
  intro s binding
  exact foldl_reports (fun s t => addTag_reports _ s binding.2 t) _ s

theorem passOn_quiet {o : XairOp} (hroom : c.options.maxStates = 0 ∨ states < c.options.maxStates)
    (hsingle : a.All Tag.Single) (hsettled : ∀ y ∈ passYield c o a, Settled a y) :
    Quiet states a (passYield c o a) (passOn c o) where
  reports := passOn_reports o
  quiet := by
    intro s hfades hstates hchanged
    have hparts : Quiet states a (passYield c o a) (fun s' =>
        (taintedResults c.module o).foldl
          (fun s' r => (outgoingTags c o s.tags).foldl
            (fun s' t => addTag c.options.maxStates s' r t) s') s') := by
      refine Quiet.foldl _ ?_
      intro r hr
      refine Quiet.addAll hroom ?_ (outgoingTags_fades hfades hsingle)
      intro t ht
      exact hsettled _ (mem_flatMap.mpr ⟨r, hr, mem_map_of_mem ht⟩)
    exact hparts.quiet s hfades hstates hchanged

theorem crossCall_taint (callee : FunctionId) (o : XairOp) (s : CallState) :
    (crossCall c callee o s).taint =
      (directCallReturns c callee o).foldl (crossAdd c.options "call-return")
        ((directCallArguments c callee o).foldl (crossAdd c.options "call-argument") s.taint) := by
  unfold crossCall
  rw [crossValues_taint, crossValues_taint]

theorem propagateOperation_reports (s : CallState)
    (h : (propagateOperation c record s).taint.changed = false) : s.taint.changed = false := by
  unfold propagateOperation at h
  split at h
  · exact h
  next o _ =>
  split at h
  · next callee _ =>
      have hcrossed : (crossCall c callee o s).taint.changed = false := by
        dsimp only at h
        split at h
        · exact passOn_reports _ _ h
        · exact h
      rw [crossCall_taint] at hcrossed
      exact crossAdd_reports _ _ _ _ (crossAdd_reports _ _ _ _ hcrossed)
  · exact passOn_reports _ _ h

theorem propagateOperation_quiet (hroom : c.options.maxStates = 0 ∨ states < c.options.maxStates)
    (hsingle : a.All Tag.Single) (hsettled : ∀ y ∈ operationYield c record a, Settled a y) :
    ∃ f, Quiet states a (operationYield c record a) f ∧
      ∀ s, (propagateOperation c record s).taint = f s.taint := by
  unfold operationYield at hsettled ⊢
  unfold propagateOperation
  cases hop : c.module.op record.operation with
  | none => exact ⟨id, Quiet.nothing, fun _ => rfl⟩
  | some o =>
    rw [hop] at hsettled
    dsimp only at hsettled ⊢
    cases hcallee : if o.opcode = .call then directCallee c.session o else none with
    | none =>
      rw [hcallee] at hsettled
      exact ⟨_, passOn_quiet hroom hsingle hsettled, fun _ => rfl⟩
    | some callee =>
      rw [hcallee] at hsettled
      dsimp only at hsettled ⊢
      have harguments := crossAdd_quiet hroom
        (fun y hy => hsettled y (mem_append_left _ hy))
      have hreturns := crossAdd_quiet hroom
        (fun y hy => hsettled y (mem_append_right _ (mem_append_left _ hy)))
      by_cases hnone : functionReturns c.session callee = []
      · rw [if_pos hnone] at hsettled ⊢
        have hpassed := passOn_quiet hroom hsingle
          (fun y hy => hsettled y (mem_append_right _ (mem_append_right _ hy)))
        refine ⟨_, harguments.comp (hreturns.comp hpassed), ?_⟩
        intro s
        rw [if_pos hnone]
        dsimp only
        rw [crossCall_taint]
      · rw [if_neg hnone]
        refine ⟨_, harguments.comp (hreturns.comp Quiet.nothing), ?_⟩
        intro s
        rw [if_neg hnone]
        exact crossCall_taint callee o s

theorem propagateBlockArguments_quiet
    (hroom : c.options.maxStates = 0 ∨ states < c.options.maxStates)
    (hsettled : ∀ y ∈ argumentYield c a, Settled a y) :
    Quiet states a (argumentYield c a) (propagateBlockArguments c) := by
  refine Quiet.foldl (propagateArgument c.options.maxStates) ?_
  intro binding hbinding
  have hquiet : Quiet states a
      (((a.of binding.2).map (fun t => t.appendTransform "phi")).map (fun t => (binding.1, t)))
      (fun s => ((s.tags.of binding.2).map (fun t => t.appendTransform "phi")).foldl
        (fun s t => addTag c.options.maxStates s binding.1 t) s) := by
    refine Quiet.addRead hroom
      (fun b => (b.of binding.2).map (fun t => t.appendTransform "phi")) ?_ ?_
    · intro t ht
      obtain ⟨t₀, ht₀, rfl⟩ := mem_map.mp ht
      exact hsettled _ (mem_flatMap.mpr ⟨binding, hbinding, mem_map_of_mem ht₀⟩)
    intro b hfades
    refine rel_map ?_ (hfades.tags binding.2)
    intro t t' hfade
    exact hfade.appendTransform _
  simp only [map_map, foldl_map] at hquiet
  exact hquiet

end Operations

/-- No exact offset is made inexact in a round. -/
structure RoundSettled (w : Watch) (c : TaintContext) (operations : List OperationRecord)
    (t : TaintRun) : Prop where
  steps : ∀ step ∈ operationSteps w c operations t.fresh,
    ∀ y ∈ operationYield c step.1 step.2.taint.tags, Settled step.2.taint.tags y
  arguments :
    ∀ y ∈ argumentYield c (runOperations w c operations t.fresh).call.taint.tags,
      Settled (runOperations w c operations t.fresh).call.taint.tags y

instance (w : Watch) (c : TaintContext) (operations : List OperationRecord) (t : TaintRun) :
    Decidable (RoundSettled w c operations t) :=
  decidable_of_iff
    ((∀ step ∈ operationSteps w c operations t.fresh,
        ∀ y ∈ operationYield c step.1 step.2.taint.tags, Settled step.2.taint.tags y) ∧
      ∀ y ∈ argumentYield c (runOperations w c operations t.fresh).call.taint.tags,
        Settled (runOperations w c operations t.fresh).call.taint.tags y)
    ⟨fun h => ⟨h.1, h.2⟩, fun h => ⟨h.steps, h.arguments⟩⟩

section Rounds

variable {w : Watch} {c : TaintContext} {operations : List OperationRecord} {t : TaintRun}

/-- What has changed stays reported by the loop over the operations. -/
theorem runOperations_reports (h : (runOperations w c operations t).call.taint.changed = false) :
    t.call.taint.changed = false := by
  induction operations generalizing t with
  | nil => exact h
  | cons record rest ih =>
    have hcall := TaintRun.poll_call w c.options
      { t with call := propagateOperation c record t.call }
    unfold runOperations at h
    split at h
    · next heq =>
        rw [heq] at hcall
        dsimp only at hcall h
        rw [hcall] at h
        exact propagateOperation_reports record t.call h
    · next heq =>
        rw [heq] at hcall
        have hrest := ih h
        dsimp only at hcall hrest
        rw [hcall] at hrest
        exact propagateOperation_reports record t.call hrest

/-- The loop over the operations, when it is not stopped and reports nothing. -/
theorem runOperations_absorbs
    (hroom : c.options.maxStates = 0 ∨ t.call.taint.states < c.options.maxStates)
    (hsingle : t.call.taint.tags.All Tag.Single)
    (hstop : operationsStopped w c operations t = false)
    (hsettled : ∀ step ∈ operationSteps w c operations t,
      ∀ y ∈ operationYield c step.1 step.2.taint.tags, Settled step.2.taint.tags y)
    (hchanged : (runOperations w c operations t).call.taint.changed = false) :
    t.call.taint.tags.Fades (runOperations w c operations t).call.taint.tags ∧
      (runOperations w c operations t).call.taint.states = t.call.taint.states ∧
        ∀ record ∈ operations,
          ∀ y ∈ operationYield c record (runOperations w c operations t).call.taint.tags,
            Absorbed (runOperations w c operations t).call.taint.tags y := by
  induction operations generalizing t with
  | nil => exact ⟨Tags.Fades.refl _, rfl, fun _ hmem => by cases hmem⟩
  | cons record rest ih =>
    have hcall := TaintRun.poll_call w c.options
      { t with call := propagateOperation c record t.call }
    unfold operationsStopped at hstop
    unfold operationSteps at hsettled
    split at hstop
    · cases hstop
    next t' heq =>
      have hrun : runOperations w c (record :: rest) t = runOperations w c rest t' := by
        rw [runOperations, heq]
      rw [hrun] at hchanged ⊢
      rw [heq] at hcall hsettled
      dsimp only at hcall hsettled
      have hfirst := hsettled _ mem_cons_self
      dsimp only at hfirst
      obtain ⟨f, hquiet, hf⟩ := propagateOperation_quiet record hroom hsingle hfirst
      have hreported : t'.call.taint.changed = false := runOperations_reports hchanged
      rw [hcall, hf] at hreported
      obtain ⟨hfades, hstates, habsorbed⟩ :=
        hquiet.quiet t.call.taint (Tags.Fades.refl _) rfl hreported
      rw [← hf, ← hcall] at hfades hstates habsorbed
      have hkeeps : t'.call.taint.tags.All Tag.Single := by
        rw [hcall]
        exact single_law.propagateOperation (loadKeeps_single c _) hsingle
      have hroom' : c.options.maxStates = 0 ∨
          t'.call.taint.states < c.options.maxStates := hstates.symm ▸ hroom
      obtain ⟨hfades', hstates', habsorbed'⟩ :=
        ih hroom' hkeeps hstop
          (fun step hmem => hsettled step (mem_cons_of_mem _ hmem)) hchanged
      refine ⟨hfades.trans hfades', hstates'.trans hstates, ?_⟩
      intro record' hmem
      rcases mem_cons.mp hmem with rfl | hrest
      · exact absorbed_fades hfades'
          (operationYield_fades record' (hfades.trans hfades') hsingle) habsorbed
      · exact habsorbed' record' hrest

/-- A round that is not stopped, reports nothing and makes no exact offset inexact leaves
nothing to add. -/
theorem taintRound_closed
    (hroom : c.options.maxStates = 0 ∨ t.call.taint.states < c.options.maxStates)
    (hsingle : t.call.taint.tags.All Tag.Single)
    (hstop : roundStopped w c operations t = false) (hsettled : RoundSettled w c operations t)
    (hchanged : (taintRound w c operations t).call.taint.changed = false) :
    TaintClosed c operations (taintRound w c operations t).call.taint.tags := by
  unfold roundStopped at hstop
  rw [Bool.or_eq_false_iff] at hstop
  have hcall := TaintRun.poll_call w c.options (runOperations w c operations t.fresh)
  unfold taintRound at hchanged ⊢
  split
  · next heq =>
      rw [heq] at hstop
      cases hstop.2
  next t' heq =>
    rw [heq] at hcall hchanged
    dsimp only at hcall hchanged ⊢
    unfold TaintRun.passArguments at hchanged ⊢
    dsimp only at hchanged ⊢
    rw [hcall] at hchanged ⊢
    have hkeeps : (runOperations w c operations t.fresh).call.taint.tags.All Tag.Single :=
      runOperations_keeps (Q := Tags.All Tag.Single)
        (fun step _ h => single_law.propagateOperation (loadKeeps_single c step) h) hsingle
    have hreports := (propagateBlockArguments_quiet hroom hsettled.arguments).reports _ hchanged
    obtain ⟨_, hstates, habsorbed⟩ :=
      runOperations_absorbs (t := t.fresh) hroom hsingle hstop.1 hsettled.steps hreports
    obtain ⟨hfades, _, harguments⟩ :=
      (propagateBlockArguments_quiet hroom hsettled.arguments).quiet _
        (Tags.Fades.refl _) hstates hchanged
    constructor
    · intro record hmem y hy
      exact (absorbed_fades hfades (operationYield_fades record hfades hkeeps)
        (habsorbed record hmem) y hy).covered
    · intro y hy
      exact (absorbed_fades (Tags.Fades.refl _) (argumentYield_fades hfades)
        harguments y hy).covered

/-- A poll that does not stop the loop finds room for more tags. -/
theorem TaintRun.poll_room {o : FlowOptions} (h : (t.poll w o).1 = false) :
    o.maxStates = 0 ∨ t.call.taint.states < o.maxStates := by
  unfold TaintRun.poll stopped at h
  dsimp only at h
  split at h
  · cases h
  split at h
  · cases h
  split at h
  · cases h
  next hroom =>
    have hstates : t.counted.states = t.call.taint.states := rfl
    rw [hstates] at hroom
    omega

/-- A loop that is not stopped, and whose last round makes no exact offset inexact, leaves
nothing to add. -/
theorem taintLoop_closed {fuel : Nat} {t t' : TaintRun}
    (hstart : t.call.taint.changed = true) (hsingle : t.call.taint.tags.All Tag.Single)
    (hstop : taintStopped w c operations fuel t = false)
    (hsettled : ∀ round ∈ taintRounds w c operations fuel t,
      (taintRound w c operations round).call.taint.changed = false →
        RoundSettled w c operations round) (hrun : taintLoop w c operations fuel t = some t') :
    TaintClosed c operations t'.call.taint.tags := by
  induction fuel generalizing t with
  | zero => cases hrun
  | succ n ih =>
    have hcall := t.poll_call w c.options
    have hroom := TaintRun.poll_room (w := w) (o := c.options) (t := t)
    have hnot : ¬ t.call.taint.changed = false := by
      rw [hstart]
      decide
    unfold taintStopped at hstop
    unfold taintRounds at hsettled
    unfold taintLoop at hrun
    rw [if_neg hnot] at hstop hsettled hrun
    split at hrun
    · next heq =>
        rw [heq] at hstop
        cases hstop
    next polled heq =>
      rw [heq] at hstop hsettled hcall hroom
      dsimp only at hstop hsettled hcall hroom
      rw [Bool.or_eq_false_iff] at hstop
      rw [← hcall] at hsingle
      have hroom' := hroom rfl
      rw [← hcall] at hroom'
      have hkeeps : (taintRound w c operations polled).call.taint.tags.All Tag.Single :=
        taintRound_keeps (Q := Tags.All Tag.Single)
          (fun step _ h => single_law.propagateOperation (loadKeeps_single c step) h)
          (fun _ h => single_law.propagateBlockArguments h) hsingle
      cases hchanged : (taintRound w c operations polled).call.taint.changed with
      | true =>
        exact ih hchanged hkeeps hstop.2
          (fun round hmem => hsettled round (mem_cons_of_mem _ hmem)) hrun
      | false =>
        have hclosed := taintRound_closed hroom' hsingle hstop.1
          (hsettled polled mem_cons_self hchanged) hchanged
        cases n with
        | zero => cases hrun
        | succ n =>
          unfold taintLoop at hrun
          rw [if_pos hchanged] at hrun
          cases hrun
          exact hclosed

end Rounds

/-- The taint of a query that is not stopped leaves nothing to add, when no round that
reports nothing makes an exact offset inexact. -/
theorem spreadTaint_closed {fuel : Nat} {s : FlowSession} {m : XairModule} {w : Watch}
    {o : FlowOptions} {r : DirectedFlowResult} {t : TaintRun}
    (hstop : taintStopped w (taintContext s m o r.sources) (collectOperations s.cfg m) fuel
      (seededTaint s m o r) = false)
    (hsettled : ∀ round ∈ taintRounds w (taintContext s m o r.sources)
        (collectOperations s.cfg m) fuel (seededTaint s m o r),
      (taintRound w (taintContext s m o r.sources) (collectOperations s.cfg m)
        round).call.taint.changed = false →
          RoundSettled w (taintContext s m o r.sources) (collectOperations s.cfg m) round)
    (hrun : spreadTaint fuel s m w o r = some t) :
    TaintClosed (taintContext s m o r.sources) (collectOperations s.cfg m) t.call.taint.tags := by
  refine taintLoop_closed rfl ?_ hstop hsettled hrun
  apply single_law.seedAbsoluteMemory
  · intro point _ address result _ hpointer
    cases hpointer
  apply single_law.seedSources
  · intro point _ _ _ _
    rfl
  · intro v t ht
    cases ht

/-- A buffer is read through a parameter that gets its address on several ways, on the
longest of them at an unknown distance. -/
def fadingModule : XairModule where
  values :=
    [{ type := { kind := .int, bits := 64 }, name := "rax" },
     { type := { kind := .int, bits := 64 }, name := "rcx" },
     { type := { kind := .int, bits := 64 }, definition := some 0 },
     { type := { kind := .int, bits := 64 } },
     { type := { kind := .int, bits := 64 } },
     { type := { kind := .int, bits := 64 } },
     { type := { kind := .mem } },
     { type := { kind := .int, bits := 8 }, definition := some 1 },
     { type := { kind := .int, bits := 1 } }]
  ops :=
    [{ opcode := .add, inputs := [0, 1], results := [2] },
     { opcode := .load, inputs := [6, 3], results := [7] }]
  blocks :=
    [{ params := [0, 1, 6, 8]
       terminator := { kind := .cbranch, condition := 8, trueTarget := 1, falseTarget := 4 } },
     { terminator :=
         { kind := .cbranch, condition := 8, trueTarget := 5, trueArgs := [0]
           falseTarget := 2, falseArgs := [0] } },
     { params := [4], terminator := { kind := .jump, trueTarget := 5, trueArgs := [4] } },
     { params := [5], terminator := { kind := .jump, trueTarget := 2, trueArgs := [5] } },
     { ops := [0], terminator := { kind := .jump, trueTarget := 3, trueArgs := [2] } },
     { ops := [1], params := [3], terminator := { kind := .ret } }]
  opcodeName := fun _ => []

/-- The blocks as a function. -/
def fadingSession : FlowSession where
  module := some fadingModule
  cfg :=
    { nodes :=
        [{ start := 0x10, irBlock := 0, edgeOffset := 0, edgeCount := 2 },
         { start := 0x20, irBlock := 1, edgeOffset := 2, edgeCount := 2 },
         { start := 0x30, irBlock := 2, edgeOffset := 4, edgeCount := 1 },
         { start := 0x40, irBlock := 3, edgeOffset := 5, edgeCount := 1 },
         { start := 0x50, irBlock := 4, edgeOffset := 6, edgeCount := 1 },
         { start := 0x60, irBlock := 5, edgeOffset := 7, edgeCount := 0 }]
      edges :=
        [{ kind := .other 0, dst := 1, condition := 8 },
         { kind := .cbranchFalse, dst := 4, condition := 8 },
         { kind := .other 0, dst := 5, condition := 8 },
         { kind := .cbranchFalse, dst := 2, condition := 8 },
         { kind := .other 1, dst := 5 }, { kind := .other 1, dst := 2 },
         { kind := .other 1, dst := 3 }]
      functionNodes := [[0, 1, 2, 3, 4, 5]]
      owners := fun _ => [0]
      nodeContaining := fun _ => 4
      edgeKindName := fun _ => [] }
  functions := [{ entry := 0x10 }]
  variableView := fun _ => []
  expressionText := fun _ => []
  instructions := fun _ => [0x50]
  isComplete := true

/-- From the buffer to the byte that is loaded. -/
def fadingPoints : DirectedFlowResult :=
  resolvePoints fadingSession {}
    [{ kind := .buffer, registerName := "rax", address := 0x50, length := 4 }]
    [{ kind := .xairValue, value := 7 }]

/-- The parameter loses its exact offset in the last round, and its load is still known to
read the first byte. -/
theorem fading_not_closed :
    ∃ t, spreadTaint 8 fadingSession fadingModule quietWatch {} fadingPoints = some t ∧
      taintStopped quietWatch (taintContext fadingSession fadingModule {} fadingPoints.sources)
        (collectOperations fadingSession.cfg fadingModule) 8
        (seededTaint fadingSession fadingModule {} fadingPoints) = false ∧
      ¬ TaintClosed (taintContext fadingSession fadingModule {} fadingPoints.sources)
        (collectOperations fadingSession.cfg fadingModule) t.call.taint.tags := by
  refine ⟨_, rfl, rfl, ?_⟩
  intro hclosed
  exact absurd hclosed.records (by decide)

/-- The byte two places behind the start of a buffer is all that there is to add. -/
theorem distance_two_closed :
    ∃ t, spreadTaint 8 (distanceSession 2) (distanceModule 2) quietWatch {} (distancePoints 2) =
        some t ∧ TaintClosed
        (taintContext (distanceSession 2) (distanceModule 2) {} (distancePoints 2).sources)
        (collectOperations (distanceSession 2).cfg (distanceModule 2)) t.call.taint.tags := by
  have hsome : (spreadTaint 8 (distanceSession 2) (distanceModule 2) quietWatch {}
      (distancePoints 2)).isSome = true := by rfl
  obtain ⟨t, hrun⟩ := Option.isSome_iff_exists.mp hsome
  exact ⟨t, hrun, spreadTaint_closed (by rfl) (by decide) hrun⟩

end Airece
