import IndagoRev.Airece.DirectedFlow

/-!
# The steps of the taint loop

The loop of `directed_flow` goes through rounds, and a round through the operations.
What a run of it does is the list of its steps, each an operation with the state before
it.  A property of tags that every rule for one tag keeps holds of all tags in the
end, provided that the loads keep it in these states.
-/

namespace Airece

open StdText List

/-- An operation, with the state before it. -/
abbrev TaintStep := OperationRecord × CallState

/-- The steps of the loop over the operations. -/
def operationSteps (w : Watch) (c : TaintContext) : List OperationRecord → TaintRun → List TaintStep
  | [], _ => []
  | record :: rest, t =>
    (record, t.call) ::
      match TaintRun.poll w c.options { t with call := propagateOperation c record t.call } with
      | (true, _) => []
      | (false, t) => operationSteps w c rest t

/-- The states in which the rounds of the loop begin. -/
def taintRounds (w : Watch) (c : TaintContext) (operations : List OperationRecord) :
    Nat → TaintRun → List TaintRun
  | 0, _ => []
  | n + 1, t =>
    if t.call.taint.changed = false then []
    else
      match t.poll w c.options with
      | (true, _) => []
      | (false, t) => t :: taintRounds w c operations n (taintRound w c operations t)

/-- The steps of all rounds. -/
def taintSteps (w : Watch) (c : TaintContext) (operations : List OperationRecord) (fuel : Nat)
    (t : TaintRun) : List TaintStep :=
  (taintRounds w c operations fuel t).flatMap (fun t => operationSteps w c operations t.fresh)

/-- The steps of the taint of a query. -/
def spreadSteps (fuel : Nat) (s : FlowSession) (m : XairModule) (w : Watch) (o : FlowOptions)
    (r : DirectedFlowResult) : List TaintStep :=
  taintSteps w (taintContext s m o r.sources) (collectOperations s.cfg m) fuel
    (seededTaint s m o r)

@[simp] theorem TaintRun.poll_call (w : Watch) (o : FlowOptions) (t : TaintRun) :
    (t.poll w o).2.call = t.call := rfl

section Runs

variable {w : Watch} {c : TaintContext} {operations : List OperationRecord} {Q : Tags → Prop}

theorem runOperations_keeps {t : TaintRun} (hstep : ∀ step ∈ operationSteps w c operations t,
      Q step.2.taint.tags → Q (propagateOperation c step.1 step.2).taint.tags)
    (h : Q t.call.taint.tags) : Q (runOperations w c operations t).call.taint.tags := by
  induction operations generalizing t with
  | nil => exact h
  | cons record rest ih =>
    have hfirst : Q (propagateOperation c record t.call).taint.tags :=
      hstep (record, t.call) mem_cons_self h
    have hcall := TaintRun.poll_call w c.options
      { t with call := propagateOperation c record t.call }
    unfold runOperations
    unfold operationSteps at hstep
    split
    · next heq =>
        rw [heq] at hcall
        dsimp only at hcall ⊢
        rw [hcall]
        exact hfirst
    · next heq =>
        rw [heq] at hcall hstep
        dsimp only at hcall hstep ⊢
        apply ih
        · intro step hmem
          exact hstep step (mem_cons_of_mem _ hmem)
        · rw [hcall]
          exact hfirst

theorem taintRound_keeps {t : TaintRun} (hstep : ∀ step ∈ operationSteps w c operations t.fresh,
      Q step.2.taint.tags → Q (propagateOperation c step.1 step.2).taint.tags)
    (harguments : ∀ s : TaintState, Q s.tags → Q (propagateBlockArguments c s).tags)
    (h : Q t.call.taint.tags) : Q (taintRound w c operations t).call.taint.tags := by
  have hoperations : Q (runOperations w c operations t.fresh).call.taint.tags :=
    runOperations_keeps hstep h
  have hcall := TaintRun.poll_call w c.options (runOperations w c operations t.fresh)
  unfold taintRound
  split
  · next heq =>
      rw [heq] at hcall
      dsimp only at hcall ⊢
      rw [hcall]
      exact hoperations
  · next heq =>
      rw [heq] at hcall
      dsimp only at hcall
      apply harguments
      rw [hcall]
      exact hoperations

theorem taintLoop_keeps {fuel : Nat} {t t' : TaintRun}
    (hstep : ∀ step ∈ taintSteps w c operations fuel t,
      Q step.2.taint.tags → Q (propagateOperation c step.1 step.2).taint.tags)
    (harguments : ∀ s : TaintState, Q s.tags → Q (propagateBlockArguments c s).tags)
    (h : Q t.call.taint.tags) (hrun : taintLoop w c operations fuel t = some t') :
    Q t'.call.taint.tags := by
  induction fuel generalizing t with
  | zero => cases hrun
  | succ n ih =>
    have hcall := t.poll_call w c.options
    unfold taintLoop at hrun
    unfold taintSteps taintRounds at hstep
    split at hrun
    · cases hrun
      exact h
    next hchanged =>
      rw [if_neg hchanged] at hstep
      split at hrun
      · next heq =>
          rw [heq] at hcall
          cases hrun
          dsimp only at hcall
          rw [hcall]
          exact h
      next t₁ heq =>
        rw [heq] at hcall hstep
        dsimp only at hcall hstep
        rw [flatMap_cons] at hstep
        refine ih ?_ ?_ hrun
        · intro step hmem
          exact hstep step (mem_append_right _ hmem)
        refine taintRound_keeps ?_ harguments ?_
        · intro step hmem
          exact hstep step (mem_append_left _ hmem)
        · rw [hcall]
          exact h

end Runs

variable (P : Tag → Prop)

/-- Every tag of every value has a property. -/
def Tags.All (tags : Tags) : Prop := ∀ v, ∀ t ∈ tags.of v, P t

/-- A property that every rule for one tag keeps, but that of a load. -/
structure TagLaw (P : Tag → Prop) : Prop where
  merge : ∀ {existing incoming : Tag}, existing.sameKey incoming = true → P existing →
    P incoming → P (existing.merge incoming)
  transform : ∀ {t : Tag} (transform : Text), P t → P (t.appendTransform transform)
  cross : ∀ {t : Tag}, P t → P { t with callDepth := t.callDepth + 1 }
  stored : ∀ {t : Tag} (offset : Option (BitVec 64)), P t → P (t.stored offset)
  moved : ∀ {t : Tag} (delta : Option (BitVec 64) × Bool) (transform : Text), P t →
    P (t.moved delta transform)

theorem appendTransform_eq (t : Tag) (transform : Text) :
    ∃ transforms, t.appendTransform transform = { t with transforms := transforms } := by
  unfold Tag.appendTransform
  split
  · exact ⟨t.transforms, rfl⟩
  · exact ⟨_, rfl⟩

variable (c : TaintContext)

/-- The width of a load. -/
def loadWidth (o : XairOp) : Nat :=
  match o.results with
  | [] => flowWidth 0
  | r :: _ => flowWidth (c.module.valueType r).bits

/-- The tags that a load takes up. -/
def loadedTags (o : XairOp) (tags : Tags) : List Tag :=
  (mergedTags c o tags).filter (fun t => !t.missedBy (addressOffset c o))

/-- A step that is a load keeps a property of the tags that it takes up. -/
def LoadKeeps (step : TaintStep) : Prop :=
  ∀ o, c.module.op step.1.operation = some o → o.opcode = .load →
    ∀ t ∈ loadedTags c o step.2.taint.tags, P t → P (t.loaded c (loadWidth c o))

/-- A tag of the tags with a merged one is an old one, or the merged one. -/
theorem mergeTag_mem {incoming : Tag} {existing merged : List Tag} {changed : Bool}
    (h : mergeTag incoming existing = some (merged, changed)) {t : Tag} (ht : t ∈ merged) :
    t ∈ existing ∨ ∃ e ∈ existing, e.sameKey incoming = true ∧ t = e.merge incoming := by
  induction existing generalizing merged with
  | nil => cases h
  | cons e rest ih =>
    unfold mergeTag at h
    split at h
    · next hkey =>
        cases h
        rcases mem_cons.mp ht with rfl | hrest
        · exact Or.inr ⟨e, mem_cons_self, hkey, rfl⟩
        · exact Or.inl (mem_cons_of_mem _ hrest)
    · rw [Option.map_eq_some_iff] at h
      obtain ⟨⟨later, _⟩, hlater, heq⟩ := h
      cases heq
      rcases mem_cons.mp ht with rfl | hrest
      · exact Or.inl mem_cons_self
      · rcases ih hlater hrest with hold | ⟨e', hmem, hkey, rfl⟩
        · exact Or.inl (mem_cons_of_mem _ hold)
        · exact Or.inr ⟨e', mem_cons_of_mem _ hmem, hkey, rfl⟩

theorem Tags.of_update (tags : Tags) (v u : ValueId) (ts : List Tag) :
    Tags.of (Function.update tags v (some ts)) u = if u = v then ts else tags.of u := by
  unfold Tags.of
  by_cases huv : u = v
  · subst huv
    simp
  · rw [Function.update_of_ne huv, if_neg huv]

variable {P : Tag → Prop} {tags : Tags}

/-- A tag of a value after an update is one of the new tags, or an old tag. -/
theorem Tags.All.update (h : tags.All P) (v : ValueId)
    {ts : List Tag} (hts : ∀ t ∈ ts, P t) : Tags.All P (Function.update tags v (some ts)) := by
  intro u t ht
  rw [Tags.of_update] at ht
  split at ht
  · exact hts t ht
  · exact h u t ht

section Laws

variable {P : Tag → Prop} (law : TagLaw P) {c : TaintContext}
include law

variable {s : TaintState}

theorem TagLaw.addTag (n : Nat) (v : ValueId) {t : Tag} (h : s.tags.All P)
    (ht : P t) : (addTag n s v t).tags.All P := by
  unfold Airece.addTag
  split
  · exact h
  split
  · next merged changed hmerge =>
      apply h.update
      intro u hu
      rcases mergeTag_mem hmerge hu with hold | ⟨e, hmem, hkey, rfl⟩
      · exact h v u hold
      · exact law.merge hkey (h v e hmem) ht
  · split
    · exact h.update v (h v)
    apply h.update
    intro u hu
    rcases mem_append.mp hu with hold | hnew
    · exact h v u hold
    · rw [mem_singleton.mp hnew]
      exact ht

theorem TagLaw.addTags (n : Nat) (v : ValueId) {ts : List Tag}
    (h : s.tags.All P) (hts : ∀ t ∈ ts, P t) :
    (ts.foldl (fun s t => Airece.addTag n s v t) s).tags.All P := by
  refine List.foldlRecOn (motive := fun s : TaintState => s.tags.All P) _ _ h ?_
  intro s hs t ht
  exact law.addTag n v hs (hts t ht)

theorem TagLaw.crossValue (o : FlowOptions) (transform : Text) {s : CallState}
    (binding : ValueId × ValueId) (h : s.taint.tags.All P) :
    (crossValue o transform s binding).taint.tags.All P := by
  unfold Airece.crossValue
  refine List.foldlRecOn (motive := fun s : CallState => s.taint.tags.All P) _ _ h ?_
  intro s hs t ht
  unfold crossTag
  split
  · exact hs
  · exact law.addTag _ _ hs (law.transform _ (law.cross (h _ t ht)))

theorem TagLaw.crossCall (callee : FunctionId) (o : XairOp) {s : CallState}
    (h : s.taint.tags.All P) : (crossCall c callee o s).taint.tags.All P := by
  unfold Airece.crossCall
  refine List.foldlRecOn (motive := fun s : CallState => s.taint.tags.All P) _ _ ?_ ?_
  · refine List.foldlRecOn (motive := fun s : CallState => s.taint.tags.All P) _ _ h ?_
    intro s hs binding _
    exact law.crossValue _ _ _ hs
  · intro s hs binding _
    exact law.crossValue _ _ _ hs

variable {o : XairOp}

theorem TagLaw.mergedTags (h : tags.All P) : ∀ t ∈ mergedTags c o tags, P t := by
  intro t ht
  unfold Airece.mergedTags at ht
  rw [mem_flatMap] at ht
  obtain ⟨⟨input, index⟩, _, ht⟩ := ht
  dsimp only at ht
  split at ht
  · cases ht
  split at ht
  · obtain ⟨t', ht', rfl⟩ := mem_map.mp ht
    exact law.stored _ (h _ t' ht')
  · exact h _ t ht

theorem TagLaw.outgoingTags (h : tags.All P) (hload : o.opcode = .load →
      ∀ t ∈ loadedTags c o tags, P t → P (t.loaded c (loadWidth c o))) :
    ∀ t ∈ outgoingTags c o tags, P t := by
  have hmerged := law.mergedTags (c := c) (o := o) h
  intro t ht
  unfold Airece.outgoingTags at ht
  dsimp only at ht
  split at ht
  · next hopcode =>
      obtain ⟨t', ht', rfl⟩ := mem_map.mp ht
      exact hload hopcode t' ht' (hmerged t' (mem_filter.mp ht').1)
  split at ht
  · obtain ⟨t', ht', rfl⟩ := mem_map.mp ht
    exact law.moved _ _ (hmerged t' ht')
  · obtain ⟨t', ht', rfl⟩ := mem_map.mp ht
    exact law.transform _ (hmerged t' ht')

theorem TagLaw.passOn (h : s.tags.All P) (hload : o.opcode = .load →
      ∀ t ∈ loadedTags c o s.tags, P t → P (t.loaded c (loadWidth c o))) :
    (passOn c o s).tags.All P := by
  have houtgoing := law.outgoingTags h hload
  unfold Airece.passOn
  refine List.foldlRecOn (motive := fun s : TaintState => s.tags.All P) _ _ h ?_
  intro s hs r _
  exact law.addTags _ r hs houtgoing

theorem TagLaw.propagateOperation {record : OperationRecord} {s : CallState}
    (hload : LoadKeeps P c (record, s)) (h : s.taint.tags.All P) :
    (propagateOperation c record s).taint.tags.All P := by
  unfold Airece.propagateOperation
  split
  · exact h
  next o hop =>
    split
    · next callee hcallee =>
        have hcall : o.opcode = .call := by
          by_contra hne
          rw [if_neg hne] at hcallee
          cases hcallee
        dsimp only
        split
        · apply law.passOn (law.crossCall callee o h)
          intro hopcode
          rw [hcall] at hopcode
          cases hopcode
        · exact law.crossCall callee o h
    · exact law.passOn h (hload o hop)

theorem TagLaw.propagateBlockArguments (h : s.tags.All P) :
    (propagateBlockArguments c s).tags.All P := by
  unfold Airece.propagateBlockArguments
  refine List.foldlRecOn (motive := fun s : TaintState => s.tags.All P) _ _ h ?_
  intro s hs binding _
  unfold propagateArgument
  refine List.foldlRecOn (motive := fun s : TaintState => s.tags.All P) _ _ hs ?_
  intro s' hs' t ht
  exact law.addTag _ _ hs' (law.transform _ (hs _ t ht))

theorem TagLaw.seedSources (n : Nat) {sources : List ResolvedFlowPoint}
    (hsources : ∀ point ∈ sources.zipIdx, P (sourceTag point.2 point.1)) (h : s.tags.All P) :
    (seedSources n sources s).tags.All P := by
  unfold Airece.seedSources
  refine List.foldlRecOn (motive := fun s : TaintState => s.tags.All P) _ _ h ?_
  intro s hs point hpoint
  dsimp only
  split
  · exact hs
  · refine List.foldlRecOn (motive := fun s : TaintState => s.tags.All P) _ _ hs ?_
    intro s' hs' v _
    exact law.addTag _ _ hs' (hsources point hpoint)

end Laws

/-- A load at a constant address inside a source of memory, and its result. -/
structure SeededLoad (m : XairModule) (operations : List OperationRecord)
    (point : ResolvedFlowPoint) (address : BitVec 64) (result : ValueId) : Prop where
  kind : point.selector.kind = .memory
  found : ∃ record ∈ operations, ∃ o, m.op record.operation = some o ∧ o.opcode = .load ∧
    constantAddress m o = some address ∧ result ∈ o.results
  scalar : valueIsScalar m result = true
  above : point.selector.memoryAddress ≤ address.toNat
  below : address.toNat < point.selector.memoryAddress +
    min point.selector.length (2 ^ 64 - 1 - point.selector.memoryAddress)

theorem TagLaw.seedAbsoluteMemory (law : TagLaw P) {m : XairModule} (n : Nat)
    {operations : List OperationRecord} {sources : List ResolvedFlowPoint} {s : TaintState}
    (hloads : ∀ point ∈ sources.zipIdx, ∀ address result,
      SeededLoad m operations point.1 address result →
        P (memoryTag m point.2 point.1.selector address.toNat result))
    (h : s.tags.All P) : (seedAbsoluteMemory m n operations sources s).tags.All P := by
  unfold Airece.seedAbsoluteMemory
  refine List.foldlRecOn (motive := fun s : TaintState => s.tags.All P) _ _ h ?_
  intro s hs point hpoint
  dsimp only
  split
  · next hkind =>
      refine List.foldlRecOn (motive := fun s : TaintState => s.tags.All P) _ _ hs ?_
      intro s' hs' record hrecord
      unfold seedLoad
      split
      · exact hs'
      next o hop =>
        split
        · exact hs'
        next address haddress =>
          have hload : o.opcode = .load := by
            by_contra hne
            rw [if_neg hne] at haddress
            cases haddress
          rw [if_pos hload] at haddress
          dsimp only
          split
          · exact hs'
          next hinside =>
            rw [not_or, Nat.not_lt, Nat.not_le] at hinside
            refine List.foldlRecOn
              (motive := fun s : TaintState => s.tags.All P) _ _ hs' ?_
            intro s'' hs'' result hresult
            rw [mem_filter] at hresult
            apply law.addTag _ _ hs''
            exact hloads point hpoint address result
              { kind := hkind
                found := ⟨record, hrecord, o, hop, hload, haddress, hresult.1⟩
                scalar := hresult.2
                above := hinside.1
                below := hinside.2 }
  · exact hs

/-- What holds of every seed, and is kept by every rule and every load that is come to,
holds of every tag in the end. -/
theorem spreadTaint_all (law : TagLaw P) {fuel : Nat} {s : FlowSession}
    {m : XairModule} {w : Watch} {o : FlowOptions} {r : DirectedFlowResult} {t : TaintRun}
    (hsources : ∀ point ∈ r.sources.zipIdx, P (sourceTag point.2 point.1))
    (hseeds : ∀ point ∈ r.sources.zipIdx, ∀ address result,
      SeededLoad m (collectOperations s.cfg m) point.1 address result →
        P (memoryTag m point.2 point.1.selector address.toNat result))
    (hloads : ∀ step ∈ spreadSteps fuel s m w o r, LoadKeeps P (taintContext s m o r.sources) step)
    (hrun : spreadTaint fuel s m w o r = some t) : t.call.taint.tags.All P := by
  refine taintLoop_keeps (Q := Tags.All P) ?_ ?_ ?_ hrun
  · intro step hmem h
    exact law.propagateOperation (hloads step hmem) h
  · intro s h
    exact law.propagateBlockArguments h
  apply law.seedAbsoluteMemory _ hseeds
  apply law.seedSources _ hsources
  intro v t ht
  cases ht

end Airece
