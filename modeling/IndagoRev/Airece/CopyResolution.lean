import IndagoRev.Airece.CompactRecovery
import IndagoRev.Airece.XairExecution

/-!
# Copies of block parameters

`resolve_copy` goes from a parameter to the one argument that the function's own
transfers pass for it.  What a caller passes, or a block outside of the function, is
no transfer of the function: at the blocks where it is entered, a parameter may have
another value than the argument of the jumps back.
-/

namespace Airece

open StdText FlowPaths List

section Follow

variable {α : Type} [DecidableEq α] (g : α → α)

/-- Goes on from a value until one is its own image or was seen before. -/
def follow : Nat → List α → α → α
  | 0, _, v => v
  | n + 1, seen, v => if v ∈ seen then v else if g v = v then v else follow n (v :: seen) (g v)

variable {g}

/-- Where the values come back to a seen one, `follow` stops at the first such. -/
theorem follow_hits {k : Nat} : ∀ {n : Nat} {seen : List α} {v : α}, k < n → g^[k] v ∈ seen →
    (∀ j < k, g^[j] v ∉ seen) → follow g n seen v = g^[k] v := by
  induction k with
  | zero =>
    intro n seen v hn hmem _
    obtain ⟨m, rfl⟩ := Nat.exists_eq_succ_of_ne_zero (Nat.pos_iff_ne_zero.mp hn)
    have hv : v ∈ seen := hmem
    rw [follow, if_pos hv]
    rfl
  | succ k ih =>
    intro n seen v hn hmem hfirst
    obtain ⟨m, rfl⟩ := Nat.exists_eq_succ_of_ne_zero (by omega : n ≠ 0)
    have hv : v ∉ seen := hfirst 0 (Nat.succ_pos k)
    have hmoves : g v ≠ v := by
      intro hfixed
      rw [Function.iterate_fixed hfixed] at hmem
      exact hv hmem
    rw [follow, if_neg hv, if_neg hmoves, Function.iterate_succ_apply]
    refine ih (Nat.lt_of_succ_lt_succ hn) (mem_cons_of_mem v hmem) ?_
    intro j hj hseen
    rcases mem_cons.mp hseen with hback | hseen
    · -- the values would be back at the first one, and reach the seen one earlier
      have hsum : k - j + (j + 1) = k + 1 := by omega
      have hearlier : g^[k + 1] v = g^[k - j] v := by
        rw [← hsum, Function.iterate_add_apply, Function.iterate_succ_apply, hback]
      rw [hearlier] at hmem
      exact hfirst (k - j) (by omega) hmem
    · exact hfirst (j + 1) (by omega) hseen

omit [DecidableEq α] in
/-- The values before the first seen one are not more than there are values that move. -/
theorem hits_le {keys seen : List α} {v : α} {k : Nat} (hkeys : ∀ x, g x ≠ x → x ∈ keys)
    (hnodup : seen.Nodup) (hsub : ∀ x ∈ seen, x ∈ keys) (hmem : g^[k] v ∈ seen)
    (hfirst : ∀ j < k, g^[j] v ∉ seen) : k + seen.length ≤ keys.length := by
  have hdistinct : ((List.range k).map fun j => g^[j] v).Nodup := by
    apply List.Nodup.map_on ?_ nodup_range
    have hlt : ∀ i j, i < j → j < k → g^[i] v ≠ g^[j] v := by
      intro i j hij hj heq
      have hsum : k - j + j = k := by omega
      have hearlier : g^[k] v = g^[k - j + i] v := by
        rw [← hsum, Function.iterate_add_apply, ← heq, ← Function.iterate_add_apply]
        congr 1
        congr 1
        omega
      rw [hearlier] at hmem
      exact hfirst (k - j + i) (by omega) hmem
    intro i hi j hj heq
    rw [mem_range] at hi hj
    rcases Nat.lt_trichotomy i j with hlt' | rfl | hlt'
    · exact absurd heq (hlt i j hlt' hj)
    · rfl
    · exact absurd heq.symm (hlt j i hlt' hi)
  have hall : (((List.range k).map fun j => g^[j] v) ++ seen).Nodup := by
    refine nodup_append.mpr ⟨hdistinct, hnodup, ?_⟩
    rintro a ha b hb rfl
    obtain ⟨j, hj, rfl⟩ := mem_map.mp ha
    exact hfirst j (mem_range.mp hj) hb
  have hsubset : (((List.range k).map fun j => g^[j] v) ++ seen) ⊆ keys := by
    intro x hx
    rcases mem_append.mp hx with hx | hx
    · obtain ⟨j, hj, rfl⟩ := mem_map.mp hx
      rw [mem_range] at hj
      refine hkeys _ fun hfixed => hfirst j hj ?_
      have hsum : k - j + j = k := by omega
      rwa [← hsum, Function.iterate_add_apply, Function.iterate_fixed hfixed] at hmem
    · exact hsub x hx
  have hlength := (subperm_of_subset hall hsubset).length_le
  simpa using hlength

/-- What holds of the values seen so far, and goes on to the image of those that are not
on a cycle, holds of the value that `follow` stops at. -/
theorem follow_rule {keys : List α} {Good : α → Prop} (hkeys : ∀ x, g x ≠ x → x ∈ keys)
    (hstep : ∀ x, g x ≠ x → Good x → (∃ k, g^[k] (g x) = x) ∨ Good (g x)) :
    ∀ (n : Nat) (seen : List α) (v : α), n + seen.length = keys.length + 2 → seen.Nodup →
      (∀ x ∈ seen, x ∈ keys) → (∀ x ∈ v :: seen, Good x) → Good (follow g n seen v) := by
  intro n
  induction n with
  | zero => exact fun _ v _ _ _ hgood => hgood v mem_cons_self
  | succ n ih =>
    intro seen v hfuel hnodup hsub hgood
    rw [follow]
    split
    · exact hgood v mem_cons_self
    next hv =>
      split
      · exact hgood v mem_cons_self
      next hmoves =>
        have hnodup' : (v :: seen).Nodup := nodup_cons.mpr ⟨hv, hnodup⟩
        have hsub' : ∀ x ∈ v :: seen, x ∈ keys := by
          intro x hx
          rcases mem_cons.mp hx with rfl | hx
          · exact hkeys x hmoves
          · exact hsub x hx
        rcases hstep v hmoves (hgood v mem_cons_self) with ⟨k, hcycle⟩ | hnext
        · -- the cycle leads back to a seen value
          have hback : ∃ k, g^[k] (g v) ∈ v :: seen := ⟨k, by simp [hcycle]⟩
          have hfirst : ∀ j < Nat.find hback, g^[j] (g v) ∉ v :: seen :=
            fun j hj => Nat.find_min hback hj
          have hle := hits_le hkeys hnodup' hsub' (Nat.find_spec hback) hfirst
          rw [length_cons] at hle
          rw [follow_hits (by omega) (Nat.find_spec hback) hfirst]
          exact hgood _ (Nat.find_spec hback)
        · refine ih (v :: seen) (g v) (by simp only [length_cons]; omega) hnodup' hsub' ?_
          intro x hx
          rcases mem_cons.mp hx with rfl | hx
          · exact hnext
          · exact hgood x hx

theorem follow_reaches {r : α → α → Prop} (hr : ∀ x, g x ≠ x → r x (g x)) :
    ∀ (n : Nat) (seen : List α) (v : α), Relation.ReflTransGen r v (follow g n seen v) := by
  intro n
  induction n with
  | zero => exact fun _ _ => .refl
  | succ n ih =>
    intro seen v
    rw [follow]
    split
    · exact .refl
    · split
      · exact .refl
      · next hmoves => exact .head (hr v hmoves) (ih (v :: seen) (g v))

end Follow

namespace CompactFunction

variable (f : CompactFunction)

/-- The code of the function. -/
def code : Code where
  module := f.module
  inside b := f.blocks.contains b
  isEntry := f.isEntry

/-- What is recorded about one parameter: its source, and whether there are two. -/
def Copies.about (c : Copies) (p : ValueId) : Option ValueId × Bool := (c.source p, c.conflicting p)

/-- `record_block_arguments` for one parameter. -/
def recordOne (s : Option ValueId × Bool) (a : ValueId) : Option ValueId × Bool :=
  if s.2 then s
  else
    match s.1 with
    | none => (some a, false)
    | some existing => if existing = a then s else (none, true)

theorem Copies.about_record (c : Copies) (binding : ValueId × ValueId) (p : ValueId) :
    (c.record binding).about p =
      if binding.1 = p then recordOne (c.about p) binding.2 else c.about p := by
  by_cases hp : binding.1 = p
  · subst hp
    rw [if_pos rfl]
    cases hconflict : c.conflicting binding.1 with
    | true => simp [Copies.record, Copies.about, recordOne, hconflict]
    | false =>
      cases hsource : c.source binding.1 with
      | none => simp [Copies.record, Copies.about, recordOne, hconflict, hsource]
      | some existing =>
        by_cases heq : existing = binding.2
        · simp [Copies.record, Copies.about, recordOne, hconflict, hsource, heq]
        · simp [Copies.record, Copies.about, recordOne, hconflict, hsource, heq]
  · rw [if_neg hp]
    have hne : p ≠ binding.1 := Ne.symm hp
    unfold Copies.record
    split
    · rfl
    split
    · simp [Copies.about, Function.update_of_ne hne]
    · split
      · rfl
      · simp [Copies.about, Function.update_of_ne hne]

/-- What is recorded about a parameter depends on its own arguments. -/
theorem Copies.about_foldl (bindings : List (ValueId × ValueId)) (p : ValueId) (c : Copies) :
    (bindings.foldl Copies.record c).about p =
      ((bindings.filter (fun b => b.1 == p)).map (·.2)).foldl recordOne (c.about p) := by
  induction bindings generalizing c with
  | nil => rfl
  | cons binding rest ih =>
    rw [foldl_cons, ih, Copies.about_record]
    by_cases hp : binding.1 = p
    · simp [hp]
    · simp [hp]

theorem foldl_recordOne_conflict (args : List ValueId) :
    args.foldl recordOne (none, true) = (none, true) := by
  induction args with
  | nil => rfl
  | cons a rest ih => simpa [recordOne] using ih

theorem foldl_recordOne_known {args : List ValueId} {existing a : ValueId}
    (h : (args.foldl recordOne (some existing, false)).1 = some a) :
    existing = a ∧ ∀ x ∈ args, x = a := by
  induction args with
  | nil => simpa using h
  | cons x rest ih =>
    by_cases heq : existing = x
    · subst heq
      have hrest := ih (by simpa [recordOne] using h)
      refine ⟨hrest.1, ?_⟩
      intro y hy
      rcases mem_cons.mp hy with rfl | hy
      · exact hrest.1
      · exact hrest.2 y hy
    · rw [foldl_cons, recordOne] at h
      simp [heq, foldl_recordOne_conflict] at h

section

variable {p a : ValueId}

/-- **Copies.**  A copy source is the only argument that any block of the function
passes for its parameter. -/
theorem copySource_spec (h : f.copySource p = some a) :
    (p, a) ∈ f.blockArguments ∧ ∀ x, (p, x) ∈ f.blockArguments → x = a := by
  have hmem : ∀ x, (p, x) ∈ f.blockArguments ↔
      x ∈ (f.blockArguments.filter (fun b => b.1 == p)).map (·.2) := by
    intro x
    simp
  have habout : (((f.blockArguments.filter (fun b => b.1 == p)).map (·.2)).foldl recordOne
      (none, false)).1 = some a := by
    have hfold := Copies.about_foldl f.blockArguments p {}
    rw [← h]
    exact (congrArg Prod.fst hfold).symm
  simp only [hmem]
  generalize (f.blockArguments.filter (fun b => b.1 == p)).map (·.2) = args at habout
  cases args with
  | nil => simp at habout
  | cons first rest =>
    obtain ⟨rfl, hrest⟩ := foldl_recordOne_known (by simpa [recordOne] using habout)
    refine ⟨mem_cons_self, ?_⟩
    intro x hx
    rcases mem_cons.mp hx with rfl | hx
    · rfl
    · exact hrest x hx

/-- The block arguments of the function are what its transfers pass. -/
theorem mem_blockArguments : (p, a) ∈ f.blockArguments ↔ ∃ b t args, f.code.Transfer b t args ∧
      (p, a) ∈ (f.module.blockParams t).zip args := by
  simp only [blockArguments, mem_flatMap, argumentsOf]
  constructor
  · rintro ⟨b, hb, hmem⟩
    split at hmem
    · next terminator hterm =>
        rw [mem_flatMap] at hmem
        obtain ⟨⟨t, args⟩, htarget, hbinding⟩ := hmem
        unfold bindings at hbinding
        split at hbinding
        · next hinside =>
            exact ⟨b, t, args, ⟨by simpa [code] using hb, hinside, terminator, hterm, htarget⟩,
              hbinding⟩
        · cases hbinding
    · cases hmem
  · rintro ⟨b, t, args, ⟨hb, hinside, terminator, hterm, htarget⟩, hpair⟩
    refine ⟨b, by simpa [code] using hb, ?_⟩
    have hterm' : f.module.terminator b = some terminator := hterm
    simp only [hterm', mem_flatMap]
    refine ⟨(t, args), htarget, ?_⟩
    have hcontains : f.blocks.contains t = true := hinside
    simp only [bindings, hcontains, if_true]
    exact hpair

end

variable (entered : BlockId → Bool)

/-- The code of the function, entered at its first block or, from blocks that are not its
own, anywhere else. -/
def codeFrom : Code := { f.code with isEntry := entered }

/-- A transfer of the function passes the argument for the parameter. -/
def Passed (p a : ValueId) : Prop :=
  ∃ b t args, f.code.Transfer b t args ∧ (p, a) ∈ (f.module.blockParams t).zip args

/-- The function's transfers pass one argument for the parameter. -/
def Single (p a : ValueId) : Prop := f.Passed p a ∧ ∀ x, f.Passed p x → x = a

/-- Wherever a parameter of the function may be used, it is what `resolve_copy` makes
of it. -/
def CopiesSound : Prop :=
  ∀ s, (f.codeFrom entered).Comes s → ∀ b p, p ∈ f.module.blockParams b →
    (f.codeFrom entered).Available s.block s.position p → f.resolveCopy p ≠ p →
      (f.codeFrom entered).Available s.block s.position (f.resolveCopy p) ∧
        s.env.word (f.resolveCopy p) = s.env.word p ∧
        s.env.memory (f.resolveCopy p) = s.env.memory p

/-- A parameter of a block that is entered from outside has no single argument, or the
single arguments lead from it back to itself. -/
def EntriesReturn : Prop :=
  ∀ b, (f.codeFrom entered).Entry b → ∀ p ∈ f.module.blockParams b, ∀ a, f.Single p a →
    Relation.ReflTransGen f.Single a p

theorem foldl_recordOne_same {args : List ValueId} {a : ValueId} (h : ∀ x ∈ args, x = a) :
    args.foldl recordOne (some a, false) = (some a, false) := by
  induction args with
  | nil => rfl
  | cons x rest ih =>
    have hrest := ih fun y hy => h y (mem_cons_of_mem x hy)
    rw [foldl_cons, h x mem_cons_self]
    simpa [recordOne] using hrest

/-- **Copies.**  The copy source of a parameter is its single argument. -/
theorem copySource_iff {p a : ValueId} : f.copySource p = some a ↔ f.Single p a := by
  constructor
  · intro h
    obtain ⟨hmem, hall⟩ := f.copySource_spec h
    exact ⟨f.mem_blockArguments.mp hmem, fun x hx => hall x (f.mem_blockArguments.mpr hx)⟩
  rintro ⟨hpassed, hall⟩
  have hargs : ∀ x, x ∈ (f.blockArguments.filter (fun b => b.1 == p)).map (·.2) ↔
      f.Passed p x := by
    intro x
    rw [Passed, ← f.mem_blockArguments]
    simp
  have hfold := congrArg Prod.fst (Copies.about_foldl f.blockArguments p {})
  have hhead : (((f.blockArguments.filter (fun b => b.1 == p)).map (·.2)).foldl recordOne
      (none, false)).1 = some a := by
    generalize (f.blockArguments.filter (fun b => b.1 == p)).map (·.2) = args at hargs
    cases args with
    | nil => cases (hargs a).mpr hpassed
    | cons first rest =>
      have hfirst := hall first ((hargs first).mp mem_cons_self)
      subst hfirst
      rw [foldl_cons, show recordOne (none, false) first = (some first, false) from rfl,
        foldl_recordOne_same fun x hx => hall x ((hargs x).mp (mem_cons_of_mem first hx))]
  exact hfold.trans hhead

variable (v : ValueId)

/-- One step of the loop. -/
def copyOf : ValueId := (f.copySource v).getD v

theorem copyOf_single {p a : ValueId} (h : f.Single p a) : f.copyOf p = a := by
  simp [copyOf, f.copySource_iff.mpr h]

theorem copyOf_moves (h : f.copyOf v ≠ v) : f.Single v (f.copyOf v) := by
  cases hsource : f.copySource v with
  | none => simp [copyOf, hsource] at h
  | some a =>
    have hcopy : f.copyOf v = a := by simp [copyOf, hsource]
    rw [hcopy]
    exact f.copySource_iff.mp hsource

theorem resolveCopyFrom_follow (n : Nat) (seen : List ValueId) (v : ValueId) :
    f.resolveCopyFrom n seen v = follow f.copyOf n seen v := by
  induction n generalizing seen v with
  | zero => rfl
  | succ n ih =>
    unfold resolveCopyFrom follow
    by_cases hseen : v ∈ seen
    · simp [hseen]
    cases hsource : f.copySource v with
    | none => simp [hseen, copyOf, hsource]
    | some a =>
      by_cases ha : a = v
      · simp [hseen, copyOf, hsource, ha]
      · simp [hseen, copyOf, hsource, ha, ih]

theorem param_of_single {p a : ValueId} (h : f.Single p a) : ∃ t, p ∈ f.module.blockParams t := by
  obtain ⟨_, t, _, _, hpair⟩ := h.1
  exact ⟨t, (of_mem_zip hpair).1⟩

theorem param_of_resolveCopy (h : f.resolveCopy v ≠ v) : ∃ b, v ∈ f.module.blockParams b := by
  have hmoves : f.copyOf v ≠ v := by
    intro hfixed
    rw [resolveCopy, f.resolveCopyFrom_follow, follow, if_neg not_mem_nil, if_pos hfixed] at h
    exact h rfl
  exact f.param_of_single (f.copyOf_moves v hmoves)

/-- The values with a copy source are parameters that arguments are passed for. -/
theorem copyOf_keys (h : f.copyOf v ≠ v) : v ∈ f.blockArguments.map Prod.fst := by
  obtain ⟨hpassed, _⟩ := f.copyOf_moves v h
  exact mem_map.mpr ⟨_, f.mem_blockArguments.mpr hpassed, rfl⟩

variable {f} in
theorem iterate_of_single {a b : ValueId} (h : Relation.ReflTransGen f.Single a b) :
    ∃ k, (f.copyOf)^[k] a = b := by
  induction h using Relation.ReflTransGen.head_induction_on with
  | refl => exact ⟨0, rfl⟩
  | head hsingle _ ih =>
    obtain ⟨k, hk⟩ := ih
    refine ⟨k + 1, ?_⟩
    rw [Function.iterate_succ_apply, f.copyOf_single hsingle]
    exact hk

/-- With a parameter of a block that is never entered from outside, its single argument
is what it was when the block was entered last. -/
theorem copied_of_single {p a t : ValueId} (hparam : p ∈ f.module.blockParams t)
    (hentry : ¬ (f.codeFrom entered).Entry t) (h : f.Single p a) :
    (f.codeFrom entered).Copied p a :=
  ⟨t, hparam, hentry, fun b args x htransfer hx => h.2 x ⟨b, t, args, htransfer, hx⟩⟩

/-- A value is available at a place, and the same there as another one. -/
structure SameAt (c : Code) (s : Code.Place) (p v : ValueId) : Prop where
  available : c.Available s.block s.position v
  word : s.env.word v = s.env.word p
  memory : s.env.memory v = s.env.memory p

/-- **Resolution.**  Where single arguments lead from every parameter of an entered block
back to it, `resolve_copy` leads to an available value that is the same now. -/
theorem copiesSound_of_return (hssa : (f.codeFrom entered).StrictSSA)
    (hreturn : f.EntriesReturn entered) : f.CopiesSound entered := by
  intro s hcomes b p _ hp _
  have hstep : ∀ v, f.copyOf v ≠ v → SameAt (f.codeFrom entered) s p v →
      (∃ k, (f.copyOf)^[k] (f.copyOf v) = v) ∨
        SameAt (f.codeFrom entered) s p (f.copyOf v) := by
    intro v hmoves hsame
    have hsingle := f.copyOf_moves v hmoves
    obtain ⟨t, hparam⟩ := f.param_of_single hsingle
    by_cases hentry : (f.codeFrom entered).Entry t
    · exact Or.inl (iterate_of_single (hreturn t hentry v hparam _ hsingle))
    have hcopied := f.copied_of_single entered hparam hentry hsingle
    obtain ⟨hword, hmemory⟩ := (hssa.holds hcomes).copied hsame.available hcopied
    exact Or.inr ⟨hssa.copied_available hsame.available hcopied,
      hword.symm.trans hsame.word, hmemory.symm.trans hsame.memory⟩
  have hresolved : SameAt (f.codeFrom entered) s p (f.resolveCopy p) := by
    rw [resolveCopy, f.resolveCopyFrom_follow]
    refine follow_rule f.copyOf_keys hstep _ [] p (by simp) nodup_nil (by simp) ?_
    intro v hv
    rw [mem_singleton.mp hv]
    exact ⟨hp, rfl, rfl⟩
  exact ⟨hresolved.available, hresolved.word, hresolved.memory⟩

/-- **Callers.**  Where the copies are right, no parameter of an entered block is taken for
another value: a caller may pass what it likes. -/
theorem return_of_copiesSound (h : f.CopiesSound entered) : f.EntriesReturn entered := by
  intro b hentry p hp a hsingle
  have hresolve : f.resolveCopy p = p := by
    by_contra hne
    -- a caller that passes one word for the parameter where there is another one elsewhere
    have hstart := h ⟨b, 0, ⟨fun v => if v = p then ⟨1, 0⟩ else ⟨1, 1⟩, fun _ _ => 0⟩⟩
      (.start hentry) b p hp (Or.inr (Or.inl hp)) hne
    have hword := hstart.2.1
    simp [hne] at hword
  by_cases ha : a = p
  · rw [ha]
  have hcopy := f.copyOf_single hsingle
  have hpath : Relation.ReflTransGen f.Single a
      (follow f.copyOf (f.blockArguments.length + 1) [p] a) :=
    follow_reaches f.copyOf_moves _ [p] a
  rw [resolveCopy, f.resolveCopyFrom_follow, follow, if_neg not_mem_nil, hcopy, if_neg ha]
    at hresolve
  rwa [hresolve] at hpath

end CompactFunction

/-- A loop at the entry: the jump back passes `first` for `p`, and `q` for itself. -/
def loopWith (first : ValueId) : CompactFunction where
  module :=
    { values :=
        [{ type := { kind := .int, bits := 64 }, name := "p" },
         { type := { kind := .int, bits := 64 }, name := "q" },
         { type := { kind := .int, bits := 64 }, definition := some 0 }]
      ops := [{ opcode := .add, inputs := [0, 1], results := [2] }]
      blocks :=
        [{ ops := [0], params := [0, 1],
           terminator := { kind := .jump, trueTarget := 0, trueArgs := [first, 1] } }]
      opcodeName := fun _ => "op" }
  blocks := [0]
  isEntry b := b == 0
  variableNames _ := none
  returnValues _ := false

/-- The jump back passes `q` for both parameters. -/
def entryLoop : CompactFunction := loopWith 1

/-- The entry of the function. -/
def loopEntered (b : BlockId) : Bool := b == 0

section
variable {first : ValueId}

theorem loop_at {b : BlockId} {k : Nat} {id : OpId} {o : XairOp}
    (h : ((loopWith first).codeFrom loopEntered).At b k id o) :
    b = 0 ∧ k = 0 ∧ id = 0 ∧ o = { opcode := .add, inputs := [0, 1], results := [2] } := by
  obtain ⟨hid, hop⟩ := h
  match b, k, hid with
  | 0, 0, hid =>
    cases hid
    cases hop
    exact ⟨rfl, rfl, rfl, rfl⟩
  | 0, k + 1, hid => cases hid
  | b + 1, k, hid => cases hid

theorem loop_transfer {b t : BlockId} {args : List ValueId}
    (h : ((loopWith first).codeFrom loopEntered).Transfer b t args) :
    b = 0 ∧ t = 0 ∧ args = [first, 1] := by
  obtain ⟨hb, ht, terminator, hterm, htarget⟩ := h
  have hzero : b = 0 := by
    simpa [CompactFunction.codeFrom, CompactFunction.code, loopWith] using hb
  have htzero : t = 0 := by
    simpa [CompactFunction.codeFrom, CompactFunction.code, loopWith] using ht
  subst hzero htzero
  cases hterm
  exact ⟨rfl, rfl, by simpa [Terminator.targets, invalidId] using htarget⟩

theorem loop_param {b : BlockId} {p : ValueId}
    (h : p ∈ (loopWith first).module.blockParams b) : b = 0 ∧ (p = 0 ∨ p = 1) := by
  match b, h with
  | 0, h => exact ⟨rfl, by simpa [XairModule.blockParams, loopWith] using h⟩
  | b + 1, h => cases h

theorem loop_strictSSA (hfirst : first = 0 ∨ first = 1) :
    ((loopWith first).codeFrom loopEntered).StrictSSA where
  definition := by
    intro b k id o r hat hr
    obtain ⟨-, -, rfl, rfl⟩ := loop_at hat
    rw [mem_singleton.mp hr]
    rfl
  parameter := by
    intro b p hp
    obtain ⟨-, rfl | rfl⟩ := loop_param hp <;> rfl
  operation_place := by
    intro b b' k k' id h h'
    have hplace : ∀ {b k}, ((loopWith first).module.blockOps b)[k]? = some id → b = 0 ∧ k = 0 := by
      intro b k h
      match b, k, h with
      | 0, 0, _ => exact ⟨rfl, rfl⟩
      | 0, k + 1, h => cases h
      | b + 1, k, h => cases h
    obtain ⟨rfl, rfl⟩ := hplace h
    obtain ⟨rfl, rfl⟩ := hplace h'
    exact ⟨rfl, rfl⟩
  parameter_place := by
    intro b b' p h h'
    rw [(loop_param h).1, (loop_param h').1]
  inputs := by
    intro b k id o v _ hat hv
    obtain ⟨rfl, -, -, rfl⟩ := loop_at hat
    exact Or.inr (Or.inl hv)
  arguments := by
    intro b t args v h hv
    obtain ⟨rfl, rfl, rfl⟩ := loop_transfer h
    refine Or.inr (Or.inl ?_)
    rcases hfirst with rfl | rfl
    all_goals
      revert v
      decide
  arity := by
    intro b t args h
    obtain ⟨rfl, rfl, rfl⟩ := loop_transfer h
    rfl

end

/-- A caller passes 1 for `p` and 2 for `q`: the sum uses `p`, which is taken for `q`. -/
theorem entry_argument_lost : (entryLoop.codeFrom loopEntered).StrictSSA ∧
    ∃ s : Code.Place, (entryLoop.codeFrom loopEntered).Comes s ∧
      (∃ id o, (entryLoop.codeFrom loopEntered).At s.block s.position id o ∧ 0 ∈ o.inputs) ∧
      entryLoop.resolveCopy 0 = 1 ∧
      (entryLoop.codeFrom loopEntered).Available s.block s.position 1 ∧
      s.env.word 1 ≠ s.env.word 0 := by
  refine ⟨loop_strictSSA (Or.inr rfl), ⟨0, 0, ⟨fun v => if v = 0 then ⟨64, 1⟩ else ⟨64, 2⟩, fun _ _ => 0⟩⟩,
    .start ⟨rfl, rfl⟩, ⟨0, _, ⟨rfl, rfl⟩, mem_cons_self⟩, rfl, Or.inr (Or.inl ?_), ?_⟩
  · decide
  · decide

/-- For a function in strict SSA form, the copies of `resolve_copy` are right exactly
where the single argument of a parameter at which the function is entered leads back to
the parameter. -/
theorem resolveCopy_sound_iff {f : CompactFunction} {entered : BlockId → Bool}
    (hssa : (f.codeFrom entered).StrictSSA) : f.CopiesSound entered ↔ f.EntriesReturn entered :=
  ⟨f.return_of_copiesSound entered, f.copiesSound_of_return entered hssa⟩

/-- The copies are wrong in the loop that passes `q` for both parameters, and right in the one
that passes each of them for itself. -/
theorem resolveCopy_sound_iff_loop :
    ¬ entryLoop.CopiesSound loopEntered ∧ (loopWith 0).CopiesSound loopEntered := by
  constructor
  · intro hsound
    have hreturn := (resolveCopy_sound_iff (loop_strictSSA (Or.inr rfl))).mp hsound
    have hsingle : entryLoop.Single 0 1 := entryLoop.copySource_iff.mp rfl
    obtain ⟨k, hk⟩ := CompactFunction.iterate_of_single
      (hreturn 0 ⟨rfl, rfl⟩ 0 mem_cons_self 1 hsingle)
    have hfixed : (loopWith 1).copyOf 1 = 1 := rfl
    rw [Function.iterate_fixed hfixed] at hk
    cases hk
  · refine (resolveCopy_sound_iff (loop_strictSSA (Or.inl rfl))).mpr ?_
    intro b _ p hp a hsingle
    have hself : (loopWith 0).copySource p = some p := by
      obtain ⟨_, rfl | rfl⟩ := loop_param hp <;> rfl
    rw [(loopWith 0).copySource_iff.mpr hsingle] at hself
    rw [Option.some.inj hself]

end Airece
