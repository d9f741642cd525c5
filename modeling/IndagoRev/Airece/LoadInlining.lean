import IndagoRev.Airece.RenderInvariant
import IndagoRev.Airece.CompactRecovery

/-!
# Loads inside statements

A statement shows a load inside the text of a value that it prints.  The renderer
checks the way from such a load to the root operation of the value; the way from
the root operation to the statement is nobody's concern.
-/

namespace Airece

open StdText List

section
variable (m : XairModule) {b : BlockId}

theorem getElem?_of_location {id : OpId} {q : Nat}
    (h : m.location id = some (b, q)) : (m.blockOps b)[q]? = some id := by
  unfold XairModule.location at h
  rw [Option.map_eq_some_iff] at h
  obtain ⟨⟨id', b', q'⟩, hlast, heq⟩ := h
  cases heq
  have hmem := mem_of_getLast? hlast
  rw [mem_filter] at hmem
  obtain ⟨hplace, hid⟩ := hmem
  have hsame : id' = id := by simpa using hid
  subst hsame
  simp only [XairModule.places, mem_flatMap, mem_map, Prod.exists, Prod.mk.injEq] at hplace
  obtain ⟨block, b', hblock, id'', q', hop, rfl, rfl, rfl⟩ := hplace
  rw [mem_zipIdx_iff_getElem?] at hblock hop
  simp only at hblock hop
  simp [XairModule.blockOps, hblock, hop]

variable {first last : Nat}

theorem mem_between {id : OpId} : id ∈ m.between b first last ↔
      ∃ x, first < x ∧ x < last ∧ (m.blockOps b)[x]? = some id := by
  unfold XairModule.between
  rw [mem_iff_getElem?]
  constructor
  · rintro ⟨i, hi⟩
    rw [getElem?_drop, getElem?_take] at hi
    split at hi
    · next hlt => exact ⟨first + 1 + i, by omega, hlt, hi⟩
    · cases hi
  · rintro ⟨x, hfirst, hlast, hx⟩
    refine ⟨x - (first + 1), ?_⟩
    have hsum : first + 1 + (x - (first + 1)) = x := by omega
    rw [getElem?_drop, hsum, getElem?_take, if_pos hlast, hx]

/-- No operation strictly between two positions of a block may change what a load
reads. -/
def XairModule.Untouched (b : BlockId) (first last : Nat) : Prop :=
  ∀ id ∈ m.between b first last, m.clobbersLoad id = false

theorem untouched_iff :
    m.Untouched b first last ↔ ∀ x id, first < x → x < last → (m.blockOps b)[x]? = some id →
      m.clobbersLoad id = false := by
  simp only [XairModule.Untouched, mem_between]
  constructor
  · intro h x id hfirst hlast hx
    exact h id ⟨x, hfirst, hlast, hx⟩
  · rintro h id ⟨x, hfirst, hlast, hx⟩
    exact h x id hfirst hlast hx

/-- What `load_is_safe` checks: the load is the horizon, or both are in one block,
in this order, and nothing between them may change what it reads. -/
theorem untouched_of_loadIsSafe {load horizon : OpId} (h : m.loadIsSafe load horizon = true) :
    load = horizon ∨ ∃ b q r, m.location load = some (b, q) ∧ m.location horizon = some (b, r) ∧
      q < r ∧ m.Untouched b q r := by
  unfold XairModule.loadIsSafe at h
  split at h
  · next heq => exact Or.inl heq
  refine Or.inr ?_
  split at h
  · next b q b' r hload hhorizon =>
      split at h
      · cases h
      next hplaces =>
        have hblock : b' = b := by
          by_contra hne
          exact hplaces (Or.inl (Ne.symm hne))
        have horder : q < r := by
          by_contra hle
          exact hplaces (Or.inr (Nat.le_of_not_lt hle))
        subst hblock
        refine ⟨b', q, r, hload, hhorizon, horder, ?_⟩
        split at h
        · cases h
        · rw [Bool.and_eq_true, all_eq_true] at h
          intro id hid
          simpa using h.2 id hid
  · cases h

end

mutual
/-- The loads that a rendering shows. -/
def Shown.loads : Shown → List OpId
  | .leaf _ _ | .word _ => []
  | .binary _ l r => l.loads ++ r.loads
  | .negated e | .zeroTest e | .cast _ _ _ e => e.loads
  | .load id _ address => id :: address.loads
  | .select c a b => c.loads ++ (a.loads ++ b.loads)
  | .function _ args => argumentLoads args
  | .apply callee args => callee.loads ++ argumentLoads args

/-- The loads that arguments show. -/
def argumentLoads : List Shown → List OpId
  | [] => []
  | e :: rest => e.loads ++ argumentLoads rest
end

theorem mem_argumentLoads {id : OpId} {args : List Shown} :
    id ∈ argumentLoads args ↔ ∃ a ∈ args, id ∈ a.loads := by
  induction args with
  | nil => simp [argumentLoads]
  | cons a rest ih => simp [argumentLoads, ih]

/-- That every load is one of some set is kept by every form of text. -/
theorem shownClosed_loads (S : OpId → Prop) : ShownClosed (fun s => ∀ id ∈ s.loads, S id) where
  leaf _ _ := by simp [Shown.loads]
  word _ := by simp [Shown.loads]
  binary _ l r hl hr := by
    intro id hid
    rcases mem_append.mp hid with h | h
    · exact hl id h
    · exact hr id h
  negated _ he := he
  zeroTest _ he := he
  cast _ _ _ _ he := he
  select c a b hc ha hb := by
    intro id hid
    rcases mem_append.mp hid with h | h
    · exact hc id h
    · rcases mem_append.mp h with h | h
      · exact ha id h
      · exact hb id h
  function _ args hargs := by
    intro id hid
    obtain ⟨a, ha, hload⟩ := mem_argumentLoads.mp hid
    exact hargs a ha id hload
  apply callee args hcallee hargs := by
    intro id hid
    rcases mem_append.mp hid with h | h
    · exact hcallee id h
    · obtain ⟨a, ha, hload⟩ := mem_argumentLoads.mp h
      exact hargs a ha id hload

/-- **Shown loads.**  Every load that the rendering of a value shows is the root
operation of the value, or in its block before it with nothing between them that
may change what it reads. -/
theorem loads_renderRoot (ctx : RenderContext) {v : ValueId} {load : OpId}
    (h : load ∈ (renderRoot ctx v).1.loads) : ∃ root, ctx.module.valueDefinition v = some root ∧
      (load = root ∨ ∃ b q r, ctx.module.location load = some (b, q) ∧
        ctx.module.location root = some (b, r) ∧ q < r ∧ ctx.module.Untouched b q r) := by
  -- a value without a definition is shown by its name
  have hdefined : ∃ root, ctx.module.valueDefinition v = some root := by
    by_contra hnone
    have hdef : ctx.module.valueDefinition v = none := by
      cases hv : ctx.module.valueDefinition v with
      | none => rfl
      | some root => exact absurd ⟨root, hv⟩ hnone
    unfold renderRoot at h
    rw [renderValue, renderValueWith] at h
    simp only [hdef] at h
    split at h <;> simp [leaf, Shown.loads, argumentLoads] at h
  obtain ⟨root, hroot⟩ := hdefined
  refine ⟨root, hroot, ?_⟩
  refine renderRoot_closed (shownClosed_loads (fun id => id = root ∨ ∃ b q r,
    ctx.module.location id = some (b, q) ∧ ctx.module.location root = some (b, r) ∧ q < r ∧
      ctx.module.Untouched b q r)) ?_ ?_ load h
  · intro id o bits e hid _ _ he l hl
    rw [hroot] at hid
    cases hid
    rcases mem_cons.mp hl with rfl | hl
    · exact Or.inl rfl
    · exact he l hl
  · intro id bits e hsafe he l hl
    rw [hroot] at hsafe
    rcases mem_cons.mp hl with rfl | hl
    · exact untouched_of_loadIsSafe ctx.module hsafe
    · exact he l hl

namespace CompactFunction

variable (f : CompactFunction) (depth : Nat) (p : PrintedValue)

/-- The context in which a statement renders a value. -/
def statementContext : RenderContext :=
  { module := f.module, names := p.names, options := statementOptions depth }

/-- The loads that a statement shows inside a value that it prints.  A value with a
name is printed by its name.  A text that `max_characters` cuts stands for the
whole rendering. -/
def shownLoads : List OpId :=
  match p.names p.value with
  | some _ => []
  | none => (renderRoot (f.statementContext depth p) p.value).1.loads

/-- Every load that a statement shows inside a value is in the statement's block, and
nothing between them may change what it reads. -/
def LoadsStay : Prop :=
  ∀ load ∈ f.shownLoads depth p, ∃ q, f.module.location load = some (p.block, q) ∧
    f.module.Untouched p.block q p.position

/-- If a statement shows a load inside a value, then the operation that computes the
value is in the statement's block, nothing between the two may change what a load
reads, and neither may that operation itself if the load is another one. -/
def RootStays : Prop :=
  f.shownLoads depth p ≠ [] → ∃ root r, f.module.valueDefinition p.value = some root ∧
    f.module.location root = some (p.block, r) ∧ f.module.Untouched p.block r p.position ∧
    ((∃ load ∈ f.shownLoads depth p, load ≠ root) → r < p.position →
      f.module.clobbersLoad root = false)

/-- **One value.**  The loads inside a printed value stay what they were exactly
where its root operation does. -/
theorem loadsStay_iff_rootStays : f.LoadsStay depth p ↔ f.RootStays depth p := by
  have hshown : ∀ load ∈ f.shownLoads depth p, ∃ root,
      f.module.valueDefinition p.value = some root ∧
        (load = root ∨ ∃ b q r, f.module.location load = some (b, q) ∧
          f.module.location root = some (b, r) ∧ q < r ∧ f.module.Untouched b q r) := by
    intro load hload
    unfold shownLoads at hload
    split at hload
    · cases hload
    · exact loads_renderRoot _ hload
  constructor
  · intro hstay hne
    obtain ⟨first, hfirst⟩ := exists_mem_of_ne_nil _ hne
    obtain ⟨root, hroot, hplace⟩ := hshown first hfirst
    -- whichever load is looked at, it finds the root in the statement's block
    have hrootPlace : ∃ r, f.module.location root = some (p.block, r) ∧
        f.module.Untouched p.block r p.position := by
      obtain ⟨q, hq, huntouched⟩ := hstay first hfirst
      rcases hplace with rfl | ⟨b, q', r, hq', hr, horder, -⟩
      · exact ⟨q, hq, huntouched⟩
      rw [hq] at hq'
      cases hq'
      refine ⟨r, hr, ?_⟩
      rw [untouched_iff] at huntouched ⊢
      intro x id hx hlast
      exact huntouched x id (by omega) hlast
    obtain ⟨r, hr, huntouched⟩ := hrootPlace
    refine ⟨root, r, hroot, hr, huntouched, ?_⟩
    rintro ⟨load, hload, hother⟩ hbefore
    obtain ⟨root', hroot', hplace'⟩ := hshown load hload
    rw [hroot] at hroot'
    cases hroot'
    obtain ⟨q, hq, hq'⟩ := hstay load hload
    rcases hplace' with heq | ⟨b, q', r', hload', hr', horder, -⟩
    · exact absurd heq hother
    rw [hq] at hload'
    cases hload'
    rw [hr] at hr'
    cases hr'
    rw [untouched_iff] at hq'
    exact hq' r root horder hbefore (getElem?_of_location _ hr)
  · intro hstays load hload
    obtain ⟨root, r, hroot, hr, huntouched, hclobber⟩ :=
      hstays (ne_nil_of_mem hload)
    obtain ⟨root', hroot', hplace⟩ := hshown load hload
    rw [hroot] at hroot'
    cases hroot'
    by_cases hsame : load = root
    · subst hsame
      exact ⟨r, hr, huntouched⟩
    rcases hplace with heq | ⟨b, q, r', hq, hr', horder, hbefore⟩
    · exact absurd heq hsame
    rw [hr] at hr'
    cases hr'
    refine ⟨q, hq, ?_⟩
    rw [untouched_iff] at hbefore huntouched ⊢
    -- before the root, at it, and after it
    intro x id hx hlast hid
    rcases Nat.lt_trichotomy x r with hlt | heq | hgt
    · exact hbefore x id hx hlt hid
    · subst heq
      rw [getElem?_of_location _ hr] at hid
      cases hid
      exact hclobber ⟨load, hload, hsame⟩ hlast
    · exact huntouched x id hgt hlast hid

/-- **Loads inside statements.**  All loads that the statements of a function show
read what the operations read exactly if the root operation of every printed value
that shows a load stays in place. -/
theorem loadsStay_iff : (∀ p ∈ f.printedValues, f.LoadsStay depth p) ↔
      ∀ p ∈ f.printedValues, f.RootStays depth p := by
  constructor
  · intro h p hp
    exact (f.loadsStay_iff_rootStays depth p).mp (h p hp)
  · intro h p hp
    exact (f.loadsStay_iff_rootStays depth p).mpr (h p hp)

end CompactFunction

/-- A function that loads from `p`, stores zero there and passes what it loaded to
a call. -/
def overwrittenLoad : CompactFunction where
  module :=
    { values :=
        [{ type := { kind := .mem }, name := "mem" },
         { type := { kind := .addr, bits := 64 }, name := "p" },
         { type := { kind := .int, bits := 64 }, definition := some 0 },
         { type := { kind := .int, bits := 64 }, definition := some 1 },
         { type := { kind := .mem }, definition := some 2 },
         { type := { kind := .mem }, definition := some 3 }]
      ops :=
        [{ opcode := .load, inputs := [0, 1], results := [2] },
         { opcode := .constU64, results := [3] },
         { opcode := .store, inputs := [0, 1, 3], results := [4] },
         { opcode := .call, inputs := [4, 2], results := [5],
           attributes := { importName := "use" } }]
      blocks :=
        [{ ops := [0, 1, 2, 3], params := [0, 1], terminator := { kind := .ret } }]
      opcodeName := fun _ => "op" }
  blocks := [0]
  isEntry b := b == 0
  variableNames _ := none
  returnValues _ := false

/-- The call's argument. -/
def overwrittenArgument : CompactFunction.PrintedValue where
  block := 0
  position := 3
  value := 2
  names := overwrittenLoad.names

/-- The call after the store is printed with the argument `load64(p)`, and the store
stands between the two. -/
theorem overwrittenLoad_shown : overwrittenArgument ∈ overwrittenLoad.printedValues ∧
      overwrittenLoad.valueText 6 overwrittenArgument = "load64(p)" ∧
      ¬ overwrittenLoad.LoadsStay 6 overwrittenArgument := by
  have hprinted : overwrittenLoad.printedValues =
      [⟨0, 0, 1, overwrittenLoad.names⟩, ⟨0, 2, 1, overwrittenLoad.names⟩,
        ⟨0, 2, 3, overwrittenLoad.names⟩, overwrittenArgument] := rfl
  refine ⟨by simp [hprinted], by decide, ?_⟩
  intro h
  obtain ⟨q, hq, huntouched⟩ := h 0 (by decide)
  have hplace : overwrittenLoad.module.location 0 = some (0, 0) := by decide
  have hfirst : q = 0 := by
    rw [hplace] at hq
    cases hq
    rfl
  subst hfirst
  have hstore := huntouched 2 (by decide)
  revert hstore
  decide

end Airece
