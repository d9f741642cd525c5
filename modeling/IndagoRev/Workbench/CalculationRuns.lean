import IndagoRev.Workbench.CalculationMeaning

/-!
# What a calculation returns

An evaluation that stays within the budget has the value of its meaning, and has taken the
number of expressions off the budget.  From this it follows for the assignments of a round
and for all rounds, whose reserved variables no assignment can change.
-/

namespace Indago

open StdText JsonValues Transactions List

theorem lookup_cons_same (vars : CalculationVars) (key : Text) (v : UInt32) :
    List.lookup key ((key, v) :: vars) = some v := by
  rw [lookup_cons, beq_self_eq_true]

theorem lookup_cons_other (vars : CalculationVars) {key k : Text} (v : UInt32) (hk : k ≠ key) :
    List.lookup k ((key, v) :: vars) = List.lookup k vars := by
  have hno : (k == key) = false := by simpa using hk
  rw [lookup_cons, hno]

variable {vars : CalculationVars} {key : Text}

theorem lookup_orderedInsert (v : UInt32) (h : ∀ f ∈ vars, f.1 ≠ key) (k : Text) :
    (vars.orderedInsert (fun f g => f.1 ≤ g.1) (key, v)).lookup k =
      if k = key then some v else vars.lookup k := by
  have hcons : ∀ rest : CalculationVars,
      List.lookup k ((key, v) :: rest) = if k = key then some v else List.lookup k rest := by
    intro rest
    by_cases hk : k = key
    · rw [if_pos hk, hk, lookup_cons_same]
    · rw [if_neg hk, lookup_cons_other _ _ hk]
  induction vars with
  | nil => exact hcons []
  | cons f rest ih =>
    obtain ⟨name, w⟩ := f
    have hname : name ≠ key := h (name, w) mem_cons_self
    have hrest := ih (fun g hg => h g (mem_cons_of_mem _ hg))
    rw [List.orderedInsert]
    split
    · exact hcons _
    · by_cases hk : k = name
      · subst hk
        rw [lookup_cons_same, lookup_cons_same, if_neg hname]
      · rw [lookup_cons_other _ _ hk, lookup_cons_other _ _ hk, hrest]

theorem lookup_filter_key {key k : Text} (hk : k ≠ key) :
    (vars.filter (fun f => f.1 ≠ key)).lookup k = vars.lookup k := by
  induction vars with
  | nil => rfl
  | cons f rest ih =>
    obtain ⟨name, w⟩ := f
    by_cases hname : name = key
    · subst hname
      rw [filter_cons_of_neg (by simp), ih, lookup_cons_other _ _ hk]
    · rw [filter_cons_of_pos (by simpa using hname), lookup_cons, lookup_cons, ih]

theorem lookup_assign (vars : CalculationVars) (key : Text) (v : UInt32) :
    (fun k => (vars.assign key v).lookup k) =
      CalculationEnv.set (fun k => vars.lookup k) key v := by
  funext k
  unfold CalculationVars.assign CalculationEnv.set
  rw [lookup_orderedInsert v (fun f hf => of_decide_eq_true (mem_filter.mp hf).2)]
  by_cases hk : k = key
  · rw [if_pos hk, if_pos hk]
  · rw [if_neg hk, if_neg hk, lookup_filter_key hk]

/-- The names of the variables are different, and those of a program besides `i` and `n`. -/
structure CalculationVars.Named (vars : CalculationVars) (names : List Text) : Prop where
  distinct : (vars.map Prod.fst).Nodup
  known : ∀ f ∈ vars, f.1 ∈ names ∨ f.1 = ['i'] ∨ f.1 = ['n']

variable {names : List Text}

theorem CalculationVars.Named.assign (h : vars.Named names) (v : UInt32)
    (hkey : key ∈ names ∨ key = ['i'] ∨ key = ['n']) : (vars.assign key v).Named names := by
  have hperm : (vars.assign key v).Perm ((key, v) :: vars.filter (fun f => f.1 ≠ key)) :=
    perm_orderedInsert _ _ _
  constructor
  · rw [(hperm.map Prod.fst).nodup_iff, map_cons, nodup_cons]
    refine ⟨?_, h.distinct.sublist (filter_sublist.map Prod.fst)⟩
    rintro hmem
    obtain ⟨f, hf, hsame⟩ := mem_map.mp hmem
    exact of_decide_eq_true (mem_filter.mp hf).2 hsame
  · intro f hf
    rcases mem_cons.mp (hperm.mem_iff.mp hf) with rfl | hold
    · exact hkey
    · exact h.known f (mem_filter.mp hold).1

theorem complement_eq (a : UInt32) : ~~~a = UInt32.ofNat (2 ^ 32 - 1 - a.toNat) := by
  apply UInt32.toNat_inj.mp
  rw [UInt32.toNat_not, UInt32.toNat_ofNat_of_lt' (by show _ < 2 ^ 32; omega)]
  rfl

theorem widened_eq (b : UInt8) : b.toUInt32 = UInt32.ofNat b.toNat := by
  have hb := b.toNat_lt
  apply UInt32.toNat_inj.mp
  rw [UInt8.toNat_toUInt32, UInt32.toNat_ofNat_of_lt' (by show _ < 2 ^ 32; omega)]

variable {input : List UInt8} {vars vars' : CalculationVars} {remaining left : Nat}

/-- An evaluation has the value of the meaning, and takes its count off the budget. -/
theorem evalCalculation_sound {levels : Nat} {e : Json} {v : UInt32}
    (h : evalCalculation input vars levels e remaining = .ok (v, left)) :
    ∃ steps, Evaluates input (fun k => vars.lookup k) e v steps ∧ remaining = left + steps := by
  induction levels generalizing e remaining left v with
  | zero => cases h
  | succ levels ih =>
    unfold evalCalculation at h
    by_cases hnone : remaining = 0
    · rw [if_pos hnone] at h
      cases h
    rw [if_neg hnone] at h
    cases e with
    | null | bool | real | obj => cases h
    | int n =>
      dsimp only at h
      rw [except_bind_ok] at h
      obtain ⟨w, hw, h⟩ := h
      cases h
      unfold calculationInteger at hw
      by_cases hn : 0 ≤ n ∧ n ≤ 0xffffffff
      · dsimp only at hw
        rw [if_pos hn] at hw
        cases hw
        obtain ⟨m, rfl⟩ := Int.eq_ofNat_of_zero_le hn.1
        refine ⟨1, ?_, by omega⟩
        rw [Int.toNat_natCast]
        exact Evaluates.constant (by omega)
      · dsimp only at hw
        rw [if_neg hn] at hw
        cases hw
    | str key =>
      dsimp only at h
      cases hfound : vars.lookup key with
      | none =>
        rw [hfound] at h
        cases h
      | some w =>
        rw [hfound] at h
        cases h
        exact ⟨1, Evaluates.variable hfound, by omega⟩
    | arr items =>
      cases items with
      | nil => cases h
      | cons first args =>
        cases first with
        | null | bool | int | real | arr | obj => cases h
        | str op =>
          dsimp only at h
          by_cases hselect : op = "select"
          · rw [if_pos hselect] at h
            subst hselect
            -- the branch that is not chosen is not evaluated, and not counted
            rcases args with _ | ⟨c, _ | ⟨t, _ | ⟨f, _ | ⟨g, more⟩⟩⟩⟩
            · cases h
            · cases h
            · cases h
            · dsimp only at h
              rw [except_bind_ok] at h
              obtain ⟨⟨w, mid⟩, hcondition, hbranch⟩ := h
              obtain ⟨s, hc, hs⟩ := ih hcondition
              obtain ⟨s', hb, hs'⟩ := ih hbranch
              refine ⟨1 + s + s', ?_, by omega⟩
              by_cases hw : w ≠ 0
              · rw [if_pos hw] at hb
                exact Evaluates.yes hc hw hb
              · rw [if_neg hw] at hb
                rw [not_not] at hw
                subst hw
                exact Evaluates.no hc hb
            · cases h
          rw [if_neg hselect] at h
          by_cases hunary : op = "byte" ∨ op = "not"
          · rw [if_pos hunary] at h
            rcases args with _ | ⟨operand, _ | ⟨second, more⟩⟩
            · cases h
            · dsimp only at h
              rw [except_bind_ok] at h
              obtain ⟨⟨a, mid⟩, hoperand, h⟩ := h
              obtain ⟨s, ha, hs⟩ := ih hoperand
              refine ⟨1 + s, ?_⟩
              dsimp only at h
              by_cases hnot : op = "not"
              · rw [if_pos hnot] at h
                cases h
                subst hnot
                rw [complement_eq]
                exact ⟨Evaluates.complement ha, by omega⟩
              rw [if_neg hnot] at h
              have hbyte := hunary.resolve_right hnot
              subst hbyte
              cases hget : input[a.toNat]? with
              | none =>
                rw [hget] at h
                cases h
              | some b =>
                rw [hget] at h
                cases h
                rw [widened_eq]
                exact ⟨Evaluates.byte ha hget, by omega⟩
            · cases h
          rw [if_neg hunary] at h
          rcases args with _ | ⟨l, _ | ⟨r, _ | ⟨t, more⟩⟩⟩
          · cases h
          · cases h
          · dsimp only at h
            rw [except_bind_ok] at h
            obtain ⟨⟨a, mid⟩, hleft, h⟩ := h
            dsimp only at h
            rw [except_bind_ok] at h
            obtain ⟨⟨b, mid'⟩, hright, h⟩ := h
            dsimp only at h
            rw [except_bind_ok] at h
            obtain ⟨w, hw, h⟩ := h
            cases h
            obtain ⟨s, ha, hs⟩ := ih hleft
            obtain ⟨s', hb, hs'⟩ := ih hright
            exact ⟨1 + s + s', Evaluates.binary ha hb (binaryOperation_ok hw), by omega⟩
          · cases h

theorem not_reserved {s : Text} (h : isVariableName s = true) : s ≠ ['i'] ∧ s ≠ ['n'] := by
  unfold isVariableName at h
  simp only [Bool.and_eq_true, decide_eq_true_eq] at h
  exact ⟨h.1.2, h.2⟩

variable {body : List CalculationStatement}

theorem assignAll_sound (h : assignAll input body vars remaining = .ok (vars', left)) :
    ∃ steps, Assigns input body (fun k => vars.lookup k) (fun k => vars'.lookup k) steps ∧
      remaining = left + steps := by
  induction body generalizing vars remaining with
  | nil =>
    cases h
    exact ⟨0, Assigns.nil, rfl⟩
  | cons s rest ih =>
    unfold assignAll at h
    rw [except_bind_ok] at h
    obtain ⟨⟨v, mid⟩, hvalue, hrest⟩ := h
    obtain ⟨n, hn, hspent⟩ := evalCalculation_sound hvalue
    obtain ⟨n', hn', hspent'⟩ := ih hrest
    rw [lookup_assign] at hn'
    exact ⟨n + n', Assigns.cons hn hn', by omega⟩

theorem assignAll_named (hvars : vars.Named names) (hbody : ∀ s ∈ body, s.set ∈ names)
    (h : assignAll input body vars remaining = .ok (vars', left)) : vars'.Named names := by
  induction body generalizing vars remaining with
  | nil =>
    cases h
    exact hvars
  | cons s rest ih =>
    unfold assignAll at h
    rw [except_bind_ok] at h
    obtain ⟨⟨v, mid⟩, -, hrest⟩ := h
    exact ih (hvars.assign v (Or.inl (hbody s mem_cons_self)))
      (fun t ht => hbody t (mem_cons_of_mem _ ht)) hrest

variable {env env' : CalculationEnv}

/-- The assignments of a body leave the names alone that it does not set. -/
theorem Assigns.frame {n : Nat}
    (h : Assigns input body env env' n) (hkey : ∀ s ∈ body, s.set ≠ key) : env' key = env key := by
  induction h with
  | nil => rfl
  | cons hvalue hrest ih =>
    rw [ih (fun s hs => hkey s (mem_cons_of_mem _ hs))]
    exact if_neg (hkey _ mem_cons_self).symm

theorem emitted_eq (v : UInt32) : v.toUInt8 = UInt8.ofNat v.toNat := by
  apply UInt8.toNat_inj.mp
  rw [UInt32.toNat_toUInt8, UInt8.toNat_ofNat']

variable {output : List UInt8} {count k remaining left : Nat} {emit : Access Json}

theorem calculationRounds_sound {e : Json}
    (hbody : ∀ s ∈ body, s.set ≠ ['i'] ∧ s.set ≠ ['n']) (hemit : emit = .ok e)
    (hlength : vars.lookup ['n'] = some (UInt32.ofNat input.length))
    (h : calculationRounds input body emit count k vars remaining = .ok (output, vars', left)) :
    ∃ steps, Rounds input body e count k (fun x => vars.lookup x) output (fun x => vars'.lookup x)
        steps ∧ remaining = left + steps := by
  subst hemit
  induction count generalizing k vars remaining output with
  | zero =>
    cases h
    exact ⟨0, Rounds.done, rfl⟩
  | succ count ih =>
    unfold calculationRounds at h
    rw [except_bind_ok] at h
    obtain ⟨⟨mid, spent⟩, hassign, h⟩ := h
    dsimp only at h
    rw [except_bind_ok] at h
    obtain ⟨e', he, h⟩ := h
    cases he
    rw [except_bind_ok] at h
    obtain ⟨⟨v, spent'⟩, hvalue, h⟩ := h
    dsimp only at h
    by_cases hwide : 255 < v
    · rw [if_pos hwide] at h
      cases h
    rw [if_neg hwide, except_bind_ok] at h
    obtain ⟨⟨rest, final, spent''⟩, hrest, h⟩ := h
    cases h
    obtain ⟨n, hn, hs⟩ := assignAll_sound hassign
    rw [lookup_assign] at hn
    have hi : mid.lookup ['i'] = some (UInt32.ofNat k) := by
      rw [hn.frame (fun s hs => (hbody s hs).1)]
      exact if_pos rfl
    have hkept : mid.lookup ['n'] = some (UInt32.ofNat input.length) := by
      rw [hn.frame (fun s hs => (hbody s hs).2), ← hlength]
      exact if_neg (by decide)
    obtain ⟨n', hn', hs'⟩ := evalCalculation_sound hvalue
    obtain ⟨n'', hn'', hs''⟩ := ih hkept hrest
    have hbyte : v.toNat < 256 := by
      have hle : ¬ 255 < v.toNat := hwide
      omega
    refine ⟨n + n' + n'', ?_, by omega⟩
    rw [emitted_eq]
    exact Rounds.round hn hi hkept hn' hbyte hn''

theorem calculationRounds_named (hvars : vars.Named names) (hbody : ∀ s ∈ body, s.set ∈ names)
    (h : calculationRounds input body emit count k vars remaining = .ok (output, vars', left)) :
    vars'.Named names := by
  induction count generalizing k vars remaining output with
  | zero =>
    cases h
    exact hvars
  | succ count ih =>
    unfold calculationRounds at h
    rw [except_bind_ok] at h
    obtain ⟨⟨mid, spent⟩, hassign, h⟩ := h
    dsimp only at h
    rw [except_bind_ok] at h
    obtain ⟨e, -, h⟩ := h
    rw [except_bind_ok] at h
    obtain ⟨⟨v, spent'⟩, -, h⟩ := h
    dsimp only at h
    by_cases hwide : 255 < v
    · rw [if_pos hwide] at h
      cases h
    rw [if_neg hwide, except_bind_ok] at h
    obtain ⟨⟨rest, final, spent''⟩, hrest, h⟩ := h
    cases h
    exact ih (assignAll_named (hvars.assign _ (Or.inr (Or.inl rfl))) hbody hassign) hrest

/-- A calculation of one round or more has an expression that it emits. -/
theorem calculationRounds_emit (hcount : count ≠ 0)
    (h : calculationRounds input body emit count k vars remaining = .ok (output, vars', left)) :
    ∃ e, emit = .ok e := by
  obtain ⟨rounds, rfl⟩ := Nat.exists_eq_succ_of_ne_zero hcount
  unfold calculationRounds at h
  rw [except_bind_ok] at h
  obtain ⟨⟨mid, spent⟩, -, h⟩ := h
  dsimp only at h
  rw [except_bind_ok] at h
  obtain ⟨e, he, -⟩ := h
  exact ⟨e, he⟩

theorem Rounds.length {e : Json} {count k n : Nat}
    (h : Rounds input body e count k env output env' n) : output.length = count := by
  induction h with
  | done => rfl
  | round _ _ _ _ _ _ ih => rw [length_cons, ih]

theorem hexDigit_hexText : ∀ d < 16, hexDigit (hexText.getD d '0') = d := by decide

theorem sliceBytes_cons (b : UInt8) (rest : Text) :
    sliceBytes (hexPair b ++ rest) = b :: sliceBytes rest := by
  have hb := b.toNat_lt
  show UInt8.ofNat (16 * hexDigit (hexText.getD (b.toNat / 16) '0') +
    hexDigit (hexText.getD (b.toNat % 16) '0')) :: sliceBytes rest = _
  rw [hexDigit_hexText _ (by omega), hexDigit_hexText _ (by omega), Nat.div_add_mod,
    UInt8.ofNat_toNat]

theorem sliceBytes_pairs (output : List UInt8) : sliceBytes (output.flatMap hexPair) = output := by
  induction output with
  | nil => rfl
  | cons b rest ih => rw [flatMap_cons, sliceBytes_cons, ih]

/-- The values that the variables of a program begin with. -/
inductive Declares : List (Text × Json) → CalculationEnv → CalculationEnv → Prop
  | nil {env : CalculationEnv} : Declares [] env env
  | cons {key : Text} {n : Nat} {rest : List (Text × Json)} {env env' : CalculationEnv}
      (hkey : isVariableName key = true) (hn : n < 2 ^ 32)
      (hrest : Declares rest (env.set key (UInt32.ofNat n)) env') :
      Declares ((key, .int n) :: rest) env env'

theorem readVariable_ok {f : Text × Json} (h : readVariable vars f = .ok vars') :
    isVariableName f.1 = true ∧ ∃ n : Nat, n < 2 ^ 32 ∧ f.2 = .int n ∧
      vars' = vars.assign f.1 (UInt32.ofNat n) := by
  unfold readVariable at h
  by_cases hname : isVariableName f.1 = false
  · rw [if_pos hname] at h
    cases h
  rw [if_neg hname, except_bind_ok] at h
  obtain ⟨v, hv, h⟩ := h
  cases h
  refine ⟨Bool.of_not_eq_false hname, ?_⟩
  unfold calculationInteger at hv
  cases hvalue : f.2 with
  | null | bool | real | str | arr | obj =>
    rw [hvalue] at hv
    cases hv
  | int n =>
    rw [hvalue] at hv
    dsimp only at hv
    by_cases hn : 0 ≤ n ∧ n ≤ 0xffffffff
    · rw [if_pos hn] at hv
      cases hv
      obtain ⟨m, rfl⟩ := Int.eq_ofNat_of_zero_le hn.1
      exact ⟨m, by omega, rfl, rfl⟩
    · rw [if_neg hn] at hv
      cases hv

variable {fields : List (Text × Json)}

theorem readVariables_declare (h : fields.foldlM readVariable vars = .ok vars') :
    Declares fields (fun k => vars.lookup k) (fun k => vars'.lookup k) := by
  induction fields generalizing vars with
  | nil =>
    cases h
    exact Declares.nil
  | cons f rest ih =>
    rw [foldlM_cons, except_bind_ok] at h
    obtain ⟨mid, hf, hrest⟩ := h
    obtain ⟨key, value⟩ := f
    obtain ⟨hkey, n, hn, rfl, rfl⟩ := readVariable_ok hf
    have hdeclared := ih hrest
    rw [lookup_assign] at hdeclared
    exact Declares.cons hkey hn hdeclared

theorem readVariables_named (hvars : vars.Named names) (hfields : ∀ f ∈ fields, f.1 ∈ names)
    (h : fields.foldlM readVariable vars = .ok vars') : vars'.Named names := by
  induction fields generalizing vars with
  | nil =>
    cases h
    exact hvars
  | cons f rest ih =>
    rw [foldlM_cons, except_bind_ok] at h
    obtain ⟨mid, hf, hrest⟩ := h
    obtain ⟨-, n, -, -, rfl⟩ := readVariable_ok hf
    exact ih (hvars.assign _ (Or.inl (hfields f mem_cons_self)))
      (fun g hg => hfields g (mem_cons_of_mem _ hg)) hrest

/-- A statement of the body, as it is written. -/
structure Written (j : Json) (s : CalculationStatement) : Prop where
  set : j.at? "set" = .ok (.str s.set)
  value : j.at? "value" = .ok s.value
  named : isVariableName s.set = true

theorem readStatement_ok {j : Json} {s : CalculationStatement} (h : readStatement j = .ok s) :
    Written j s := by
  unfold readStatement at h
  rw [except_bind_ok] at h
  obtain ⟨-, -, h⟩ := h
  rw [except_bind_ok] at h
  obtain ⟨key, hkey, h⟩ := h
  rw [except_bind_ok] at h
  obtain ⟨name, hname, h⟩ := h
  by_cases hvalid : isVariableName name = false
  · rw [if_pos hvalid] at h
    cases h
  rw [if_neg hvalid, except_bind_ok] at h
  obtain ⟨value, hvalue, h⟩ := h
  cases h
  cases key with
  | null | bool | int | real | arr | obj => cases hname
  | str t =>
    cases hname
    exact ⟨hkey, hvalue, Bool.of_not_eq_false hvalid⟩

/-- What a program computes from a slice: a byte for every round, and the values that the
variables have at the end. -/
def Computes (r : Json) (input output : List UInt8) (final : CalculationEnv) (steps : Nat) : Prop :=
  ∃ fields statements body emit start,
    r.value "variables" (.obj []) = .ok (.obj fields) ∧
    Declares fields (fun _ => none) start ∧
    r.value "body" (.arr []) = .ok (.arr statements) ∧
    List.Forall₂ Written statements body ∧
    r.at? "emit" = .ok emit ∧
    Rounds input body emit output.length 0 (start.set ['n'] (UInt32.ofNat input.length)) output
      final steps

/-- A result that is the one of the program, within the bounds of the calculator. -/
structure CalculationResult.Correct (res : CalculationResult) (r : Json) (hex : Text) : Prop where
  computed : ∃ output final, Computes r (sliceBytes hex) output final res.expressionSteps ∧
    output.length = res.iterations ∧ res.hex = output.flatMap hexPair ∧
    sliceBytes res.hex = output ∧
    ∀ k, res.vars.lookup k = if k = ['i'] ∨ k = ['n'] then none else final k
  iterations : boundOf r "iterations" (sliceBytes hex).length 256 = .ok res.iterations
  round : 0 < res.iterations
  distinct : (res.vars.map Prod.fst).Nodup
  fewNames : res.vars.length ≤ 16
  steps : res.expressionSteps ≤ 100000

theorem lookup_programVars (k : Text) : (programVars vars).lookup k =
    if k = ['i'] ∨ k = ['n'] then none else vars.lookup k := by
  unfold programVars
  induction vars with
  | nil => simp
  | cons f rest ih =>
    obtain ⟨name, v⟩ := f
    by_cases hname : name ≠ ['i'] ∧ name ≠ ['n']
    · rw [filter_cons_of_pos (by simpa using hname)]
      by_cases hk : k = name
      · subst hk
        rw [lookup_cons_same, lookup_cons_same, if_neg (not_or.mpr hname)]
      · rw [lookup_cons_other _ _ hk, lookup_cons_other _ _ hk, ih]
    · rw [filter_cons_of_neg (by simpa using hname), ih]
      by_cases hk : k = name
      · subst hk
        rw [if_pos (by tauto), if_pos (by tauto)]
      · rw [lookup_cons_other _ _ hk]

theorem programVars_few (h : vars.Named names) :
    ((programVars vars).map Prod.fst).Nodup ∧ (programVars vars).length ≤ names.dedup.length := by
  have hdistinct : ((programVars vars).map Prod.fst).Nodup :=
    h.distinct.sublist (filter_sublist.map Prod.fst)
  refine ⟨hdistinct, ?_⟩
  have hsub : (programVars vars).map Prod.fst ⊆ names.dedup := by
    intro name hname
    obtain ⟨f, hf, rfl⟩ := mem_map.mp hname
    obtain ⟨hmem, hkept⟩ := mem_filter.mp hf
    have hprogram := of_decide_eq_true hkept
    rcases h.known f hmem with hnamed | hi | hn
    · exact mem_dedup.mpr hnamed
    · exact absurd hi hprogram.1
    · exact absurd hn hprogram.2
  have hle := (subperm_of_subset hdistinct hsub).length_le
  rwa [length_map] at hle

theorem runCalculation_correct {r : Json} {hex : Text} {res : CalculationResult}
    (h : runCalculation r hex = .ok res) : res.Correct r hex := by
  unfold runCalculation at h
  by_cases hlarge : 16384 < utf8Length r.dump
  · rw [if_pos hlarge] at h
    cases h
  rw [if_neg hlarge] at h
  by_cases hbad : hex = [] ∨ 2048 < hex.length ∨ hex.length % 2 = 1 ∨
      hex.all (fun c => hexText.contains c) = false
  · rw [if_pos hbad] at h
    cases h
  rw [if_neg hbad, except_bind_ok] at h
  obtain ⟨iterations, hiterations, h⟩ := h
  by_cases hzero : iterations = 0
  · rw [if_pos hzero] at h
    cases h
  rw [if_neg hzero, except_bind_ok] at h
  obtain ⟨initial, hinitial, h⟩ := h
  rw [except_bind_ok] at h
  obtain ⟨program, hprogram, h⟩ := h
  cases initial with
  | null | bool | int | real | str | arr => cases h
  | obj fields =>
    cases program with
    | null | bool | int | real | str | obj => cases h
    | arr statements =>
      dsimp only at h
      by_cases hmany : 16 < fields.length ∨ 32 < statements.length
      · rw [if_pos hmany] at h
        cases h
      rw [if_neg hmany, except_bind_ok] at h
      obtain ⟨start, hstart, h⟩ := h
      rw [except_bind_ok] at h
      obtain ⟨body, hbody, h⟩ := h
      by_cases hnames :
          16 < (fields.map Prod.fst ++ body.map CalculationStatement.set).dedup.length
      · rw [if_pos hnames] at h
        cases h
      rw [if_neg hnames, except_bind_ok] at h
      obtain ⟨⟨output, final, left⟩, hrounds, h⟩ := h
      cases h
      have hwritten : List.Forall₂ Written statements body :=
        (except_mapM_ok statements hbody).imp (fun _ _ hs => readStatement_ok hs)
      have hreserved : ∀ s ∈ body, s.set ≠ ['i'] ∧ s.set ≠ ['n'] := by
        intro s hs
        obtain ⟨j, -, hj⟩ := except_mapM_mem statements hbody hs
        exact not_reserved (readStatement_ok hj).named
      obtain ⟨emit, hemit⟩ : ∃ emit, r.at? "emit" = .ok emit :=
        calculationRounds_emit hzero hrounds
      have hlength : (start.assign ['n'] (UInt32.ofNat (sliceBytes hex).length)).lookup ['n'] =
          some (UInt32.ofNat (sliceBytes hex).length) := by
        rw [congrFun (lookup_assign _ _ _) ['n']]
        exact if_pos rfl
      obtain ⟨steps, hmeaning, hspent⟩ :=
        calculationRounds_sound hreserved hemit hlength hrounds
      rw [lookup_assign] at hmeaning
      have hcount := hmeaning.length
      have hsteps : 100000 - left = steps := by omega
      -- the names of the program are those of its variables and assignments
      have hnamed : final.Named (fields.map Prod.fst ++ body.map CalculationStatement.set) := by
        apply calculationRounds_named _ _ hrounds
        · apply CalculationVars.Named.assign _ _ (Or.inr (Or.inr rfl))
          apply readVariables_named _ _ hstart
          · exact ⟨nodup_nil, forall_mem_nil _⟩
          · exact fun f hf => mem_append_left _ (mem_map_of_mem hf)
        · exact fun s hs => mem_append_right _ (mem_map_of_mem hs)
      obtain ⟨hdistinct, hfew⟩ := programVars_few hnamed
      constructor
      · refine ⟨output, fun k => final.lookup k, ?_, hcount, rfl, sliceBytes_pairs output,
          lookup_programVars⟩
        refine ⟨fields, statements, body, emit, _, hinitial, readVariables_declare hstart,
          hprogram, hwritten, hemit, ?_⟩
        rw [hcount]
        show Rounds _ _ _ _ _ _ _ _ (100000 - left)
        rw [hsteps]
        exact hmeaning
      · exact hiterations
      · exact Nat.pos_of_ne_zero hzero
      · exact hdistinct
      · show (programVars final).length ≤ 16
        omega
      · exact Nat.sub_le _ _

variable (a b : UInt32)

theorem rol8_ok : ∃ u, binaryOperation "rol8" a b = .ok u := by
  show ∃ u, (if b % 8 = 0 then Except.ok (a &&& 255) else Except.ok
    ((((a &&& 255) <<< (b % 8)) ||| ((a &&& 255) >>> (8 - b % 8))) &&& 255) :
      Except String UInt32) = .ok u
  split
  · exact ⟨_, rfl⟩
  · exact ⟨_, rfl⟩

theorem ror8_ok : ∃ u, binaryOperation "ror8" a b = .ok u := by
  show ∃ u, (if b % 8 = 0 then Except.ok (a &&& 255) else Except.ok
    ((((a &&& 255) >>> (b % 8)) ||| ((a &&& 255) <<< (8 - b % 8))) &&& 255) :
      Except String UInt32) = .ok u
  split
  · exact ⟨_, rfl⟩
  · exact ⟨_, rfl⟩

theorem rotateByte_congr (a : Nat) {n m : Nat} (h : n % 8 = m % 8) :
    rotateByte a n = rotateByte a m := by
  unfold rotateByte
  rw [h]

theorem rotations_inverse :
    (∃ u, binaryOperation "rol8" a b = .ok u ∧ binaryOperation "ror8" u b = .ok (a &&& 255)) ∧
    ∃ u, binaryOperation "ror8" a b = .ok u ∧ binaryOperation "rol8" u b = .ok (a &&& 255) := by
  have hrol : ∀ {x u : UInt32}, binaryOperation "rol8" x b = .ok u →
      rotateByte x.toNat b.toNat = u.toNat := fun h => Option.some.inj (binaryOperation_ok h)
  have hror : ∀ {x u : UInt32}, binaryOperation "ror8" x b = .ok u →
      rotateByte x.toNat (8 - b.toNat % 8) = u.toNat := fun h => Option.some.inj (binaryOperation_ok h)
  constructor
  · obtain ⟨u, hu⟩ := rol8_ok a b
    obtain ⟨v, hv⟩ := ror8_ok u b
    have hback : v = a &&& 255 := by
      apply UInt32.toNat_inj.mp
      rw [← hror hv, ← hrol hu, rotate_back, toNat_low]
    exact ⟨u, hu, hback ▸ hv⟩
  · obtain ⟨u, hu⟩ := ror8_ok a b
    obtain ⟨v, hv⟩ := rol8_ok u b
    have hback : v = a &&& 255 := by
      apply UInt32.toNat_inj.mp
      have hsame := rotate_back a.toNat (8 - b.toNat % 8)
      rw [rotateByte_congr _ (show (8 - (8 - b.toNat % 8) % 8) % 8 = b.toNat % 8 by omega)] at hsame
      rw [← hrol hv, ← hror hu, hsame, toNat_low]
    exact ⟨u, hu, hback ▸ hv⟩

/-- Every program ends, with an error or with the result that is correct for it, and the
rotations of its expressions undo each other. -/
theorem runCalculation_meaning (r : Json) (hex : Text) (a b : UInt32) :
    ((∃ message, runCalculation r hex = .error message) ∨
      ∃ res, runCalculation r hex = .ok res ∧ res.Correct r hex) ∧
    (∃ u, binaryOperation "rol8" a b = .ok u ∧ binaryOperation "ror8" u b = .ok (a &&& 255)) ∧
    ∃ u, binaryOperation "ror8" a b = .ok u ∧ binaryOperation "rol8" u b = .ok (a &&& 255) := by
  refine ⟨?_, rotations_inverse a b⟩
  cases h : runCalculation r hex with
  | error message => exact Or.inl ⟨message, rfl⟩
  | ok res => exact Or.inr ⟨res, rfl, runCalculation_correct h⟩

example : (runCalculation (.obj [("emit", .arr [.str "xor",
    .arr [.str "byte", .str ['i']], .int 1])]) "4869").map
      (fun res => (res.hex, res.expressionSteps, res.ascii)) =
    .ok ("4968", 8, some "Ih") := by
  decide

end Indago
