import IndagoRev.Workbench.InvestigationContext
import IndagoRev.Workbench.Pagination

/-!
# The budget of a context

The tests of the size go through a list of drafts, and take the first one that fits.  What
is returned says in addition that it is partial, and no test measures that: the result is
within the budget exactly when the draft that is taken leaves room for it.
-/

namespace Indago

open StdText JsonValues Transactions List

/-- A packet with fewer and fewer actions. -/
def actionDrafts : Nat → ContextPacket → List ContextPacket
  | 0, p => [p]
  | n + 1, p => p :: actionDrafts n p.withoutLastAction

/-- A packet without graph and actions, with less and less of the investigation. -/
def stateDrafts (inv : Json) (p : ContextPacket) : List (Access ContextPacket) :=
  if p.investigation.contains "scope" = true then
    [p.withoutComponents inv, p.withoutComponents inv >>= ContextPacket.withoutBoard]
  else [p.withoutBoard]

/-- The packets that are tried, in their order. -/
def contextDrafts (inv : Json) (p : ContextPacket) : List (Access ContextPacket) :=
  .ok p :: (actionDrafts p.recentActions.length p.withoutGraph).map .ok ++
    stateDrafts inv { p.withoutGraph with recentActions := [] }

/-- The packet that is tried first. -/
def firstPacket (inv : Json) (latest : List Json) (graph : Access (Option Json)) :
    Access ContextPacket := do
  let actions ← latest.mapM (fun a => a.drop "request")
  let graph ← graph
  pure ⟨graph, inv, [nativeOmitted], actions⟩

/-- A draft that is taken: those before it are too long, and it is not, unless it is the
last. -/
def Chosen (ceiling : Nat) (l : List (Access ContextPacket)) (q : ContextPacket) : Prop :=
  ∃ before after, l = before ++ .ok q :: after ∧
    (∀ b ∈ before, ∃ d, b = .ok d ∧ ceiling < d.bytes) ∧ (q.bytes ≤ ceiling ∨ after = [])

variable {ceiling : Nat} {inv : Json} {p q : ContextPacket} {l : List (Access ContextPacket)}

theorem Chosen.here (h : q.bytes ≤ ceiling) : Chosen ceiling (.ok q :: l) q :=
  ⟨[], l, rfl, forall_mem_nil _, Or.inl h⟩

theorem chosen_last (q : ContextPacket) : Chosen ceiling [.ok q] q :=
  ⟨[], [], rfl, forall_mem_nil _, Or.inr rfl⟩

theorem Chosen.later (hp : ceiling < p.bytes) (h : Chosen ceiling l q) :
    Chosen ceiling (.ok p :: l) q := by
  obtain ⟨before, after, hsplit, hbefore, hend⟩ := h
  refine ⟨.ok p :: before, after, by rw [hsplit, cons_append], ?_, hend⟩
  intro b hb
  rcases mem_cons.mp hb with rfl | hb
  · exact ⟨p, rfl, hp⟩
  · exact hbefore b hb

theorem fitActions_stop (h : p.bytes ≤ ceiling ∨ p.recentActions = []) :
    p.fitActions ceiling = p := by
  rw [ContextPacket.fitActions, dif_neg]
  rintro ⟨hlong, hsome⟩
  rcases h with hfits | hnone
  · omega
  · exact hsome hnone

variable (n : Nat)

/-- The loop over the actions takes the first draft that fits, or goes on without any. -/
theorem fitActions_chosen (hn : p.recentActions.length = n) :
    ((p.fitActions ceiling).bytes ≤ ceiling ∧ ∀ l,
      Chosen ceiling ((actionDrafts n p).map .ok ++ l) (p.fitActions ceiling)) ∨
    (ceiling < (p.fitActions ceiling).bytes ∧
      p.fitActions ceiling = { p with recentActions := [] } ∧
      ∀ l r, Chosen ceiling l r → Chosen ceiling ((actionDrafts n p).map .ok ++ l) r) := by
  induction n generalizing p with
  | zero =>
    have hnone : p.recentActions = [] := length_eq_zero_iff.mp hn
    have hsame : p = { p with recentActions := [] } := by rw [← hnone]
    rw [fitActions_stop (Or.inr hnone)]
    rcases Nat.lt_or_ge ceiling p.bytes with hlong | hfits
    · exact Or.inr ⟨hlong, hsame, fun l r h => h.later hlong⟩
    · exact Or.inl ⟨hfits, fun l => Chosen.here hfits⟩
  | succ n ih =>
    rcases Nat.lt_or_ge ceiling p.bytes with hlong | hfits
    · have hsome : p.recentActions ≠ [] := by
        intro hnone
        rw [hnone] at hn
        cases hn
      have hnext : p.fitActions ceiling = p.withoutLastAction.fitActions ceiling := by
        rw [ContextPacket.fitActions, dif_pos ⟨hlong, hsome⟩]
      have hlength : p.withoutLastAction.recentActions.length = n := by
        show p.recentActions.dropLast.length = n
        rw [length_dropLast, hn]
        rfl
      rw [hnext]
      rcases ih hlength with ⟨hfits, hchosen⟩ | ⟨hstill, hempty, hchosen⟩
      · exact Or.inl ⟨hfits, fun l => (hchosen l).later hlong⟩
      · exact Or.inr ⟨hstill, hempty, fun l r h => (hchosen l r h).later hlong⟩
    · rw [fitActions_stop (Or.inl hfits)]
      exact Or.inl ⟨hfits, fun l => Chosen.here hfits⟩

theorem fit_fits (inv : Json) (h : p.bytes ≤ ceiling) : p.fit inv ceiling = .ok p := by
  have hnot : ¬ ceiling < p.bytes := by omega
  unfold ContextPacket.fit
  dsimp only
  rw [if_neg hnot, fitActions_stop (Or.inl h), if_neg (fun hboth => hnot hboth.1)]
  show (if ceiling < p.bytes then p.withoutBoard else pure p) = _
  rw [if_neg hnot]
  rfl

theorem fit_chosen (h : p.fit inv ceiling = .ok q) : Chosen ceiling (contextDrafts inv p) q := by
  rcases Nat.lt_or_ge ceiling p.bytes with hlong | hfits
  · unfold ContextPacket.fit at h
    dsimp only at h
    rw [if_pos hlong] at h
    unfold contextDrafts
    rw [cons_append]
    refine Chosen.later hlong ?_
    rcases @fitActions_chosen ceiling _ p.recentActions.length
      (show p.withoutGraph.recentActions.length = _ from rfl) with
      ⟨hfits, hchosen⟩ | ⟨hstill, hempty, hchosen⟩
    · have hnot : ¬ ceiling < (p.withoutGraph.fitActions ceiling).bytes := by omega
      rw [if_neg (fun hboth => hnot hboth.1)] at h
      rw [except_bind_ok] at h
      obtain ⟨r, hr, h⟩ := h
      cases hr
      rw [if_neg hnot] at h
      cases h
      exact hchosen _
    · refine hchosen _ _ ?_
      rw [hempty] at h hstill
      unfold stateDrafts
      split
      · next hscope =>
          rw [if_pos ⟨hstill, hscope⟩, except_bind_ok] at h
          obtain ⟨r, hr, h⟩ := h
          rw [hr]
          split at h
          · next hlonger =>
              have hboard : ((Except.ok r : Access ContextPacket) >>= ContextPacket.withoutBoard) =
                  .ok q := h
              rw [hboard]
              exact (chosen_last q).later hlonger
          · next hfits =>
              cases h
              exact Chosen.here (Nat.le_of_not_lt hfits)
      · next hscope =>
          rw [if_neg (fun hboth => hscope hboth.2), except_bind_ok] at h
          obtain ⟨r, hr, h⟩ := h
          cases hr
          rw [if_pos hstill] at h
          rw [h]
          exact chosen_last q
  · rw [fit_fits inv hfits] at h
    cases h
    exact Chosen.here hfits

/-- Of two drafts that fit, with only longer ones before them, both are the same. -/
theorem first_unique {before before' after after' : List (Access ContextPacket)} {d : ContextPacket}
    (h : before ++ .ok q :: after = before' ++ .ok d :: after')
    (hbefore : ∀ b ∈ before, ∃ e, b = .ok e ∧ ceiling < e.bytes)
    (hbefore' : ∀ b ∈ before', ∃ e, b = .ok e ∧ ceiling < e.bytes)
    (hq : q.bytes ≤ ceiling ∨ after = []) (hd : d.bytes ≤ ceiling) : q = d := by
  induction before generalizing before' with
  | nil =>
    cases before' with
    | nil => exact Except.ok.inj (List.cons.inj h).1
    | cons b rest =>
      obtain ⟨e, rfl, hlong⟩ := hbefore' b mem_cons_self
      obtain ⟨hsame, hrest⟩ := List.cons.inj h
      cases hsame
      rcases hq with hfits | hnil
      · omega
      · rw [hnil] at hrest
        exact absurd hrest.symm (append_ne_nil_of_right_ne_nil _ (cons_ne_nil _ _))
  | cons b rest ih =>
    cases before' with
    | nil =>
      obtain ⟨e, rfl, hlong⟩ := hbefore b mem_cons_self
      obtain ⟨hsame, -⟩ := List.cons.inj h
      cases hsame
      omega
    | cons b' rest' =>
      exact ih (List.cons.inj h).2 (fun x hx => hbefore x (mem_cons_of_mem _ hx))
        (fun x hx => hbefore' x (mem_cons_of_mem _ hx))

theorem dumpFields_cons {fields : List (Text × Json)} (hne : fields ≠ []) (key : Text) (v : Json) :
    Json.dumpFields ((key, v) :: fields) =
      Json.quoted key ++ ':' :: v.dump ++ ',' :: Json.dumpFields fields := by
  cases fields with
  | nil => exact absurd rfl hne
  | cons f rest => rfl

theorem dumpFields_append {fields more : List (Text × Json)} (hne : fields ≠ [])
    (hmore : more ≠ []) : Json.dumpFields (fields ++ more) =
      Json.dumpFields fields ++ ',' :: Json.dumpFields more := by
  induction fields with
  | nil => exact absurd rfl hne
  | cons f rest ih =>
    obtain ⟨key, v⟩ := f
    cases rest with
    | nil => exact dumpFields_cons hmore key v
    | cons g rest =>
      rw [cons_append, dumpFields_cons (by simp) key v, ih (by simp),
        dumpFields_cons (cons_ne_nil _ _) key v]
      simp only [append_assoc, cons_append]

variable (p : ContextPacket)

theorem partialJson_bytes : utf8Length p.partialJson.dump = p.bytes + 15 := by
  have hfront : p.front ≠ [] := by
    unfold ContextPacket.front
    split <;> simp
  have hback : p.back ≠ [] := cons_ne_nil _ _
  have hflag : utf8Length (Json.quoted "partial" ++ ':' :: (Json.bool true).dump) = 14 := by
    decide
  unfold ContextPacket.bytes ContextPacket.partialJson ContextPacket.json
  simp only [Json.dump]
  rw [dumpFields_append hfront (cons_ne_nil _ _), dumpFields_append hfront hback,
    dumpFields_cons hback]
  simp only [utf8Length_append, utf8Length_cons, utf8Length_nil] at hflag ⊢
  simp only [show ','.utf8Size = 1 from rfl, show ':'.utf8Size = 1 from rfl] at hflag ⊢
  omega

theorem utf8Length_quoted {t : Text} (h : ∀ c ∈ t, Json.escape c = [c] ∧ c.utf8Size = 1) :
    utf8Length (Json.quoted t) = t.length + 2 := by
  have hsame : t.flatMap Json.escape = t := by
    induction t with
    | nil => rfl
    | cons c rest ih =>
      rw [flatMap_cons, (h c mem_cons_self).1,
        ih (fun d hd => h d (mem_cons_of_mem _ hd))]
      rfl
  have hlength : utf8Length t = t.length := by
    clear hsame
    induction t with
    | nil => rfl
    | cons c rest ih =>
      have hrest := ih (fun d hd => h d (mem_cons_of_mem _ hd))
      unfold utf8Length at hrest ⊢
      rw [map_cons, sum_cons, hrest, (h c mem_cons_self).2, length_cons]
      omega
  unfold Json.quoted
  rw [hsame]
  show utf8Length (['"'] ++ t ++ ['"']) = _
  rw [utf8Length_append, utf8Length_append, hlength]
  show 1 + t.length + 1 = _
  omega

theorem identifier_plain {c : Char} (h : (c.isAlphanum || c = '_' || c = '-') = true) :
    Json.escape c = [c] ∧ c.utf8Size = 1 := by
  have hall : ∀ n < 128, (let c := Char.ofNat n; (c.isAlphanum || c = '_' || c = '-') = true →
      Json.escape c = [c] ∧ c.utf8Size = 1) := by decide
  have hsmall : c.toNat < 128 := by
    simp only [Bool.or_eq_true, decide_eq_true_eq, Char.isAlphanum, Char.isAlpha, Char.isUpper,
      Char.isLower, Char.isDigit, Bool.and_eq_true, ge_iff_le, UInt32.le_iff_toNat_le] at h
    rcases h with (((h | h) | h) | rfl) | rfl
    · have := h.2
      exact Nat.lt_of_le_of_lt this (by decide)
    · have := h.2
      exact Nat.lt_of_le_of_lt this (by decide)
    · have := h.2
      exact Nat.lt_of_le_of_lt this (by decide)
    · decide
    · decide
  have hc := hall c.toNat hsmall
  rw [Char.ofNat_toNat] at hc
  exact hc h

theorem contextDiagnostic_fits {id : Text} (h : isIdentifier id = true) :
    utf8Length (contextDiagnostic id).dump ≤ 4096 := by
  unfold isIdentifier at h
  rw [Bool.and_eq_true, Bool.and_eq_true, decide_eq_true_eq] at h
  obtain ⟨⟨-, hlength⟩, hall⟩ := h
  have hid := utf8Length_quoted (fun c hc => identifier_plain (all_eq_true.mp hall c hc))
  have hdiagnostic : utf8Length (Json.quoted "diagnostic") +
      utf8Length (Json.quoted ("objective/state exceeds packet budget; increase " ++
        "output_bytes or retrieve show").toList) + utf8Length (Json.quoted "id") +
      utf8Length (Json.quoted "partial" ++ ':' :: (Json.bool true).dump) ≤ 300 := by
    decide
  unfold contextDiagnostic
  simp only [Json.dump, Json.dumpFields, utf8Length_append, utf8Length_cons, hid,
    utf8Length_nil] at hdiagnostic ⊢
  simp only [show ':'.utf8Size = 1 from rfl, show ','.utf8Size = 1 from rfl,
    show '\x7b'.utf8Size = 1 from rfl, show '\x7d'.utf8Size = 1 from rfl] at hdiagnostic ⊢
  omega

/-- A result within the budget that says it is partial. -/
def WithinBudget (ceiling : Nat) (out : Json) : Prop :=
  utf8Length out.dump ≤ ceiling ∧ out.get? "partial" = some (.bool true)

theorem partialJson_partial : p.partialJson.get? "partial" = some (.bool true) := by
  unfold ContextPacket.partialJson ContextPacket.front
  cases p.graph <;> rfl

variable {id : Text} {latest : List Json} {graph : Access (Option Json)} {out : Json}

/-- A context is within its budget exactly when the first draft that is not too long leaves
fifteen bytes. -/
theorem context_within_iff (h : context inv id ceiling latest graph = .ok out) :
    WithinBudget ceiling out ↔ ∀ p, firstPacket inv latest graph = .ok p → ∀ before d after,
        contextDrafts inv p = before ++ .ok d :: after →
        (∀ b ∈ before, ∃ e, b = .ok e ∧ ceiling < e.bytes) → d.bytes ≤ ceiling →
          d.bytes + 15 ≤ ceiling := by
  unfold context at h
  split at h
  · cases h
  next hid =>
    split at h
    · cases h
    split at h
    · cases h
    next hceiling =>
      simp only [except_bind_ok] at h
      obtain ⟨actions, hactions, g, hgraph, q, hfit, h⟩ := h
      have hfirst : firstPacket inv latest graph = .ok ⟨g, inv, [nativeOmitted], actions⟩ := by
        unfold firstPacket
        rw [hactions, hgraph]
        rfl
      obtain ⟨before, after, hsplit, hbefore, hend⟩ := fit_chosen hfit
      split at h
      · next hlong =>
          cases h
          have hnil : after = [] := hend.resolve_left (by omega)
          refine ⟨fun _ p hp before' d after' hsplit' hbefore' hd => ?_, fun _ => ⟨?_, rfl⟩⟩
          · rw [hfirst] at hp
            cases hp
            have hsame := first_unique (hsplit.symm.trans hsplit') hbefore hbefore'
              (Or.inr hnil) hd
            subst hsame
            omega
          · have hshort := contextDiagnostic_fits ((Bool.not_eq_false _).mp hid)
            omega
      · next hshort =>
          cases h
          have hfits : q.bytes ≤ ceiling := Nat.le_of_not_lt hshort
          constructor
          · rintro ⟨hbytes, -⟩ p hp before' d after' hsplit' hbefore' hd
            rw [hfirst] at hp
            cases hp
            have hsame := first_unique (hsplit.symm.trans hsplit') hbefore hbefore'
              (Or.inl hfits) hd
            subst hsame
            rw [partialJson_bytes] at hbytes
            exact hbytes
          · intro hroom
            refine ⟨?_, partialJson_partial q⟩
            rw [partialJson_bytes]
            exact hroom _ hfirst before q after hsplit hbefore hfits

/-- An investigation with an objective of so many letters, and nothing else. -/
def objectiveOnly : Json :=
  .obj [("objective", .str (List.replicate n 'a'))]

theorem objectiveOnly_bytes :
    (⟨none, objectiveOnly n, [nativeOmitted], []⟩ : ContextPacket).bytes = 367 + n := by
  have hletters : utf8Length (Json.quoted (List.replicate n 'a')) = n + 2 := by
    rw [utf8Length_quoted, length_replicate]
    intro c hc
    rw [eq_of_mem_replicate hc]
    decide
  have hfields : utf8Length (Json.quoted "investigation") +
      utf8Length (Json.quoted "objective") + utf8Length (Json.quoted "omissions") +
      utf8Length (Json.quoted nativeOmitted) + utf8Length (Json.quoted "recent_actions") +
      utf8Length (Json.quoted "schema") +
      utf8Length (Json.quoted "indago.investigation-context.v1") +
      utf8Length (Json.quoted "token_accounting") +
      utf8Length (Json.quoted tokenAccounting) + utf8Length (Json.quoted "trust_boundary") +
      utf8Length (Json.quoted trustBoundary) = 345 := by
    decide
  unfold ContextPacket.bytes ContextPacket.json ContextPacket.front ContextPacket.back objectiveOnly
  simp only [nil_append, cons_append, map_cons, map_nil, Json.dump,
    Json.dumpFields, Json.dumpItems, utf8Length_append, utf8Length_cons, utf8Length_nil, hletters]
  simp only [show ':'.utf8Size = 1 from rfl, show ','.utf8Size = 1 from rfl,
    show '\x7b'.utf8Size = 1 from rfl, show '\x7d'.utf8Size = 1 from rfl,
    show '['.utf8Size = 1 from rfl, show ']'.utf8Size = 1 from rfl]
  omega

theorem context_objectiveOnly {n : Nat} (h : 367 + n ≤ 4096) :
    context (objectiveOnly n) ['i'] 4096 [] (.ok none) =
      .ok (⟨none, objectiveOnly n, [nativeOmitted], []⟩ : ContextPacket).partialJson := by
  have hfits : (⟨none, objectiveOnly n, [nativeOmitted], []⟩ : ContextPacket).bytes ≤ 4096 := by
    rw [objectiveOnly_bytes]
    exact h
  unfold context
  rw [if_neg (by decide), if_neg (by decide), if_neg (by decide)]
  simp only [mapM_nil, pure, Except.pure, bind, Except.bind, fit_fits _ hfits]
  rw [if_neg (Nat.not_lt.mpr hfits)]

/-- A short objective leaves room. -/
theorem context_within_short : WithinBudget 4096
    (⟨none, objectiveOnly 5, [nativeOmitted], []⟩ : ContextPacket).partialJson := by
  refine (context_within_iff (context_objectiveOnly (by decide))).mpr ?_
  intro p hp before d after hsplit hbefore hd
  have hfirst : (⟨none, objectiveOnly 5, [nativeOmitted], []⟩ : ContextPacket) = p :=
    Except.ok.inj hp
  subst hfirst
  have hbytes := objectiveOnly_bytes 5
  obtain ⟨before', after', hsplit', hbefore', -⟩ :=
    fit_chosen (fit_fits (objectiveOnly 5) (show _ ≤ 4096 by rw [hbytes]; decide))
  have hsame := first_unique (hsplit'.symm.trans hsplit) hbefore' hbefore
    (Or.inl (by rw [hbytes]; decide)) hd
  rw [← hsame, hbytes]
  decide

/-- A packet of 4096 bytes is returned with fifteen bytes more. -/
theorem context_exceeds_budget : ∃ out,
    context (objectiveOnly 3729) ['i'] 4096 [] (.ok none) = .ok out ∧ ¬ WithinBudget 4096 out := by
  refine ⟨_, context_objectiveOnly (by decide), ?_⟩
  rintro ⟨hbytes, -⟩
  rw [partialJson_bytes, objectiveOnly_bytes] at hbytes
  omega

end Indago
