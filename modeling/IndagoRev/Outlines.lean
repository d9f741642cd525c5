import IndagoRev.Interleaving

/-!
# Outlines of interleaved programs

An outline gives an assertion to every label. A process that is about to take a
labelled action has shown its assertion in the store it left, and may use it
when it acts, provided that nobody disturbed it in between. So an outline asks
nothing of the other processes as such: whether they disturb an assertion is a
condition on each event of a run.
-/

namespace Interleaving

open Transactions List

/-- Assertions for the labels of a machine. -/
structure Outline (Λ σ : Type) where
  /-- What holds of every store of the runs looked at. -/
  inv : σ → Prop
  /-- What holds when an action with this label is next. -/
  here : Λ → σ → Prop
  /-- The runs looked at: an action with this label meets this in the state before. -/
  meets : Λ → σ → Prop

namespace Outline

variable {ι Λ σ κ α β : Type} (O : Outline Λ σ)

/-- The process shows the assertion of each action it comes to, and ends in `post`. -/
def Proves : Proc ι Λ σ α → (α → σ → Prop) → σ → Prop
  | .done a, post, s => post a s
  | .act label write next, post, s =>
    O.here label s ∧ ∀ t, O.inv t → O.here label t → O.meets label t →
      ∀ i, Proves (next i t) post (write i t)

variable {O} {p : Proc ι Λ σ α}

theorem Proves.mono {post post' : α → σ → Prop} {s : σ}
    (h : O.Proves p post s) (himp : ∀ a s, post a s → post' a s) : O.Proves p post' s := by
  induction p generalizing s with
  | done a => exact himp a s h
  | act label write next ih =>
    obtain ⟨hhere, hnext⟩ := h
    exact ⟨hhere, fun t hinv hat hmeets i => ih i t (hnext t hinv hat hmeets i)⟩

theorem Proves.bind {f : α → Proc ι Λ σ β} {post : β → σ → Prop} {s : σ}
    (h : O.Proves p (fun a s => O.Proves (f a) post s) s) : O.Proves (p.bind f) post s := by
  induction p generalizing s with
  | done a => exact h
  | act label write next ih =>
    obtain ⟨hhere, hnext⟩ := h
    exact ⟨hhere, fun t hinv hat hmeets i => ih i t (hnext t hinv hat hmeets i)⟩

/-- A process whose next assertion survives still proves its outline. -/
theorem Proves.undisturbed {s t : σ} (h : O.Proves p (fun _ _ => True) s)
    (hkeeps : ∀ label ∈ p.label?, O.here label s → O.here label t) :
    O.Proves p (fun _ _ => True) t := by
  cases p with
  | done a => exact trivial
  | act label write next => exact ⟨hkeeps label rfl h.1, h.2⟩

variable (O) (M : Machine ι Λ σ κ)

/-- The process that an event lets act. -/
def actor : Event ι κ → Option Nat
  | .step n _ => some n
  | _ => none

variable (st : Machine.State ι Λ σ)

/-- The label of the action that process `n` takes next. -/
def nextLabel (n : Nat) : Option Λ :=
  (st.procs[n]?).bind Proc.label?

/-- An event whose own action meets the condition, and which keeps the assertions
of all other processes. -/
structure Quiet (st : Machine.State ι Λ σ) (e : Event ι κ) : Prop where
  meets : ∀ n ∈ actor e, ∀ label ∈ nextLabel st n, O.meets label st.store
  keeps : ∀ n < st.procs.length, actor e ≠ some n → ∀ label ∈ nextLabel st n,
    O.here label st.store → O.here label (M.next st e).store

/-- A run of such events. -/
def Undisturbed : Machine.State ι Λ σ → List (Event ι κ) → Prop
  | _, [] => True
  | st, e :: rest => O.Quiet M st e ∧ Undisturbed (M.next st e) rest

section Decide

variable [∀ label s, Decidable (O.here label s)] [∀ label s, Decidable (O.meets label s)]

instance (st : Machine.State ι Λ σ) (e : Event ι κ) : Decidable (O.Quiet M st e) :=
  decidable_of_iff
    ((∀ n ∈ actor e, ∀ label ∈ nextLabel st n, O.meets label st.store) ∧
      ∀ n < st.procs.length, actor e ≠ some n → ∀ label ∈ nextLabel st n,
        O.here label st.store → O.here label (M.next st e).store)
    ⟨fun h => ⟨h.1, h.2⟩, fun h => ⟨h.meets, h.keeps⟩⟩

instance decidableUndisturbed : (st : Machine.State ι Λ σ) → (events : List (Event ι κ)) →
    Decidable (O.Undisturbed M st events)
  | _, [] => .isTrue trivial
  | st, e :: rest =>
    haveI := decidableUndisturbed (M.next st e) rest
    inferInstanceAs (Decidable (O.Quiet M st e ∧ O.Undisturbed M (M.next st e) rest))

end Decide

/-- Every process that is started proves the outline. -/
def Starts : Prop :=
  ∀ call k i s, O.inv s →
    O.Proves (M.start call k i s).2 (fun _ _ => True) (M.start call k i s).1

/-- All processes of a state prove the outline. -/
def Holds : Prop :=
  ∀ (n : Nat) (p : Proc ι Λ σ Unit), st.procs[n]? = some p →
    O.Proves p (fun _ _ => True) st.store

variable {O M} {st : Machine.State ι Λ σ}

theorem Holds.here (h : O.Holds st) {n : Nat} {label : Λ}
    (hlabel : nextLabel st n = some label) : O.here label st.store := by
  obtain ⟨p, hp, hnext⟩ := Option.bind_eq_some_iff.mp hlabel
  cases p with
  | done a => cases hnext
  | act label' write next =>
    cases hnext
    exact (h n _ hp).1

theorem Holds.next (hstarts : O.Starts M) {st : Machine.State ι Λ σ} (hinv : O.inv st.store)
    (h : O.Holds st) (e : Event ι κ) (hquiet : O.Quiet M st e) : O.Holds (M.next st e) := by
  -- a process that is not the actor keeps its place and its assertion
  have hother : ∀ (n : Nat) (p : Proc ι Λ σ Unit), actor e ≠ some n → st.procs[n]? = some p →
      O.Proves p (fun _ _ => True) (M.next st e).store := by
    intro n p hn hp
    apply (h n p hp).undisturbed
    intro label hlabel
    refine hquiet.keeps n (List.getElem?_eq_some_iff.mp hp).1 hn label ?_
    rw [nextLabel, hp]
    exact hlabel
  intro n p hp
  cases e with
  | start call i =>
    simp only [Machine.next] at hp
    rcases Nat.lt_trichotomy n st.procs.length with hlt | heq | hgt
    · rw [getElem?_append_left hlt] at hp
      exact hother n p (by simp [actor]) hp
    · subst heq
      simp only [getElem?_concat_length, Option.some.injEq] at hp
      subst hp
      exact hstarts call st.procs.length i st.store hinv
    · rw [getElem?_eq_none (by simp; omega)] at hp
      cases hp
  | step m i =>
    cases hproc : st.procs[m]? with
    | none =>
      have hsame : M.next st (.step m i) = st := by simp [Machine.next, hproc]
      rw [hsame] at hp ⊢
      exact h n p hp
    | some q =>
      cases q with
      | done a =>
        have hsame : M.next st (.step m i) = st := by simp [Machine.next, hproc]
        rw [hsame] at hp ⊢
        exact h n p hp
      | act label write next =>
        have hlt : m < st.procs.length := (List.getElem?_eq_some_iff.mp hproc).1
        have hstep : M.next st (.step m i) =
            ⟨write i st.store, st.procs.set m (next i st.store)⟩ := by
          simp [Machine.next, hproc]
        by_cases hn : n = m
        · subst hn
          obtain ⟨hhere, hproves⟩ := h n _ hproc
          have hmeets : O.meets label st.store :=
            hquiet.meets n rfl label (by simp [nextLabel, hproc, Proc.label?])
          rw [hstep] at hp ⊢
          simp only [getElem?_set_self hlt, Option.some.injEq] at hp
          subst hp
          exact hproves st.store hinv hhere hmeets i
        · have hprocs : (M.next st (.step m i)).procs[n]? = st.procs[n]? := by
            rw [hstep, getElem?_set_ne (Ne.symm hn)]
          rw [hprocs] at hp
          exact hother n p (by simpa [actor] using Ne.symm hn) hp
  | crash m =>
    have hstore : (M.next st (.crash m)).store = st.store := rfl
    simp only [Machine.next] at hp
    rw [hstore]
    by_cases hn : n = m
    · subst hn
      rw [getElem?_set_self' ] at hp
      obtain ⟨_, _, rfl⟩ := Option.map_eq_some_iff.mp hp
      exact trivial
    · rw [getElem?_set_ne (Ne.symm hn)] at hp
      exact h n p hp

/-- Along an undisturbed run every process shows the assertion of the action it
takes next. `keeps` is what else is known of the states of the machine. -/
theorem Holds.run {keeps : Machine.State ι Λ σ → Prop} (hstarts : O.Starts M)
    (hinv : ∀ st, keeps st → O.inv st.store) (hkeeps : ∀ st e, keeps st → keeps (M.next st e))
    (hst : keeps st) (h : O.Holds st) (events : List (Event ι κ))
    (hquiet : O.Undisturbed M st events) : O.Holds (M.run st events) := by
  induction events generalizing st with
  | nil => exact h
  | cons e rest ih =>
    exact ih (hkeeps st e hst) (h.next hstarts (hinv st hst) e hquiet.1) hquiet.2

end Outline

namespace Program

variable {ι Λ σ ρ ε α β : Type} (O : Outline Λ σ)

/-- From the local data `r` the program proves the outline and ends in `post`. -/
def Shows (m : Program ι Λ σ ρ ε α) (post : Except ε α → ρ → σ → Prop) (r : ρ) (s : σ) : Prop :=
  O.Proves (m r) (fun answer s => post answer.1 answer.2 s) s

variable {O} {post post' : Except ε α → ρ → σ → Prop} {r : ρ} {s : σ} {m : Program ι Λ σ ρ ε α}

theorem Shows.mono (h : Shows O m post r s)
    (himp : ∀ x r s, post x r s → post' x r s) : Shows O m post' r s :=
  Outline.Proves.mono h (fun _ _ hpost => himp _ _ _ hpost)

theorem Shows.process (h : Shows O m post r s) : O.Proves (m.process r) (fun _ _ => True) s :=
  Outline.Proves.bind (Outline.Proves.mono h (fun _ _ _ => trivial))

theorem shows_pure {a : α} (h : post (.ok a) r s) :
    Shows O (pure a : Program ι Λ σ ρ ε α) post r s := h

theorem shows_throw {e : ε} (h : post (.error e) r s) :
    Shows O (throw e : Program ι Λ σ ρ ε α) post r s := h

theorem shows_get {post : Except ε ρ → ρ → σ → Prop} (h : post (.ok r) r s) :
    Shows O (get : Program ι Λ σ ρ ε ρ) post r s := h

theorem shows_modify {post : Except ε PUnit → ρ → σ → Prop} {f : ρ → ρ}
    (h : post (.ok ⟨⟩) (f r) s) : Shows O (modify f : Program ι Λ σ ρ ε PUnit) post r s := h

theorem shows_bind {post : Except ε β → ρ → σ → Prop} {f : α → Program ι Λ σ ρ ε β}
    (h : Shows O m (fun x r s => match x with
      | .ok a => Shows O (f a) post r s
      | .error e => post (.error e) r s) r s) :
    Shows O (m >>= f) post r s := by
  apply Outline.Proves.bind
  apply Outline.Proves.mono h
  intro answer t hanswer
  obtain ⟨x, r'⟩ := answer
  cases x with
  | ok a => exact hanswer
  | error e => exact hanswer

theorem shows_tryCatch {handle : ε → Program ι Λ σ ρ ε α} (h : Shows O m (fun x r s => match x with
      | .ok a => post (.ok a) r s
      | .error e => Shows O (handle e) post r s) r s) :
    Shows O (tryCatch m handle) post r s := by
  apply Outline.Proves.bind
  apply Outline.Proves.mono h
  intro answer t hanswer
  obtain ⟨x, r'⟩ := answer
  cases x with
  | ok a => exact hanswer
  | error e => exact hanswer

theorem shows_atomically {label : Λ} {t : ι → Transaction σ ε α} (hhere : O.here label s)
    (h : ∀ s', O.inv s' → O.here label s' → O.meets label s' → ∀ i,
      (∀ a s'', t i s' = .ok (a, s'') → post (.ok a) r s'') ∧
      (∀ e, t i s' = .error e → post (.error e) r s')) : Shows O (atomically label t) post r s := by
  refine ⟨hhere, ?_⟩
  intro s' hinv hat hmeets i
  obtain ⟨hok, herror⟩ := h s' hinv hat hmeets i
  cases ht : t i s' with
  | ok answer =>
    simp only [ht]
    exact hok answer.1 answer.2 ht
  | error e =>
    simp only [ht]
    exact herror e ht

end Program

end Interleaving
