import IndagoRev.Transactions

/-!
# Interleaved programs over one store

A process takes atomic actions on a shared store, one after the other; between
two of them any other process may act. A machine starts processes, lets one of
the live ones act, or crashes it, in any order.

A discipline says what the store keeps, what each process may rely on while the
others act, and what is asked of every action. A process that is safe under the
discipline may be run against any others that are: every run then keeps the
invariant. Programs with local data and exceptions are processes, and have one
rule for each way to build them.
-/

namespace Interleaving

open Transactions List

/-- A process: an answer, or an action on the store. The action is labelled,
reads an input that the surroundings choose, and continues with what it found. -/
inductive Proc (ι Λ σ α : Type) where
  | done (answer : α)
  | act (label : Λ) (write : ι → σ → σ) (next : ι → σ → Proc ι Λ σ α)

namespace Proc

variable {ι Λ σ α β : Type}

def bind : Proc ι Λ σ α → (α → Proc ι Λ σ β) → Proc ι Λ σ β
  | .done a, f => f a
  | .act label write next, f => .act label write (fun i s => (next i s).bind f)

/-- The label of the action that a process takes next. -/
def label? : Proc ι Λ σ α → Option Λ
  | .done _ => none
  | .act label _ _ => some label

end Proc

/-- What a group of processes agrees on. The invariant knows how many processes
were started, so that a process can be recognised by its number. -/
structure Discipline (Λ σ : Type) where
  /-- What holds of the store once `k` processes were started. -/
  inv : Nat → σ → Prop
  /-- What process `n` may rely on between two of its actions. -/
  rely : Nat → σ → σ → Prop
  /-- What any action does to the store. -/
  evolves : σ → σ → Prop
  /-- The runs looked at: the actions of process `n` meet this in the state before. -/
  meets : Nat → Λ → σ → Prop
  /-- What is shown of every action of process `n` in the state before it. -/
  good : Nat → Λ → σ → Prop
  rely_refl : ∀ n s, rely n s s
  rely_trans : ∀ n s t u, rely n s t → rely n t u → rely n s u
  evolves_refl : ∀ s, evolves s s
  evolves_trans : ∀ s t u, evolves s t → evolves t u → evolves s u

namespace Discipline

variable {ι Λ σ α β : Type} (D : Discipline Λ σ)

/-- Process `n` may take the store from `s` to `t`. -/
structure Commits (n : Nat) (s t : σ) : Prop where
  keeps : ∀ k, n < k → D.inv k s → D.inv k t
  others : ∀ m, m ≠ n → D.rely m s t
  evolves : D.evolves s t

theorem Commits.refl (n : Nat) (s : σ) : D.Commits n s s :=
  ⟨fun _ _ h => h, fun m _ => D.rely_refl m s, D.evolves_refl s⟩

/-- Process `n` keeps the discipline from the store `s` on and ends in `post`. -/
def Safe (n : Nat) : Proc ι Λ σ α → (α → σ → Prop) → σ → Prop
  | .done a, post, s => post a s
  | .act label write next, post, s =>
    ∀ t, D.rely n s t → ∀ k, n < k → D.inv k t → D.meets n label t →
      D.good n label t ∧ ∀ i, D.Commits n t (write i t) ∧
        Safe n (next i t) post (write i t)

variable {D} {n : Nat}

theorem Commits.trans {s t u : σ} (h : D.Commits n s t) (h' : D.Commits n t u) : D.Commits n s u :=
  ⟨fun k hk hinv => h'.keeps k hk (h.keeps k hk hinv),
    fun m hm => D.rely_trans m s t u (h.others m hm) (h'.others m hm),
    D.evolves_trans s t u h.evolves h'.evolves⟩

variable {p : Proc ι Λ σ α}

theorem Safe.mono {post post' : α → σ → Prop} {s : σ}
    (h : D.Safe n p post s) (himp : ∀ a s, post a s → post' a s) : D.Safe n p post' s := by
  induction p generalizing s with
  | done a => exact himp a s h
  | act label write next ih =>
    intro t hrely k hk hinv hmeets
    obtain ⟨hgood, hnext⟩ := h t hrely k hk hinv hmeets
    exact ⟨hgood, fun i => ⟨(hnext i).1, ih i t (hnext i).2⟩⟩

theorem Safe.bind {f : α → Proc ι Λ σ β} {post : β → σ → Prop}
    {s : σ} (h : D.Safe n p (fun a s => D.Safe n (f a) post s) s) : D.Safe n (p.bind f) post s := by
  induction p generalizing s with
  | done a => exact h
  | act label write next ih =>
    intro t hrely k hk hinv hmeets
    obtain ⟨hgood, hnext⟩ := h t hrely k hk hinv hmeets
    exact ⟨hgood, fun i => ⟨(hnext i).1, ih i t (hnext i).2⟩⟩

/-- What others do between two actions does not matter to a safe process. -/
theorem Safe.stable {s t : σ} (h : D.Safe n p (fun _ _ => True) s) (hrely : D.rely n s t) :
    D.Safe n p (fun _ _ => True) t := by
  cases p with
  | done a => exact trivial
  | act label write next =>
    intro u htu k hk hinv hmeets
    exact h u (D.rely_trans n s t u hrely htu) k hk hinv hmeets

end Discipline

/-- How the processes of a machine start: a call writes the store in one action
and goes on as a process, which is told its number. -/
structure Machine (ι Λ σ κ : Type) where
  start : κ → Nat → ι → σ → σ × Proc ι Λ σ Unit

/-- A store and the processes that were started on it. -/
structure Machine.State (ι Λ σ : Type) where
  store : σ
  procs : List (Proc ι Λ σ Unit)

/-- What can happen next. -/
inductive Event (ι κ : Type) where
  | start (call : κ) (input : ι)
  | step (n : Nat) (input : ι)
  | crash (n : Nat)

namespace Machine

variable {ι Λ σ κ : Type} (M : Machine ι Λ σ κ)

def next (st : State ι Λ σ) : Event ι κ → State ι Λ σ
  | .start call i =>
    let started := M.start call st.procs.length i st.store
    ⟨started.1, st.procs ++ [started.2]⟩
  | .step n i =>
    match st.procs[n]? with
    | some (.act _ write next) => ⟨write i st.store, st.procs.set n (next i st.store)⟩
    | _ => st
  | .crash n => ⟨st.store, st.procs.set n (.done ())⟩

variable (st : State ι Λ σ)

/-- The state after a run of events. -/
def run (events : List (Event ι κ)) : State ι Λ σ :=
  events.foldl M.next st

variable {M}

@[simp] theorem run_nil : M.run st [] = st := rfl

@[simp] theorem run_cons (e : Event ι κ) (rest : List (Event ι κ)) :
    M.run st (e :: rest) = M.run (M.next st e) rest := rfl

theorem run_append (events more : List (Event ι κ)) :
    M.run st (events ++ more) = M.run (M.run st events) more := by
  simp [run]

theorem crash_done {st : State ι Λ σ} {n : Nat} (h : n < st.procs.length) :
    (M.next st (.crash n)).procs[n]? = some (.done ()) := by
  simp [next, getElem?_set_self h]

end Machine

namespace Discipline

variable {ι Λ σ κ : Type} (D : Discipline Λ σ) (M : Machine ι Λ σ κ)

/-- A property of the action that an event takes, where it takes one. -/
def OnAction (property : Nat → Λ → σ → Prop) (st : Machine.State ι Λ σ) : Event ι κ → Prop
  | .step n _ => ∀ label, (st.procs[n]?).bind Proc.label? = some label →
      property n label st.store
  | _ => True

/-- Every action of the run meets the condition of the discipline. -/
def Meets : Machine.State ι Λ σ → List (Event ι κ) → Prop
  | _, [] => True
  | st, e :: rest => OnAction D.meets st e ∧ Meets (M.next st e) rest

instance OnAction.decidable {property : Nat → Λ → σ → Prop}
    [∀ n label s, Decidable (property n label s)] (st : Machine.State ι Λ σ) :
    (e : Event ι κ) → Decidable (OnAction property st e)
  | .step n _ =>
    match h : (st.procs[n]?).bind Proc.label? with
    | none => isTrue (fun label hlabel => by rw [h] at hlabel; cases hlabel)
    | some label => decidable_of_iff (property n label st.store)
        ⟨fun hprop other hother => by rw [h] at hother; cases hother; exact hprop,
          fun hall => hall label h⟩
  | .start _ _ => isTrue trivial
  | .crash _ => isTrue trivial

instance Meets.decidable [∀ n label s, Decidable (D.meets n label s)] :
    (st : Machine.State ι Λ σ) → (events : List (Event ι κ)) → Decidable (Meets D M st events)
  | _, [] => isTrue trivial
  | st, e :: rest =>
    have := Meets.decidable (M.next st e) rest
    inferInstanceAs (Decidable (OnAction D.meets st e ∧ Meets D M (M.next st e) rest))

variable {st : Machine.State ι Λ σ}

theorem meets_append (D : Discipline Λ σ) {M : Machine ι Λ σ κ} {events more : List (Event ι κ)} :
    D.Meets M st (events ++ more) ↔ D.Meets M st events ∧ D.Meets M (M.run st events) more := by
  induction events generalizing st with
  | nil => simp [Meets]
  | cons e rest ih => simp [Meets, ih, and_assoc]

theorem meets_of_forall {D : Discipline Λ σ} {M : Machine ι Λ σ κ}
    (h : ∀ n label s, D.meets n label s) (st : Machine.State ι Λ σ) (events : List (Event ι κ)) :
    D.Meets M st events := by
  induction events generalizing st with
  | nil => exact trivial
  | cons e rest ih =>
    refine ⟨?_, ih _⟩
    cases e with
    | step n i => exact fun label _ => h n label st.store
    | start call i => exact trivial
    | crash n => exact trivial

/-- What each way to start a process has to establish. -/
def Starts : Prop :=
  ∀ call k i s, D.inv k s →
    D.inv (k + 1) (M.start call k i s).1 ∧
    (∀ m, m < k → D.rely m s (M.start call k i s).1) ∧
    D.evolves s (M.start call k i s).1 ∧
    D.Safe k (M.start call k i s).2 (fun _ _ => True) (M.start call k i s).1

/-- A state in which the invariant holds and every process is safe. -/
structure Holds (st : Machine.State ι Λ σ) : Prop where
  inv : D.inv st.procs.length st.store
  safe : ∀ n p, st.procs[n]? = some p → D.Safe n p (fun _ _ => True) st.store

variable {D M}

theorem Holds.start (hstarts : D.Starts M) {st : Machine.State ι Λ σ} (h : D.Holds st)
    (call : κ) (i : ι) : D.Holds (M.next st (.start call i)) ∧
      D.evolves st.store (M.next st (.start call i)).store := by
  obtain ⟨hinv, hrely, hevolves, hsafe⟩ := hstarts call st.procs.length i st.store h.inv
  refine ⟨⟨by simpa [Machine.next] using hinv, ?_⟩, hevolves⟩
  intro n p hp
  simp only [Machine.next] at hp ⊢
  rcases Nat.lt_trichotomy n st.procs.length with hlt | heq | hgt
  · rw [getElem?_append_left hlt] at hp
    exact (h.safe n p hp).stable (hrely n hlt)
  · subst heq
    simp only [getElem?_concat_length, Option.some.injEq] at hp
    subst hp
    exact hsafe
  · have hnone : (st.procs ++ [(M.start call st.procs.length i st.store).2])[n]? = none := by
      apply getElem?_eq_none
      simp
      omega
    rw [hnone] at hp
    cases hp

theorem Holds.step {st : Machine.State ι Λ σ} (h : D.Holds st) (n : Nat) (i : ι)
    (hmeets : OnAction D.meets st (.step n i : Event ι κ)) :
    D.Holds (M.next st (.step n i)) ∧ D.evolves st.store (M.next st (.step n i)).store ∧
      OnAction D.good st (.step n i : Event ι κ) := by
  cases hproc : st.procs[n]? with
  | none =>
    have hsame : M.next st (.step n i) = st := by simp [Machine.next, hproc]
    rw [hsame]
    exact ⟨h, D.evolves_refl _, by intro label hlabel; simp [hproc] at hlabel⟩
  | some p =>
    cases p with
    | done a =>
      have hsame : M.next st (.step n i) = st := by simp [Machine.next, hproc]
      rw [hsame]
      exact ⟨h, D.evolves_refl _,
        by intro label hlabel; simp [hproc, Proc.label?] at hlabel⟩
    | act label write next =>
      have hlt : n < st.procs.length := (List.getElem?_eq_some_iff.mp hproc).1
      have hlabel : D.meets n label st.store := hmeets label (by simp [hproc, Proc.label?])
      obtain ⟨hgood, hnext⟩ := h.safe n _ hproc st.store (D.rely_refl n _)
        st.procs.length hlt h.inv hlabel
      obtain ⟨hcommits, hsafe⟩ := hnext i
      have hstep : M.next st (.step n i) =
          ⟨write i st.store, st.procs.set n (next i st.store)⟩ := by
        simp [Machine.next, hproc]
      rw [hstep]
      refine ⟨⟨?_, ?_⟩, hcommits.evolves, ?_⟩
      · simpa using hcommits.keeps _ hlt h.inv
      · intro m q hq
        by_cases hm : m = n
        · subst hm
          simp only [getElem?_set_self hlt, Option.some.injEq] at hq
          subst hq
          exact hsafe
        · rw [getElem?_set_ne (Ne.symm hm)] at hq
          exact (h.safe m q hq).stable (hcommits.others m hm)
      · intro other hother
        simp only [hproc, Option.bind_some, Proc.label?, Option.some.injEq] at hother
        subst hother
        exact hgood

theorem Holds.crash (h : D.Holds st) (n : Nat) : D.Holds (M.next st (.crash n)) := by
  refine ⟨by simpa [Machine.next] using h.inv, ?_⟩
  intro m q hq
  simp only [Machine.next] at hq ⊢
  by_cases hm : m = n
  · subst hm
    have hdone : q = .done () := by
      by_cases hlt : m < st.procs.length
      · rw [getElem?_set_self hlt] at hq
        exact (Option.some.inj hq).symm
      · rw [getElem?_eq_none (by simpa using Nat.le_of_not_lt hlt)] at hq
        cases hq
    rw [hdone]
    exact trivial
  · rw [getElem?_set_ne (Ne.symm hm)] at hq
    exact h.safe m q hq

/-- Every run of a machine whose processes are safe, and whose actions meet the
condition, keeps the invariant, evolves the store, and takes good actions only. -/
theorem Holds.run (hstarts : D.Starts M) (h : D.Holds st)
    (events : List (Event ι κ)) (hmeets : D.Meets M st events) :
    D.Holds (M.run st events) ∧ D.evolves st.store (M.run st events).store := by
  induction events generalizing st with
  | nil => exact ⟨h, D.evolves_refl _⟩
  | cons e rest ih =>
    obtain ⟨hfirst, hrest⟩ := hmeets
    have hnext : D.Holds (M.next st e) ∧ D.evolves st.store (M.next st e).store := by
      cases e with
      | start call i => exact h.start hstarts call i
      | step n i => exact ⟨(h.step n i hfirst).1, (h.step n i hfirst).2.1⟩
      | crash n => exact ⟨h.crash n, D.evolves_refl _⟩
    obtain ⟨hholds, hevolves⟩ := ih hnext.1 hrest
    exact ⟨hholds, D.evolves_trans _ _ _ hnext.2 hevolves⟩

/-- While a process that has ended rests, the others keep what it relies on. -/
theorem Holds.run_rely (hstarts : D.Starts M) (h : D.Holds st) {n : Nat}
    (hdone : st.procs[n]? = some (.done ())) (events : List (Event ι κ))
    (hmeets : D.Meets M st events) : D.rely n st.store (M.run st events).store := by
  induction events generalizing st with
  | nil => exact D.rely_refl n st.store
  | cons e rest ih =>
    obtain ⟨hfirst, hrest⟩ := hmeets
    have hlt : n < st.procs.length := (List.getElem?_eq_some_iff.mp hdone).1
    have hnext : D.Holds (M.next st e) ∧ D.rely n st.store (M.next st e).store ∧
        (M.next st e).procs[n]? = some (.done ()) := by
      cases e with
      | start call i =>
        refine ⟨(h.start hstarts call i).1,
          (hstarts call st.procs.length i st.store h.inv).2.1 n hlt, ?_⟩
        simp only [Machine.next]
        rw [getElem?_append_left hlt]
        exact hdone
      | step m i =>
        refine ⟨(h.step m i hfirst).1, ?_⟩
        cases hproc : st.procs[m]? with
        | none =>
          have hsame : M.next st (.step m i) = st := by simp [Machine.next, hproc]
          rw [hsame]
          exact ⟨D.rely_refl n st.store, hdone⟩
        | some p =>
          cases p with
          | done a =>
            have hsame : M.next st (.step m i) = st := by simp [Machine.next, hproc]
            rw [hsame]
            exact ⟨D.rely_refl n st.store, hdone⟩
          | act label write next =>
            have hne : m ≠ n := by
              rintro rfl
              rw [hdone] at hproc
              cases hproc
            have hmlt : m < st.procs.length := (List.getElem?_eq_some_iff.mp hproc).1
            have hlabel : D.meets m label st.store :=
              hfirst label (by simp [hproc, Proc.label?])
            obtain ⟨-, hcommits⟩ := h.safe m _ hproc st.store (D.rely_refl m _)
              st.procs.length hmlt h.inv hlabel
            have hstep : M.next st (.step m i) =
                ⟨write i st.store, st.procs.set m (next i st.store)⟩ := by
              simp [Machine.next, hproc]
            rw [hstep]
            refine ⟨(hcommits i).1.others n hne.symm, ?_⟩
            rw [getElem?_set_ne hne]
            exact hdone
      | crash m =>
        refine ⟨h.crash m, D.rely_refl n st.store, ?_⟩
        simp only [Machine.next]
        by_cases hm : m = n
        · rw [hm, getElem?_set_self hlt]
        · rw [getElem?_set_ne hm]
          exact hdone
    exact D.rely_trans n _ _ _ hnext.2.1 (ih hnext.1 hnext.2.2 hrest)

end Discipline

/-- A process with local data of type `ρ` that may end in an exception. The local
data outlive the exception. -/
def Program (ι Λ σ ρ ε α : Type) : Type := ρ → Proc ι Λ σ (Except ε α × ρ)

namespace Program

variable {ι Λ σ ρ ε α β : Type}

instance : Monad (Program ι Λ σ ρ ε) where
  pure a := fun r => .done (.ok a, r)
  bind m f := fun r => (m r).bind fun answer =>
    match answer.1 with
    | .ok a => f a answer.2
    | .error e => .done (.error e, answer.2)

instance : MonadExceptOf ε (Program ι Λ σ ρ ε) where
  throw e := fun r => .done (.error e, r)
  tryCatch m handle := fun r => (m r).bind fun answer =>
    match answer.1 with
    | .ok a => .done (.ok a, answer.2)
    | .error e => handle e answer.2

instance : MonadStateOf ρ (Program ι Λ σ ρ ε) where
  get := fun r => .done (.ok r, r)
  set r := fun _ => .done (.ok ⟨⟩, r)
  modifyGet f := fun r => .done (.ok (f r).1, (f r).2)

/-- One transaction on the store as an action of the program. -/
def atomically (label : Λ) (t : ι → Transaction σ ε α) : Program ι Λ σ ρ ε α :=
  fun r => .act label
    (fun i s => match t i s with
      | .ok answer => answer.2
      | .error _ => s)
    (fun i s => match t i s with
      | .ok answer => .done (.ok answer.1, r)
      | .error e => .done (.error e, r))

/-- The process of a program that starts with the given local data. -/
def process (m : Program ι Λ σ ρ ε α) (r : ρ) : Proc ι Λ σ Unit :=
  (m r).bind (fun _ => .done ())

variable (D : Discipline Λ σ) (n : Nat)

/-- Process `n`, running `m` from the local data `r`, keeps the discipline and
ends in `post`. -/
def Ensures (m : Program ι Λ σ ρ ε α) (post : Except ε α → ρ → σ → Prop) (r : ρ) (s : σ) : Prop :=
  D.Safe n (m r) (fun answer s => post answer.1 answer.2 s) s

variable {D n} {post post' : Except ε α → ρ → σ → Prop} {r : ρ} {s : σ} {m : Program ι Λ σ ρ ε α}

theorem Ensures.mono (h : Ensures D n m post r s)
    (himp : ∀ x r s, post x r s → post' x r s) : Ensures D n m post' r s :=
  Discipline.Safe.mono h (fun _ _ hpost => himp _ _ _ hpost)

theorem Ensures.process (h : Ensures D n m post r s) : D.Safe n (m.process r) (fun _ _ => True) s :=
  Discipline.Safe.bind (Discipline.Safe.mono h (fun _ _ _ => trivial))

theorem ensures_pure {a : α} (h : post (.ok a) r s) :
    Ensures D n (pure a : Program ι Λ σ ρ ε α) post r s := h

theorem ensures_throw {e : ε} (h : post (.error e) r s) :
    Ensures D n (throw e : Program ι Λ σ ρ ε α) post r s := h

theorem ensures_get {post : Except ε ρ → ρ → σ → Prop} (h : post (.ok r) r s) :
    Ensures D n (get : Program ι Λ σ ρ ε ρ) post r s := h

theorem ensures_set {post : Except ε PUnit → ρ → σ → Prop} {r' : ρ} (h : post (.ok ⟨⟩) r' s) :
    Ensures D n (set r' : Program ι Λ σ ρ ε PUnit) post r s := h

theorem ensures_modify {post : Except ε PUnit → ρ → σ → Prop} {f : ρ → ρ}
    (h : post (.ok ⟨⟩) (f r) s) : Ensures D n (modify f : Program ι Λ σ ρ ε PUnit) post r s := h

variable {f : α → Program ι Λ σ ρ ε β}

theorem ensures_bind {post : Except ε β → ρ → σ → Prop}
    (h : Ensures D n m (fun x r s => match x with
      | .ok a => Ensures D n (f a) post r s
      | .error e => post (.error e) r s) r s) :
    Ensures D n (m >>= f) post r s := by
  apply Discipline.Safe.bind
  apply Discipline.Safe.mono h
  intro answer t hanswer
  obtain ⟨x, r'⟩ := answer
  cases x with
  | ok a => exact hanswer
  | error e => exact hanswer

variable {handle : ε → Program ι Λ σ ρ ε α}

theorem ensures_tryCatch (h : Ensures D n m (fun x r s => match x with
      | .ok a => post (.ok a) r s
      | .error e => Ensures D n (handle e) post r s) r s) :
    Ensures D n (tryCatch m handle) post r s := by
  apply Discipline.Safe.bind
  apply Discipline.Safe.mono h
  intro answer t hanswer
  obtain ⟨x, r'⟩ := answer
  cases x with
  | ok a => exact hanswer
  | error e => exact hanswer

variable {t : ι → Transaction σ ε α}

theorem ensures_atomically {label : Λ}
    (h : ∀ s', D.rely n s s' → ∀ k, n < k → D.inv k s' → D.meets n label s' →
      D.good n label s' ∧ ∀ i,
        (∀ a s'', t i s' = .ok (a, s'') → D.Commits n s' s'' ∧ post (.ok a) r s'') ∧
        (∀ e, t i s' = .error e → post (.error e) r s')) :
    Ensures D n (atomically label t) post r s := by
  intro s' hrely k hk hinv hmeets
  obtain ⟨hgood, hnext⟩ := h s' hrely k hk hinv hmeets
  refine ⟨hgood, ?_⟩
  intro i
  obtain ⟨hok, herror⟩ := hnext i
  cases ht : t i s' with
  | ok answer =>
    obtain ⟨hcommits, hpost⟩ := hok answer.1 answer.2 ht
    simp only [ht]
    exact ⟨hcommits, hpost⟩
  | error e =>
    simp only [ht]
    exact ⟨.refl D n s', herror e ht⟩

variable (D n) in
/-- A program keeps a condition on its local data and the store, however it ends. -/
def Keeps (P : ρ → σ → Prop) (m : Program ι Λ σ ρ ε α) : Prop :=
  ∀ r s, P r s → Ensures D n m (fun _ r s => P r s) r s

section Keeps

variable {P : ρ → σ → Prop}

theorem keeps_pure (a : α) : Keeps D n P (pure a : Program ι Λ σ ρ ε α) := fun _ _ h => h

theorem keeps_throw (e : ε) : Keeps D n P (throw e : Program ι Λ σ ρ ε α) := fun _ _ h => h

theorem keeps_get : Keeps D n P (get : Program ι Λ σ ρ ε ρ) := fun _ _ h => h

theorem keeps_modify {f : ρ → ρ} (h : ∀ r s, P r s → P (f r) s) :
    Keeps D n P (modify f : Program ι Λ σ ρ ε PUnit) := h

theorem Keeps.bind (h : Keeps D n P m) (hf : ∀ a, Keeps D n P (f a)) : Keeps D n P (m >>= f) := by
  intro r s hp
  apply ensures_bind
  apply (h r s hp).mono
  intro x r s hp
  cases x with
  | ok a => exact hf a r s hp
  | error e => exact hp

theorem Keeps.tryCatch (h : Keeps D n P m) (hhandle : ∀ e, Keeps D n P (handle e)) :
    Keeps D n P (MonadExcept.tryCatch m handle) := by
  intro r s hp
  apply ensures_tryCatch
  apply (h r s hp).mono
  intro x r s hp
  cases x with
  | ok a => exact hp
  | error e => exact hhandle e r s hp

theorem keeps_atomically {label : Λ}
    (hstable : ∀ r s s', D.rely n s s' → P r s → P r s') (hgood : ∀ s, D.good n label s)
    (h : ∀ r s k i a s', P r s → n < k → D.inv k s → t i s = .ok (a, s') →
      D.Commits n s s' ∧ P r s') : Keeps D n P (atomically label t : Program ι Λ σ ρ ε α) := by
  intro r s hp
  apply ensures_atomically
  intro s' hrely k hk hinv _
  have hp' := hstable r s s' hrely hp
  exact ⟨hgood s', fun i => ⟨fun a s'' ht => h r s' k i a s'' hp' hk hinv ht, fun _ _ => hp'⟩⟩

end Keeps

end Program

section Each

variable {ι Λ σ ρ κ ε α β : Type} (does : Option Λ → ι → σ → σ → Prop)

/-- Every action of a process does this to the store, whatever it finds there. -/
def Proc.Each : Proc ι Λ σ α → Prop
  | .done _ => True
  | .act label write next => ∀ i s, does (some label) i s (write i s) ∧ (next i s).Each

variable {does} {does' : Option Λ → ι → σ → σ → Prop}

theorem Proc.Each.mono {p : Proc ι Λ σ α}
    (h : p.Each does) (himp : ∀ label i s t, does label i s t → does' label i s t) :
    p.Each does' := by
  induction p with
  | done a => trivial
  | act label write next ih => exact fun i s => ⟨himp _ _ _ _ (h i s).1, ih i s (h i s).2⟩

theorem Proc.Each.bind {p : Proc ι Λ σ α} {f : α → Proc ι Λ σ β} (h : p.Each does)
    (hf : ∀ a, (f a).Each does) : (p.bind f).Each does := by
  induction p with
  | done a => exact hf a
  | act label write next ih => exact fun i s => ⟨(h i s).1, ih i s (h i s).2⟩

/-- What an event does to the store: nothing, or what its action does. -/
inductive Machine.Does (does : Option Λ → ι → σ → σ → Prop) (st : Machine.State ι Λ σ)
    (t : σ) : Event ι κ → Prop where
  | still (e : Event ι κ) (h : t = st.store) : Does does st t e
  | start (call : κ) (i : ι) (h : does none i st.store t) : Does does st t (.start call i)
  | step (n : Nat) (i : ι) (label : Λ) (hlabel : (st.procs[n]?).bind Proc.label? = some label)
      (h : does (some label) i st.store t) : Does does st t (.step n i)

variable {st : Machine.State ι Λ σ}

theorem Machine.next_each {M : Machine ι Λ σ κ}
    (hstart : ∀ call n i s, does none i s (M.start call n i s).1 ∧
      (M.start call n i s).2.Each does) (h : ∀ p ∈ st.procs, p.Each does) (e : Event ι κ) :
    Machine.Does does st (M.next st e).store e ∧ ∀ p ∈ (M.next st e).procs, p.Each does := by
  cases e with
  | start call i =>
    obtain ⟨hdoes, heach⟩ := hstart call st.procs.length i st.store
    refine ⟨.start call i hdoes, ?_⟩
    intro p hp
    rcases mem_append.mp hp with hold | hnew
    · exact h p hold
    · rw [mem_singleton.mp hnew]
      exact heach
  | step n i =>
    cases hproc : st.procs[n]? with
    | none =>
      have hsame : M.next st (.step n i) = st := by simp [Machine.next, hproc]
      rw [hsame]
      exact ⟨.still _ rfl, h⟩
    | some p =>
      have hp := h p (mem_of_getElem? hproc)
      cases p with
      | done a =>
        have hsame : M.next st (.step n i) = st := by simp [Machine.next, hproc]
        rw [hsame]
        exact ⟨.still _ rfl, h⟩
      | act label write next =>
        obtain ⟨hdoes, hnext⟩ := hp i st.store
        have hstep : M.next st (.step n i) =
            ⟨write i st.store, st.procs.set n (next i st.store)⟩ := by
          simp [Machine.next, hproc]
        rw [hstep]
        refine ⟨.step n i label (by rw [hproc]; rfl) hdoes, ?_⟩
        intro q hq
        rcases mem_or_eq_of_mem_set hq with hold | rfl
        · exact h q hold
        · exact hnext
  | crash n =>
    refine ⟨.still _ rfl, ?_⟩
    intro p hp
    rcases mem_or_eq_of_mem_set hp with hold | rfl
    · exact h p hold
    · trivial

theorem Machine.run_each {M : Machine ι Λ σ κ} (hstart : ∀ call n i s,
      does none i s (M.start call n i s).1 ∧ (M.start call n i s).2.Each does)
    (h : ∀ p ∈ st.procs, p.Each does) (events : List (Event ι κ))
    (e : Event ι κ) : Machine.Does does (M.run st events) (M.next (M.run st events) e).store e := by
  induction events generalizing st with
  | nil => exact (next_each hstart h e).1
  | cons first rest ih => exact ih (next_each hstart h first).2

/-- Every action of a program does this to the store. -/
def Program.Each (does : Option Λ → ι → σ → σ → Prop) (m : Program ι Λ σ ρ ε α) : Prop :=
  ∀ r, (m r).Each does

namespace Program

variable {m : Program ι Λ σ ρ ε α}

theorem Each.mono (h : m.Each does) (himp : ∀ label i s t, does label i s t → does' label i s t) :
    m.Each does' := fun r => (h r).mono himp

theorem Each.process (h : m.Each does) (r : ρ) :
    (m.process r).Each does := (h r).bind (fun _ => trivial)

theorem each_pure (a : α) : (pure a : Program ι Λ σ ρ ε α).Each does := fun _ => trivial

theorem each_throw (e : ε) : (throw e : Program ι Λ σ ρ ε α).Each does := fun _ => trivial

theorem each_get : (get : Program ι Λ σ ρ ε ρ).Each does := fun _ => trivial

theorem each_modify (f : ρ → ρ) : (modify f : Program ι Λ σ ρ ε PUnit).Each does := fun _ => trivial

theorem Each.bind {f : α → Program ι Λ σ ρ ε β} (h : m.Each does)
    (hf : ∀ a, (f a).Each does) : (m >>= f).Each does := by
  intro r
  apply (h r).bind
  rintro ⟨x, r'⟩
  cases x with
  | ok a => exact hf a r'
  | error e => trivial

theorem each_ite {c : Prop} [Decidable c] {m m' : Program ι Λ σ ρ ε α} (h : m.Each does)
    (h' : m'.Each does) : (if c then m else m').Each does := by
  split
  · exact h
  · exact h'

theorem Each.tryCatch {handle : ε → Program ι Λ σ ρ ε α}
    (h : m.Each does) (hhandle : ∀ e, (handle e).Each does) :
    (MonadExcept.tryCatch m handle).Each does := by
  intro r
  apply (h r).bind
  rintro ⟨x, r'⟩
  cases x with
  | ok a => trivial
  | error e => exact hhandle e r'

theorem each_atomically {label : Λ} {t : ι → Transaction σ ε α}
    (hsame : ∀ i s, does (some label) i s s)
    (h : ∀ i s a s', t i s = .ok (a, s') → does (some label) i s s') :
    (atomically label t : Program ι Λ σ ρ ε α).Each does := by
  intro r i s
  cases ht : t i s with
  | ok answer =>
    simp only [ht]
    exact ⟨h i s answer.1 answer.2 ht, trivial⟩
  | error e =>
    simp only [ht]
    exact ⟨hsame i s, trivial⟩

end Program

end Each

section Ends

variable {ι Λ σ ρ ε α β : Type} {D : Discipline Λ σ} {n : Nat}

/-- Whatever it finds, a process ends with such an answer. -/
def Proc.Ends (post : α → Prop) : Proc ι Λ σ α → Prop
  | .done a => post a
  | .act _ _ next => ∀ i s, (next i s).Ends post

theorem Proc.Ends.bind {post : α → Prop} {post' : β → Prop} {p : Proc ι Λ σ α}
    {f : α → Proc ι Λ σ β} (h : p.Ends post) (hf : ∀ a, post a → (f a).Ends post') :
    (p.bind f).Ends post' := by
  induction p with
  | done a => exact hf a h
  | act label write next ih => exact fun i s => ih i s (h i s)

theorem Discipline.Safe.ends {post : α → σ → Prop} {ends : α → Prop} {p : Proc ι Λ σ α} {s : σ}
    (h : D.Safe n p post s) (hends : p.Ends ends) :
    D.Safe n p (fun a s => post a s ∧ ends a) s := by
  induction p generalizing s with
  | done a => exact ⟨h, hends⟩
  | act label write next ih =>
    intro t hrely k hk hinv hmeets
    obtain ⟨hgood, hnext⟩ := h t hrely k hk hinv hmeets
    exact ⟨hgood, fun i => ⟨(hnext i).1, ih i t (hnext i).2 (hends i t)⟩⟩

/-- Every exception of a program is an allowed one. -/
def Program.Raises (allowed : ε → Prop) (m : Program ι Λ σ ρ ε α) : Prop :=
  ∀ r, (m r).Ends (fun answer => ∀ e, answer.1 = .error e → allowed e)

namespace Program

variable {allowed : ε → Prop}

theorem raises_pure (a : α) : (pure a : Program ι Λ σ ρ ε α).Raises allowed :=
  fun _ _ h => by cases h

theorem raises_throw {e : ε} (h : allowed e) : (throw e : Program ι Λ σ ρ ε α).Raises allowed :=
  fun _ _ he => by
    cases he
    exact h

theorem raises_get : (get : Program ι Λ σ ρ ε ρ).Raises allowed := fun _ _ h => by cases h

theorem raises_modify (f : ρ → ρ) : (modify f : Program ι Λ σ ρ ε PUnit).Raises allowed :=
  fun _ _ h => by cases h

variable {m : Program ι Λ σ ρ ε α}

theorem Raises.bind {f : α → Program ι Λ σ ρ ε β}
    (h : m.Raises allowed) (hf : ∀ a, (f a).Raises allowed) : (m >>= f).Raises allowed := by
  intro r
  apply (h r).bind
  rintro ⟨x, r'⟩ hx
  cases x with
  | ok a => exact hf a r'
  | error e =>
    intro e' he'
    cases he'
    exact hx e rfl

theorem raises_ite {c : Prop} [Decidable c] {m m' : Program ι Λ σ ρ ε α} (h : m.Raises allowed)
    (h' : m'.Raises allowed) : (if c then m else m').Raises allowed := by
  split
  · exact h
  · exact h'

theorem raises_atomically {label : Λ} {t : ι → Transaction σ ε α}
    (h : ∀ i s e, t i s = .error e → allowed e) :
    (atomically label t : Program ι Λ σ ρ ε α).Raises allowed := by
  intro r i s
  cases ht : t i s with
  | ok answer =>
    simp only [ht]
    exact fun _ he => by cases he
  | error e =>
    simp only [ht]
    intro e' he'
    cases he'
    exact h i s e ht

theorem Ensures.raises {post : Except ε α → ρ → σ → Prop} {r : ρ} {s : σ}
    (h : Ensures D n m post r s) (hraises : m.Raises allowed) :
    Ensures D n m (fun x r s => post x r s ∧ ∀ e, x = .error e → allowed e) r s :=
  Discipline.Safe.ends h (hraises r)

end Program

end Ends

section Parts

variable {ι ι' Λ Λ' σ σ' ρ ρ' ε ε' α : Type}

/-- How a part lies in a larger store, with the inputs and labels of both. -/
structure Part (ι ι' Λ Λ' σ σ' : Type) where
  input : ι' → ι
  label : Λ → Λ'
  view : σ' → σ
  put : σ → σ' → σ'
  view_put : ∀ s t, view (put s t) = s

/-- A process on a part, as a process on the whole. -/
def Proc.embed (part : Part ι ι' Λ Λ' σ σ') : Proc ι Λ σ α → Proc ι' Λ' σ' α
  | .done a => .done a
  | .act label write next => .act (part.label label)
      (fun i s => part.put (write (part.input i) (part.view s)) s)
      (fun i s => (next (part.input i) (part.view s)).embed part)

/-- A program on a part. Its own local data start anew. -/
def Program.embed (part : Part ι ι' Λ Λ' σ σ') (error : ε → ε') (m : Program ι Λ σ ρ ε α)
    (r : ρ) : Program ι' Λ' σ' ρ' ε' α := fun r' =>
  ((m r).embed part).bind fun answer => .done (answer.1.mapError error, r')

/-- A discipline of the whole that contains one of the part, for what process `n`
does there. -/
structure Discipline.Contains (D' : Discipline Λ' σ') (part : Part ι ι' Λ Λ' σ σ')
    (D : Discipline Λ σ) (does : Option Λ → ι → σ → σ → Prop) (n : Nat) : Prop where
  inv : ∀ k s, D'.inv k s → D.inv k (part.view s)
  rely : ∀ s t, D'.rely n s t → D.rely n (part.view s) (part.view t)
  meets : ∀ label s, D.meets n label (part.view s)
  good : ∀ label s, D'.good n (part.label label) s
  commits : ∀ k s label i t, n < k → D'.inv k s → D.Commits n (part.view s) t →
    does (some label) i (part.view s) t → D'.Commits n s (part.put t s)

variable {part : Part ι ι' Λ Λ' σ σ'} {does : Option Λ → ι → σ → σ → Prop}

/-- What is safe on a part is safe on the whole, and keeps there what the others
keep and what lies outside of the part. -/
theorem Discipline.Safe.embed {D' : Discipline Λ' σ'} {D : Discipline Λ σ} {n : Nat}
    (hcontains : D'.Contains part D does n) {Q : σ' → Prop}
    (hstable : ∀ s t, D'.rely n s t → Q s → Q t)
    (hput : ∀ s t, D.Commits n (part.view s) t → Q s → Q (part.put t s))
    {p : Proc ι Λ σ α} {post : α → σ → Prop} {s : σ'} (h : D.Safe n p post (part.view s))
    (heach : p.Each does) (hq : Q s) :
    D'.Safe n (p.embed part) (fun a s => post a (part.view s) ∧ Q s) s := by
  induction p generalizing s with
  | done a => exact ⟨h, hq⟩
  | act label write next ih =>
    intro t hrely k hk hinv _
    obtain ⟨_, hnext⟩ := h (part.view t) (hcontains.rely s t hrely) k hk (hcontains.inv k t hinv)
      (hcontains.meets label t)
    refine ⟨hcontains.good label t, ?_⟩
    intro i
    obtain ⟨hcommits, hsafe⟩ := hnext (part.input i)
    obtain ⟨hdoes, heach'⟩ := heach (part.input i) (part.view t)
    refine ⟨hcontains.commits k t label _ _ hk hinv hcommits hdoes, ?_⟩
    apply ih
    · rw [part.view_put]
      exact hsafe
    · exact heach'
    · exact hput t _ hcommits (hstable s t hrely hq)

theorem Program.Ensures.embed {D' : Discipline Λ' σ'} {D : Discipline Λ σ} {n : Nat}
    (hcontains : D'.Contains part D does n) {Q : ρ' → σ' → Prop}
    (hstable : ∀ r s t, D'.rely n s t → Q r s → Q r t)
    (hput : ∀ r s t, D.Commits n (part.view s) t → Q r s → Q r (part.put t s))
    {m : Program ι Λ σ ρ ε α} {error : ε → ε'} {r : ρ} {r' : ρ'} {s : σ'}
    (h : Program.Ensures D n m (fun _ _ _ => True) r (part.view s)) (heach : m.Each does)
    (hq : Q r' s) :
    Program.Ensures D' n (Program.embed part error m r) (fun _ r s => Q r s) r' s := by
  apply Discipline.Safe.bind
  apply Discipline.Safe.mono
    (Discipline.Safe.embed hcontains (hstable r') (hput r') h (heach r) hq)
  exact fun _ _ hpost => hpost.2

variable {does' : Option Λ' → ι' → σ' → σ' → Prop}

/-- A process on a part does to the whole what each change of the part does. -/
theorem Proc.each_embed (hpart : ∀ label i s t, does' (some (part.label label)) i s
      (part.put t s)) (p : Proc ι Λ σ α) : (p.embed part).Each does' := by
  induction p with
  | done a => trivial
  | act label write next ih => exact fun i s => ⟨hpart label i s _, ih _ _⟩

theorem Program.Each.embed (hpart : ∀ label i s t, does' (some (part.label label)) i s
      (part.put t s)) (error : ε → ε') (m : Program ι Λ σ ρ ε α) (r : ρ) :
    (Program.embed part error m r : Program ι' Λ' σ' ρ' ε' α).Each does' := by
  intro r'
  apply Proc.Each.bind
  · exact Proc.each_embed hpart (m r)
  · exact fun _ => trivial

end Parts

end Interleaving
