import Mathlib

/-!
# Serialised transactions

A transaction reads a store and either commits a new store with an answer or
throws; a throw leaves the store as it was. A service runs one transaction per
call, so a run is the list of its calls in the order the store serialised them.
What one call preserves, every run preserves.
-/

namespace Transactions

open List

/-- A transaction over `σ` that answers `α` or throws `ε`. -/
abbrev Transaction (σ ε α : Type) := StateT σ (Except ε) α

section Steps

variable {σ ε α β : Type} {s : σ} {x : Transaction σ ε α}

@[simp] theorem bind_ok {f : α → Transaction σ ε β} {r : β × σ} :
    (x >>= f) s = .ok r ↔ ∃ a s', x s = .ok (a, s') ∧ f a s' = .ok r := by
  change (x s >>= fun p => f p.1 p.2) = .ok r ↔ _
  cases hx : x s with
  | error e => simp [bind, Except.bind]
  | ok p =>
    constructor
    · intro h
      exact ⟨p.1, p.2, rfl, h⟩
    · intro ⟨a, s', hp, hf⟩
      cases hp
      exact hf

@[simp] theorem pure_ok {a : α} {r : α × σ} :
    (pure a : Transaction σ ε α) s = .ok r ↔ r = (a, s) := by
  change Except.ok (a, s) = .ok r ↔ _
  constructor
  · intro h
    cases h
    rfl
  · intro h
    rw [h]

@[simp] theorem map_ok {f : α → β} {r : β × σ} :
    (f <$> x) s = .ok r ↔ ∃ a s', x s = .ok (a, s') ∧ r = (f a, s') := by
  rw [map_eq_pure_bind, bind_ok]
  simp only [pure_ok]

theorem map_error {f : α → β} {e : ε} (h : x s = .error e) : (f <$> x) s = .error e := by
  simp [StateT.map, Functor.map, h, bind, Except.bind]

@[simp] theorem get_ok {r : σ × σ} :
    (get : Transaction σ ε σ) s = .ok r ↔ r = (s, s) := pure_ok (s := s) (a := s)

variable {r : PUnit × σ}

@[simp] theorem set_ok {t : σ} : (set t : Transaction σ ε PUnit) s = .ok r ↔ r = (⟨⟩, t) := by
  change Except.ok (PUnit.unit, t) = .ok r ↔ _
  constructor
  · intro h
    cases h
    rfl
  · intro h
    rw [h]

@[simp] theorem modify_ok {f : σ → σ} :
    (modify f : Transaction σ ε PUnit) s = .ok r ↔ r = (⟨⟩, f s) :=
  set_ok (s := s) (t := f s)

@[simp] theorem throw_ok {e : ε} {r : α × σ} : ¬ (throw e : Transaction σ ε α) s = .ok r := by
  intro h
  cases h

end Steps

section Views

variable {σ ε α β ν : Type} {view : σ → ν}

/-- A transaction leaves what `view` shows of the store. -/
def Leaves (view : σ → ν) (t : Transaction σ ε α) : Prop :=
  ∀ s a s', t s = .ok (a, s') → view s' = view s

theorem leaves_pure (a : α) : Leaves view (pure a : Transaction σ ε α) := by
  intro s b s' h
  cases h
  rfl

theorem leaves_throw (e : ε) : Leaves view (throw e : Transaction σ ε α) :=
  fun _ _ _ h => absurd h throw_ok

theorem leaves_get : Leaves view (get : Transaction σ ε σ) := by
  intro s a s' h
  cases h
  rfl

theorem leaves_modify {f : σ → σ} (h : ∀ s, view (f s) = view s) :
    Leaves view (modify f : Transaction σ ε PUnit) := by
  intro s a s' hf
  cases hf
  exact h s

theorem Leaves.bind {x : Transaction σ ε α} {f : α → Transaction σ ε β} (hx : Leaves view x)
    (hf : ∀ a, Leaves view (f a)) : Leaves view (x >>= f) := by
  intro s b s' h
  obtain ⟨a, middle, hfirst, hrest⟩ := bind_ok.mp h
  exact (hf a middle b s' hrest).trans (hx s a middle hfirst)

end Views

section Checks

variable {ε α β : Type} {f : α → Except ε β} {b : β}

theorem except_bind_ok {x : Except ε α} : (x >>= f) = .ok b ↔ ∃ a, x = .ok a ∧ f a = .ok b := by
  cases x with
  | error e =>
    constructor
    · intro h
      cases h
    · intro ⟨a, ha, _⟩
      cases ha
  | ok a =>
    constructor
    · intro h
      exact ⟨a, rfl, h⟩
    · intro ⟨a', ha, hf⟩
      cases ha
      exact hf

/-- What every step of a checked fold keeps holds of its result. -/
theorem except_foldlM_keeps (keeps : β → Prop) {f : β → α → Except ε β} (l : List α)
    (hstep : ∀ b, ∀ a ∈ l, ∀ b', keeps b → f b a = .ok b' → keeps b') {b b' : β}
    (hb : keeps b) (h : l.foldlM f b = .ok b') : keeps b' := by
  induction l generalizing b with
  | nil =>
    cases h
    exact hb
  | cons a l ih =>
    rw [foldlM_cons, except_bind_ok] at h
    obtain ⟨mid, hmid, hrest⟩ := h
    exact ih (fun b a ha => hstep b a (mem_cons_of_mem _ ha)) (hstep b a mem_cons_self mid hb hmid)
      hrest

variable {l' : List β}

theorem except_mapM_ok (l : List α) (h : l.mapM f = .ok l') :
    List.Forall₂ (fun a b => f a = .ok b) l l' := by
  induction l generalizing l' with
  | nil =>
    cases h
    exact .nil
  | cons a l ih =>
    simp only [mapM_cons, except_bind_ok] at h
    obtain ⟨b, hb, rest, hrest, h⟩ := h
    cases h
    exact .cons hb (ih hrest)

/-- A checked map makes every element from one that it was given. -/
theorem except_mapM_mem (l : List α) (h : l.mapM f = .ok l')
    (hb : b ∈ l') : ∃ a ∈ l, f a = .ok b := by
  induction l generalizing l' with
  | nil =>
    cases h
    cases hb
  | cons a l ih =>
    simp only [mapM_cons, except_bind_ok] at h
    obtain ⟨b', hfirst, rest, hrest, h⟩ := h
    cases h
    rcases mem_cons.mp hb with rfl | hb
    · exact ⟨a, mem_cons_self, hfirst⟩
    · obtain ⟨a', ha', hok⟩ := ih hrest hb
      exact ⟨a', mem_cons_of_mem _ ha', hok⟩

variable {R : α → β → Prop}

theorem forall₂_mem_left {l : List α}
    (h : List.Forall₂ R l l') {a : α} (ha : a ∈ l) : ∃ b ∈ l', R a b := by
  induction h with
  | nil => cases ha
  | cons hab _ ih =>
    rcases mem_cons.mp ha with rfl | hrest
    · exact ⟨_, mem_cons_self, hab⟩
    · obtain ⟨b, hb, hr⟩ := ih hrest
      exact ⟨b, mem_cons_of_mem _ hb, hr⟩

theorem forall₂_mem_right {l : List α}
    (h : List.Forall₂ R l l') (hb : b ∈ l') : ∃ a ∈ l, R a b := by
  induction h with
  | nil => cases hb
  | cons hab _ ih =>
    rcases mem_cons.mp hb with rfl | hrest
    · exact ⟨_, mem_cons_self, hab⟩
    · obtain ⟨a, ha, hr⟩ := ih hrest
      exact ⟨a, mem_cons_of_mem _ ha, hr⟩

theorem except_foldlM_append {f : β → α → Except ε β} (l more : List α) {b b' : β} :
    (l ++ more).foldlM f b = .ok b' ↔
      ∃ mid, l.foldlM f b = .ok mid ∧ more.foldlM f mid = .ok b' := by
  rw [foldlM_append, except_bind_ok]

end Checks

/-- One transaction for each call. -/
structure Service (σ ω α ε : Type) where
  exec : ω → Transaction σ ε α

namespace Service

variable {σ ω α ε : Type} (service : Service σ ω α ε)

/-- The store after one call: a call that throws is rolled back. -/
def after (s : σ) (call : ω) : σ :=
  match service.exec call s with
  | .ok answer => answer.2
  | .error _ => s

/-- The store after a run of calls. -/
def run (s : σ) (calls : List ω) : σ :=
  calls.foldl service.after s

/-- The calls of a run that committed, with what each answered. -/
def committed (s : σ) : List ω → List (ω × α)
  | [] => []
  | call :: rest =>
    match service.exec call s with
    | .ok answer => (call, answer.1) :: committed answer.2 rest
    | .error _ => committed s rest

variable {service} {s s' : σ} {call : ω}

theorem after_ok {a : α} (h : service.exec call s = .ok (a, s')) : service.after s call = s' := by
  simp [after, h]

theorem after_error {e : ε} (h : service.exec call s = .error e) : service.after s call = s := by
  simp [after, h]

/-- A call either leaves the store alone or commits what its transaction built. -/
theorem after_cases (service : Service σ ω α ε) (s : σ) (call : ω) : service.after s call = s ∨
      ∃ a, service.exec call s = .ok (a, service.after s call) := by
  cases h : service.exec call s with
  | error e => exact Or.inl (after_error h)
  | ok answer => exact Or.inr ⟨answer.1, by simp [after, h]⟩

@[simp] theorem run_nil : service.run s [] = s := rfl

/-- A property that every committed call keeps holds after every run. -/
theorem run_keeps {Inv : σ → Prop}
    (hstep : ∀ s call a s', Inv s → service.exec call s = .ok (a, s') → Inv s')
    (calls : List ω) (h : Inv s) : Inv (service.run s calls) := by
  induction calls generalizing s with
  | nil => exact h
  | cons call rest ih =>
    apply ih
    rcases after_cases service s call with hsame | ⟨a, hok⟩
    · rw [hsame]
      exact h
    · exact hstep s call a _ h hok

/-- Calls that the store can commit only while a measure is below its bound, and
that raise it, commit at most as often as the measure allows. -/
theorem committed_count_le (service : Service σ ω α ε) (Inv : σ → Prop) (measure : σ → Nat)
    (bound : Nat) (counted : ω × α → Bool)
    (hstep : ∀ s call a s', Inv s → service.exec call s = .ok (a, s') → Inv s')
    (hmono : ∀ s call a s', Inv s → service.exec call s = .ok (a, s') →
      measure s + (if counted (call, a) then 1 else 0) ≤ measure s')
    (hbound : ∀ s, Inv s → measure s ≤ bound) (calls : List ω) (h : Inv s) :
    measure s + (service.committed s calls).countP counted ≤ bound := by
  induction calls generalizing s with
  | nil => simpa [committed] using hbound s h
  | cons call rest ih =>
    cases hexec : service.exec call s with
    | error e =>
      have hrest := ih h
      simpa [committed, hexec] using hrest
    | ok answer =>
      have hnext : Inv answer.2 := hstep s call answer.1 answer.2 h hexec
      have hrest := ih hnext
      have hraise := hmono s call answer.1 answer.2 h hexec
      simp only [committed, hexec, countP_cons]
      omega

end Service

end Transactions
