import Mathlib

/-!
# Schedules by repeated sweeps

Names are put in an order in which each one comes after those that it needs.  A sweep goes
over all names once and takes each one whose needs have been taken; sweeps are repeated until
all names are taken, or until one takes none.
-/

namespace Schedules

open List

/-- Why there is no schedule.  The last case does not happen. -/
inductive Fault where
  | unknown | cyclic | stuck

variable {α : Type} (needs : α → List α) (all : List α)

/-- Each name comes once, and after those that it needs. -/
structure Scheduled (order : List α) : Prop where
  nodup : order.Nodup
  known : order ⊆ all
  after : ∀ before name rest, order = before ++ name :: rest → ∀ d ∈ needs name, d ∈ before

variable {needs all}

theorem Scheduled.nil : Scheduled needs all [] where
  nodup := nodup_nil
  known := nil_subset _
  after := by
    intro before name rest h
    cases before <;> cases h

variable {order : List α}

theorem Scheduled.snoc {name : α} (h : Scheduled needs all order)
    (hname : name ∈ all) (hnew : name ∉ order) (hneeds : ∀ d ∈ needs name, d ∈ order) :
    Scheduled needs all (order ++ [name]) where
  nodup := (perm_append_singleton name order).nodup_iff.mpr
    (nodup_cons.mpr ⟨hnew, h.nodup⟩)
  known := append_subset.mpr
    ⟨h.known, fun x hx => mem_singleton.mp hx ▸ hname⟩
  after := by
    intro before other rest heq
    rcases eq_nil_or_concat rest with rfl | ⟨rest, last, rfl⟩
    · obtain ⟨rfl, hlast⟩ := append_inj' heq rfl
      cases hlast
      exact hneeds
    · rw [concat_eq_append, ← cons_append, ← append_assoc] at heq
      exact h.after before other rest (append_inj' heq rfl).1

/-- A schedule of all names is a permutation of them. -/
theorem Scheduled.perm (h : Scheduled needs all order)
    (hlength : all.length ≤ order.length) : order.Perm all :=
  (h.nodup.subperm h.known).perm_of_length_le hlength

/-- What a scheduled name needs, over any number of steps, comes before it. -/
theorem Scheduled.earlier [BEq α] [LawfulBEq α] {d name : α} (h : Scheduled needs all order)
    (hneeds : Relation.TransGen (fun d name => d ∈ needs name) d name) (hname : name ∈ order) :
    d ∈ order ∧ order.idxOf d < order.idxOf name := by
  have hstep : ∀ {d name : α}, d ∈ needs name → name ∈ order →
      d ∈ order ∧ order.idxOf d < order.idxOf name := by
    intro d name hd hname
    obtain ⟨before, rest, heq, hnew⟩ := eq_append_cons_of_mem hname
    have hbefore := h.after before name rest heq d hd
    rw [heq, idxOf_append_of_mem hbefore, idxOf_append_of_notMem hnew]
    have hless := idxOf_lt_length_of_mem hbefore
    exact ⟨mem_append_left _ hbefore, by omega⟩
  induction hneeds with
  | single hd => exact hstep hd hname
  | tail _ hd ih =>
    obtain ⟨hmiddle, hless⟩ := hstep hd hname
    obtain ⟨hmem, hmore⟩ := ih hmiddle
    exact ⟨hmem, Nat.lt_trans hmore hless⟩

variable [DecidableEq α]

variable (needs all) in
def sweep : List α → List α → Except Fault (List α)
  | [], order => .ok order
  | name :: rest, order =>
    if name ∈ order then sweep rest order
    else if ∃ d ∈ needs name, d ∉ all then .error .unknown
    else if ∀ d ∈ needs name, d ∈ order then sweep rest (order ++ [name])
    else sweep rest order

variable (needs all) in
def schedule : Nat → List α → Except Fault (List α)
  | fuel, order =>
    if all.length ≤ order.length then .ok order
    else
      match fuel with
      | 0 => .error .stuck
      | fuel + 1 => do
        let next ← sweep needs all all order
        if next.length = order.length then .error .cyclic else schedule fuel next

/-- A sweep keeps what is scheduled, and only adds to it. -/
theorem sweep_ok {names order order' : List α} (hnames : names ⊆ all)
    (h : Scheduled needs all order) (hsweep : sweep needs all names order = .ok order') :
    Scheduled needs all order' ∧ order.length ≤ order'.length := by
  induction names generalizing order with
  | nil =>
    cases hsweep
    exact ⟨h, Nat.le_refl _⟩
  | cons name names ih =>
    obtain ⟨hname, hnames⟩ := cons_subset.mp hnames
    unfold sweep at hsweep
    split at hsweep
    · exact ih hnames h hsweep
    next hnew =>
      split at hsweep
      · cases hsweep
      split at hsweep
      · next hneeds =>
          obtain ⟨hnext, hlength⟩ := ih hnames (h.snoc hname hnew hneeds) hsweep
          rw [length_append] at hlength
          exact ⟨hnext, Nat.le_of_succ_le hlength⟩
      · exact ih hnames h hsweep

theorem sweep_fault {names order : List α} {e : Fault}
    (h : sweep needs all names order = .error e) : e = .unknown := by
  induction names generalizing order with
  | nil => cases h
  | cons name names ih =>
    unfold sweep at h
    split at h
    · exact ih h
    split at h
    · cases h
      rfl
    · split at h
      · exact ih h
      · exact ih h

theorem schedule_ok {fuel : Nat} {order order' : List α} (h : Scheduled needs all order)
    (hschedule : schedule needs all fuel order = .ok order') :
    Scheduled needs all order' ∧ all.length ≤ order'.length := by
  induction fuel generalizing order with
  | zero =>
    unfold schedule at hschedule
    split at hschedule
    · next hdone =>
        cases hschedule
        exact ⟨h, hdone⟩
    · cases hschedule
  | succ fuel ih =>
    unfold schedule at hschedule
    split at hschedule
    · next hdone =>
        cases hschedule
        exact ⟨h, hdone⟩
    cases hsweep : sweep needs all all order with
    | error e =>
      rw [hsweep] at hschedule
      cases hschedule
    | ok next =>
      rw [hsweep] at hschedule
      have hnext := (sweep_ok (List.Subset.refl all) h hsweep).1
      change (if next.length = order.length then _ else _) = _ at hschedule
      split at hschedule
      · cases hschedule
      · exact ih hnext hschedule

/-- Every sweep but the last takes a name, so as many sweeps as there are names are enough. -/
theorem schedule_not_stuck {fuel : Nat} (h : Scheduled needs all order)
    (hfuel : all.length ≤ order.length + fuel) : schedule needs all fuel order ≠ .error .stuck := by
  induction fuel generalizing order with
  | zero =>
    unfold schedule
    rw [if_pos (by omega)]
    exact fun h => nomatch h
  | succ fuel ih =>
    unfold schedule
    split
    · exact fun h => nomatch h
    cases hsweep : sweep needs all all order with
    | error e =>
      rw [sweep_fault hsweep]
      exact fun h => nomatch h
    | ok next =>
      obtain ⟨hnext, hlength⟩ := sweep_ok (List.Subset.refl all) h hsweep
      change (if next.length = order.length then _ else _) ≠ _
      split
      · exact fun h => nomatch h
      · exact ih hnext (by omega)

end Schedules
