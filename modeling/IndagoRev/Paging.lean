import Mathlib

/-!
# Pages over a numbered list

A long list is shown in pages.  Some of its items are numbered, from zero on and in
order; a page names the number at which it begins, shows the numbered items of a window
from there together with everything that has no number, and is cut after so many items.
The next page begins after the last number that was shown.  This file says which numbers
a page shows, and when the pages together show every number once.

A page is sorted before it is cut, so it is also said what a stable sort does to the part
of a list that is in order already, and to a part that is filtered out first.
-/

namespace Paging

open List

variable {α : Type}

section Sorting

variable (r : α → α → Prop) [DecidableRel r]

variable {p : α → Bool}

/-- An item that is filtered out may as well be inserted or not. -/
theorem filter_orderedInsert_neg {a : α} (ha : p a = false) (l : List α) :
    (l.orderedInsert r a).filter p = l.filter p := by
  induction l with
  | nil => simp [ha]
  | cons b l ih =>
    rw [orderedInsert_cons]
    split
    · rw [filter_cons_of_neg (by simp [ha])]
    · rw [filter_cons, filter_cons, ih]

variable [IsTrans α r]

theorem filter_orderedInsert_pos {a : α} (ha : p a = true) {l : List α}
    (hl : l.Pairwise r) : (l.orderedInsert r a).filter p = (l.filter p).orderedInsert r a := by
  induction l with
  | nil => simp [ha]
  | cons b l ih =>
    obtain ⟨hb, hl⟩ := pairwise_cons.mp hl
    rw [orderedInsert_cons]
    by_cases hab : r a b
    · rw [if_pos hab, filter_cons_of_pos ha]
      have hall : ∀ x ∈ (b :: l).filter p, r a x := by
        intro x hx
        rcases mem_cons.mp (mem_of_mem_filter hx) with rfl | hx
        · exact hab
        · exact IsTrans.trans _ _ _ hab (hb x hx)
      cases hf : (b :: l).filter p with
      | nil => rfl
      | cons y ys => rw [orderedInsert_cons, if_pos (hall y (by rw [hf]; simp))]
    · rw [if_neg hab, filter_cons, filter_cons, ih hl]
      split
      · rw [orderedInsert_cons, if_neg hab]
      · rfl

variable [Std.Total r]

theorem filter_insertionSort (p : α → Bool) (l : List α) :
    (l.insertionSort r).filter p = (l.filter p).insertionSort r := by
  induction l with
  | nil => rfl
  | cons a l ih =>
    rw [insertionSort_cons]
    cases ha : p a with
    | true =>
      rw [filter_orderedInsert_pos r ha (pairwise_insertionSort r l), ih,
        filter_cons_of_pos ha, insertionSort_cons]
    | false =>
      rw [filter_orderedInsert_neg r ha, ih, filter_cons_of_neg (by simp [ha])]

theorem filter_insertionSort_of_sorted {l : List α}
    (h : (l.filter p).Pairwise r) : (l.insertionSort r).filter p = l.filter p := by
  rw [filter_insertionSort, List.Pairwise.insertionSort_eq h]

end Sorting

/-- A list without duplicates is in order by its own positions. -/
theorem pairwise_idxOf [DecidableEq α] {l : List α} (h : l.Nodup) :
    l.Pairwise (fun a b => l.idxOf a ≤ l.idxOf b) := by
  refine pairwise_iff_getElem.mpr (fun i j hi hj hij => ?_)
  rw [h.idxOf_getElem i hi, h.idxOf_getElem j hj]
  omega

section Numbered

variable (number : α → Option Nat) (lower upper : Nat)

/-- Whether an item stands on a page for the numbers from `lower` to before `upper`. -/
def onPage (x : α) : Bool :=
  match number x with
  | some k => decide (lower ≤ k ∧ k < upper)
  | none => true

/-- The numbers of a page that is cut after `limit` items. -/
def shownNumbers (lower upper limit : Nat) (l : List α) : List Nat :=
  ((l.filter (onPage number lower upper)).take limit).filterMap number

/-- How many items without a number stand before a numbered one. -/
def othersBefore (l : List α) (k : Nat) : Nat :=
  (l.takeWhile (fun x => number x != some k)).countP (fun x => number x == none)

variable {number} {l : List α} {n : Nat} {k : Nat}

theorem eq_range_of_append {before after : List Nat}
    (h : before ++ k :: after = List.range n) : before = List.range k ∧ k < n := by
  have hget : (List.range n)[before.length]? = some k := by
    rw [← h, getElem?_append_right (Nat.le_refl _)]
    simp
  obtain ⟨hlt, hk⟩ := List.getElem?_eq_some_iff.mp hget
  rw [getElem_range] at hk
  rw [length_range] at hlt
  have htake : (List.range n).take before.length = before := by
    rw [← h]
    exact take_left' rfl
  rw [take_range, Nat.min_eq_left (by omega), hk] at htake
  exact ⟨htake.symm, by omega⟩

theorem split_at_number (hl : l.filterMap number = List.range n) (hk : k < n) :
    ∃ before x after, l = before ++ x :: after ∧ number x = some k ∧
      before.filterMap number = List.range k ∧
      before = l.takeWhile (fun x => number x != some k) := by
  have hmem : k ∈ l.filterMap number := by
    rw [hl]
    exact mem_range.mpr hk
  obtain ⟨x, hx, hxk⟩ := mem_filterMap.mp hmem
  have hdrop : l.dropWhile (fun x => number x != some k) ≠ [] := by
    intro hnil
    have := dropWhile_eq_nil_iff.mp hnil x hx
    simp [hxk] at this
  obtain ⟨y, after, hya⟩ := exists_cons_of_ne_nil hdrop
  have hy : number y = some k := by
    have := head_dropWhile_not (fun x => number x != some k) hdrop
    simp only [hya, head_cons] at this
    simpa using this
  have hsplit : l = l.takeWhile (fun x => number x != some k) ++ y :: after := by
    rw [← hya, takeWhile_append_dropWhile]
  refine ⟨_, y, after, hsplit, hy, ?_, rfl⟩
  have hrange : (l.takeWhile (fun x => number x != some k)).filterMap number ++
      k :: after.filterMap number = List.range n := by
    rw [← hl]
    conv_rhs => rw [hsplit]
    rw [filterMap_append, filterMap_cons_some hy]
  exact (eq_range_of_append hrange).1

/-- The items of a page, counted by whether they have a number. -/
theorem length_filter_onPage (l : List α) :
    (l.filter (onPage number lower upper)).length = l.countP (fun x => number x == none) +
        (l.filterMap number).countP (fun k => decide (lower ≤ k ∧ k < upper)) := by
  induction l with
  | nil => rfl
  | cons x l ih =>
    cases hx : number x with
    | none =>
      rw [filter_cons_of_pos (by simp [onPage, hx]), length_cons, ih,
        countP_cons_of_pos (by simp [hx]), filterMap_cons_none hx]
      omega
    | some k =>
      rw [countP_cons_of_neg (by simp [hx]), filterMap_cons_some hx,
        countP_cons, filter_cons]
      by_cases hk : lower ≤ k ∧ k < upper
      · rw [if_pos (by simpa [onPage, hx] using hk), if_pos (by simpa using hk),
          length_cons, ih]
        omega
      · rw [if_neg (by simpa [onPage, hx] using hk), if_neg (by simpa using hk), ih]
        omega

/-- The numbers of a range that fall into a window which reaches beyond it. -/
theorem countP_range_window {lower upper k : Nat} (hk : k ≤ upper) :
    (List.range k).countP (fun j => decide (lower ≤ j ∧ j < upper)) = k - lower := by
  induction k with
  | zero => simp
  | succ k ih =>
    rw [range_succ, countP_append, ih (by omega), countP_singleton]
    by_cases h : lower ≤ k
    · rw [if_pos (by simp; omega)]
      omega
    · rw [if_neg (by simp; omega)]
      omega

variable {lower upper limit k : Nat}

/-- A number is shown if it lies in the window and the items that stand before it on the
page leave room for it. -/
theorem mem_shownNumbers (hl : l.filterMap number = List.range n) :
    k ∈ shownNumbers number lower upper limit l ↔
      (lower ≤ k ∧ k < upper) ∧ k < n ∧ othersBefore number l k + (k - lower) < limit := by
  have hwindow : k ∈ shownNumbers number lower upper limit l →
      (lower ≤ k ∧ k < upper) ∧ k < n := by
    intro h
    obtain ⟨x, hx, hxk⟩ := mem_filterMap.mp h
    obtain ⟨hmem, hon⟩ := mem_filter.mp (mem_of_mem_take hx)
    have hin : k ∈ l.filterMap number := mem_filterMap.mpr ⟨x, hmem, hxk⟩
    rw [hl] at hin
    exact ⟨by simpa [onPage, hxk] using hon, mem_range.mp hin⟩
  have hroom : (lower ≤ k ∧ k < upper) → k < n →
      (k ∈ shownNumbers number lower upper limit l ↔
        othersBefore number l k + (k - lower) < limit) := by
    intro hin hk
    obtain ⟨before, x, after, hsplit, hx, hbefore, htake⟩ := split_at_number hl hk
    have hlen : (before.filter (onPage number lower upper)).length =
        othersBefore number l k + (k - lower) := by
      rw [length_filter_onPage, hbefore, countP_range_window (by omega), htake]
      rfl
    have hfilter : l.filter (onPage number lower upper) =
        before.filter (onPage number lower upper) ++
          x :: after.filter (onPage number lower upper) := by
      rw [hsplit, filter_append, filter_cons_of_pos (by simpa [onPage, hx] using hin)]
    rw [← hlen]
    unfold shownNumbers
    rw [hfilter, take_append]
    by_cases hlimit : (before.filter (onPage number lower upper)).length < limit
    · obtain ⟨room, hroom⟩ : ∃ room,
          limit - (before.filter (onPage number lower upper)).length = room + 1 :=
        ⟨limit - (before.filter (onPage number lower upper)).length - 1, by omega⟩
      rw [hroom, take_succ_cons, filterMap_append, filterMap_cons_some hx]
      simp [hlimit]
    · rw [Nat.sub_eq_zero_of_le (Nat.not_lt.mp hlimit), take_zero, append_nil]
      refine iff_of_false (fun h => ?_) hlimit
      obtain ⟨y, hy, hyk⟩ := mem_filterMap.mp h
      have hmem : k ∈ before.filterMap number :=
        mem_filterMap.mpr
          ⟨y, mem_of_mem_filter (mem_of_mem_take hy), hyk⟩
      rw [hbefore] at hmem
      exact Nat.lt_irrefl k (mem_range.mp hmem)
  constructor
  · intro h
    obtain ⟨hin, hk⟩ := hwindow h
    exact ⟨hin, hk, (hroom hin hk).mp h⟩
  · rintro ⟨hin, hk, h⟩
    exact (hroom hin hk).mpr h

/-- There is an item behind everything that stands before a number. -/
theorem othersBefore_lt (hl : l.filterMap number = List.range n) (hk : k < n) :
    othersBefore number l k + k < l.length := by
  obtain ⟨before, x, after, hsplit, -, hbefore, htake⟩ := split_at_number hl hk
  have hlen := @length_filter_onPage _ number 0 k before
  rw [hbefore, countP_range_window (Nat.le_refl k), htake] at hlen
  have hle := length_filter_le (onPage number 0 k) before
  have hlength : l.length = before.length + (after.length + 1) := by
    conv_lhs => rw [hsplit]
    rw [length_append, length_cons]
  rw [htake] at hle hlength
  unfold othersBefore
  omega

theorem othersBefore_mono (hl : l.filterMap number = List.range n) {j k : Nat} (hjk : j ≤ k)
    (hk : k < n) : othersBefore number l j ≤ othersBefore number l k := by
  obtain ⟨_, _, _, _, _, hj, rfl⟩ := split_at_number hl (Nat.lt_of_le_of_lt hjk hk)
  obtain ⟨_, _, _, _, _, hk', rfl⟩ := split_at_number hl hk
  rcases prefix_or_prefix_of_prefix (List.takeWhile_prefix (fun x => number x != some j))
      (List.takeWhile_prefix _ : l.takeWhile (fun x => number x != some k) <+: l) with h | h
  · exact h.sublist.countP_le
  · have hlen := (h.filterMap number).length_le
    rw [hj, hk', length_range, length_range] at hlen
    obtain rfl : j = k := by omega
    exact Nat.le_refl _

/-- The shown numbers have no gap: if a number is shown, so are all before it in the
window. -/
theorem shownNumbers_down (hl : l.filterMap number = List.range n) {lower upper limit j k : Nat}
    (hlow : lower ≤ j) (hjk : j ≤ k) (hk : k ∈ shownNumbers number lower upper limit l) :
    j ∈ shownNumbers number lower upper limit l := by
  obtain ⟨hin, hkn, hroom⟩ := (mem_shownNumbers hl).mp hk
  have hmono := othersBefore_mono hl hjk hkn
  exact (mem_shownNumbers hl).mpr ⟨by omega, by omega, by omega⟩

theorem nodup_shownNumbers (hl : l.filterMap number = List.range n) (lower upper limit : Nat) :
    (shownNumbers number lower upper limit l).Nodup := by
  have hsub : (shownNumbers number lower upper limit l).Sublist (l.filterMap number) :=
    ((take_sublist _ _).trans filter_sublist).filterMap number
  rw [hl] at hsub
  exact hsub.nodup nodup_range

theorem mem_iff_of_down {numbers : List Nat} {lower : Nat} (hnodup : numbers.Nodup)
    (hlower : ∀ k ∈ numbers, lower ≤ k)
    (hdown : ∀ j k, lower ≤ j → j ≤ k → k ∈ numbers → j ∈ numbers) (k : Nat) :
    k ∈ numbers ↔ lower ≤ k ∧ k < lower + numbers.length := by
  constructor
  · intro hk
    have hsub : List.range' lower (k + 1 - lower) ⊆ numbers := by
      intro j hj
      rw [mem_range'_1] at hj
      exact hdown j k hj.1 (by omega) hk
    have hlen := (subperm_of_subset nodup_range' hsub).length_le
    rw [length_range'] at hlen
    have := hlower k hk
    omega
  · rintro ⟨hlow, hlt⟩
    by_contra hk
    have hsub : numbers ⊆ List.range' lower (k - lower) := by
      intro j hj
      have hj' := hlower j hj
      rw [mem_range'_1]
      refine ⟨hj', ?_⟩
      by_contra hge
      exact hk (hdown k j hlow (by omega) hj)
    have hlen := (subperm_of_subset hnodup hsub).length_le
    rw [length_range'] at hlen
    omega

/-- A page shows the numbers from its first one on, as many as it shows. -/
theorem mem_shownNumbers_iff (hl : l.filterMap number = List.range n) :
    k ∈ shownNumbers number lower upper limit l ↔
      lower ≤ k ∧ k < lower + (shownNumbers number lower upper limit l).length :=
  mem_iff_of_down (nodup_shownNumbers hl lower upper limit)
    (fun _ hk => ((mem_shownNumbers hl).mp hk).1.1)
    (fun _ _ hlow hjk hk => shownNumbers_down hl hlow hjk hk) k

theorem length_shownNumbers_le (hl : l.filterMap number = List.range n)
    {lower upper limit : Nat} (hlower : lower ≤ n) :
    lower + (shownNumbers number lower upper limit l).length ≤ n := by
  by_contra h
  have hmem : n ∈ shownNumbers number lower upper limit l :=
    (mem_shownNumbers_iff hl).mpr ⟨hlower, by omega⟩
  exact Nat.lt_irrefl n ((mem_shownNumbers hl).mp hmem).2.1

end Numbered

section Run

variable (width : Nat → Nat)

/-- Where the pages begin: each where the one before it stopped. -/
def start : Nat → Nat
  | 0 => 0
  | i + 1 => start i + width (start i)

variable {width}

theorem start_mono {i j : Nat} (h : i ≤ j) : start width i ≤ start width j := by
  induction h with
  | refl => exact Nat.le_refl _
  | step _ ih => exact Nat.le_trans ih (Nat.le_add_right _ _)

theorem start_stuck {i j : Nat} (hstuck : width (start width i) = 0) (h : i ≤ j) :
    start width j = start width i := by
  induction h with
  | refl => rfl
  | step _ ih => rw [start, ih, hstuck, Nat.add_zero]

variable {total : Nat} (hbound : ∀ o ≤ total, o + width o ≤ total)

include hbound in
theorem start_le (i : Nat) : start width i ≤ total := by
  induction i with
  | zero => exact Nat.zero_le _
  | succ i ih => exact hbound _ ih

include hbound in
/-- The pages come to the end if and only if none of them is stuck before it. -/
theorem advances_iff :
    (∀ i, start width i < total → 0 < width (start width i)) ↔ ∃ i, start width i = total := by
  constructor
  · intro hadv
    by_contra hnever
    have hlt (i : Nat) : start width i < total :=
      Nat.lt_of_le_of_ne (start_le hbound i) (fun h => hnever ⟨i, h⟩)
    have hgrow (i : Nat) : i ≤ start width i := by
      induction i with
      | zero => exact Nat.zero_le _
      | succ i ih =>
        have := hadv i (hlt i)
        rw [start]
        omega
    exact Nat.lt_irrefl total (Nat.lt_of_le_of_lt (hgrow total) (hlt total))
  · rintro ⟨last, hlast⟩ i hi
    by_contra hzero
    rcases Nat.le_total i last with h | h
    · rw [start_stuck (Nat.eq_zero_of_not_pos hzero) h] at hlast
      omega
    · have : start width last ≤ start width i := start_mono h
      omega

variable {shown : Nat → Nat → Prop}
  (hwithin : ∀ o k, shown o k → o ≤ k ∧ k < o + width o)

include hwithin in
theorem page_unique {i j k : Nat} (hi : shown (start width i) k) (hj : shown (start width j) k) :
    i = j := by
  have hno : ∀ i j, i < j → shown (start width i) k → ¬shown (start width j) k := by
    intro i j hij hi hj
    have h : start width (i + 1) ≤ start width j := start_mono hij
    rw [start] at h
    have := hwithin _ _ hi
    have := hwithin _ _ hj
    omega
  rcases Nat.lt_trichotomy i j with h | h | h
  · exact absurd hj (hno i j h hi)
  · exact h
  · exact absurd hi (hno j i h hj)

/-- A number that the pages pass over lies in the window of one of them. -/
theorem exists_page {m k : Nat} (h : k < start width m) :
    ∃ i, start width i ≤ k ∧ k < start width i + width (start width i) := by
  induction m with
  | zero => exact absurd h (Nat.not_lt_zero k)
  | succ m ih =>
    rcases Nat.lt_or_ge k (start width m) with hm | hm
    · exact ih hm
    · exact ⟨m, hm, h⟩

include hbound hwithin in
/-- Every number is shown on exactly one page if and only if the pages come to the end and
every page shows all that it passes over. -/
theorem shown_once_iff : (∀ k < total, ∃! i, shown (start width i) k) ↔
      (∀ i k, start width i ≤ k → k < start width i + width (start width i) →
        shown (start width i) k) ∧ ∃ i, start width i = total := by
  constructor
  · intro honce
    refine ⟨fun i k hlow hhigh => ?_, (advances_iff hbound).mp (fun i hi => ?_)⟩
    · obtain ⟨j, hj, -⟩ := honce k (Nat.lt_of_lt_of_le hhigh (hbound _ (start_le hbound i)))
      have hjk := hwithin _ _ hj
      rcases Nat.lt_trichotomy i j with h | h | h
      · have : start width (i + 1) ≤ start width j := start_mono h
        rw [start] at this
        omega
      · exact h ▸ hj
      · have : start width (j + 1) ≤ start width i := start_mono h
        rw [start] at this
        omega
    · by_contra hzero
      obtain ⟨j, hj, -⟩ := honce _ hi
      have hjk := hwithin _ _ hj
      have hstuck : width (start width i) = 0 := Nat.eq_zero_of_not_pos hzero
      rcases Nat.lt_or_ge j i with h | h
      · have : start width (j + 1) ≤ start width i := start_mono h
        rw [start] at this
        omega
      · rw [start_stuck hstuck h] at hjk
        omega
  · rintro ⟨hall, last, hlast⟩ k hk
    obtain ⟨i, hlow, hhigh⟩ := exists_page (show k < start width last by rw [hlast]; exact hk)
    have hi := hall i k hlow hhigh
    exact ⟨i, hi, fun j hj => page_unique hwithin hj hi⟩

end Run

end Paging
