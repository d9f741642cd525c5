import Mathlib

/-!
# Cursors over a list of rows

A page reads rows from an offset on and shows them until so many are shown, or until the
next one would take it past a budget; the first one is always shown.  It names the
offset of the first row that it has left out.  Following the offsets from 0 visits every
row once when every row can be shown, and comes to no end when some row cannot.
-/

namespace Cursors

open List

variable {ρ σ ε : Type}

section Pages

variable (limit budget : Nat) (cost : ρ → Except ε Nat) (emit : ρ → Except ε σ)

/-- The loop over the rows of a page: what is shown, and whether rows are left. -/
def fill : List ρ → List σ → Nat → Except ε (List σ × Bool)
  | [], shown, _ => .ok (shown, false)
  | r :: rest, shown, used => do
    let size ← cost r
    if shown.length = limit ∨ (shown ≠ [] ∧ budget < used + size) then pure (shown, true)
    else do
      let item ← emit r
      fill rest (shown ++ [item]) (used + size)

/-- A page over one row more than it can show. -/
def page (rows : List ρ) (offset : Nat) : Except ε (List σ × Option Nat) := do
  let (shown, more) ← fill limit budget cost emit ((rows.drop offset).take (limit + 1)) [] 0
  pure (shown, if more then some (offset + shown.length) else none)

end Pages

/-- Following the offsets that pages name, from one on, shows these items in all. -/
inductive Visit (page : Nat → Except ε (List σ × Option Nat)) : Nat → List σ → Prop
  | last {offset : Nat} {shown : List σ} (h : page offset = .ok (shown, none)) :
      Visit page offset shown
  | next {offset next : Nat} {shown rest : List σ} (h : page offset = .ok (shown, some next))
      (h' : Visit page next rest) : Visit page offset (shown ++ rest)

variable {limit budget : Nat} {cost : ρ → Except ε Nat} {emit : ρ → Except ε σ}

/-- A row can be shown, as an item. -/
def Shows (cost : ρ → Except ε Nat) (emit : ρ → Except ε σ) (r : ρ) (item : σ) : Prop :=
  (∃ size, cost r = .ok size) ∧ emit r = .ok item

/-- What the loop of a page does with the rows. -/
structure Filled (limit : Nat) (cost : ρ → Except ε Nat) (emit : ρ → Except ε σ)
    (rows : List ρ) (before shown : List σ) (more : Bool) : Prop where
  prefixed : ∃ items, shown = before ++ items ∧
    List.Forall₂ (Shows cost emit) (rows.take items.length) items ∧
    (more = true ↔ items.length < rows.length) ∧
    (before = [] → rows ≠ [] → 0 < limit → items ≠ [])
  bounded : shown.length ≤ limit

variable {rows : List ρ}

theorem fill_ok {before shown : List σ} {used : Nat} {more : Bool} (hbefore : before.length ≤ limit)
    (h : fill limit budget cost emit rows before used = .ok (shown, more)) :
    Filled limit cost emit rows before shown more := by
  induction rows generalizing before used with
  | nil =>
    cases h
    refine ⟨⟨[], by simp, List.Forall₂.nil, by simp, ?_⟩, hbefore⟩
    intro _ hne
    exact absurd rfl hne
  | cons r rest ih =>
    unfold fill at h
    cases hcost : cost r with
    | error e =>
      rw [hcost] at h
      cases h
    | ok size =>
      rw [hcost] at h
      simp only [bind, Except.bind] at h
      split at h
      · next hstop =>
          cases h
          refine ⟨⟨[], by simp, List.Forall₂.nil, by simp, ?_⟩, hbefore⟩
          intro hnil _ hlimit
          subst hnil
          rcases hstop with hfull | ⟨hne, _⟩
          · exact absurd hfull (Nat.ne_of_lt hlimit)
          · exact absurd rfl hne
      · next hgo =>
          rw [not_or] at hgo
          cases hemit : emit r with
          | error e =>
            rw [hemit] at h
            cases h
          | ok item =>
            rw [hemit] at h
            have hroom : (before ++ [item]).length ≤ limit := by
              rw [length_append, length_singleton]
              have hne := hgo.1
              omega
            obtain ⟨⟨items, rfl, hitems, hmore, _⟩, hbound⟩ := ih hroom h
            refine ⟨⟨item :: items, by simp, ?_, ?_, ?_⟩, hbound⟩
            · exact List.Forall₂.cons ⟨⟨size, hcost⟩, hemit⟩ hitems
            · rw [hmore, length_cons, length_cons, Nat.add_lt_add_iff_right]
            · intro _ _ _ hnil
              cases hnil

theorem fill_total (hrows : ∀ r ∈ rows, ∃ item, Shows cost emit r item)
    (before : List σ) (used : Nat) :
    ∃ result, fill limit budget cost emit rows before used = .ok result := by
  induction rows generalizing before used with
  | nil => exact ⟨_, rfl⟩
  | cons r rest ih =>
    obtain ⟨item, ⟨size, hcost⟩, hemit⟩ := hrows r mem_cons_self
    unfold fill
    rw [hcost]
    simp only [bind, Except.bind]
    split
    · exact ⟨_, rfl⟩
    · rw [hemit]
      exact ih (fun r hr => hrows r (mem_cons_of_mem _ hr)) _ _

/-- What a page shows, and where the next one begins. -/
structure Page (cost : ρ → Except ε Nat) (emit : ρ → Except ε σ) (rows : List ρ)
    (offset : Nat) (shown : List σ) (next : Option Nat) : Prop where
  shows : List.Forall₂ (Shows cost emit) ((rows.drop offset).take shown.length) shown
  advances : offset < rows.length → shown ≠ []
  goesOn : next = if offset + shown.length < rows.length then some (offset + shown.length) else none

theorem page_ok (hlimit : 0 < limit) {offset : Nat} {shown : List σ}
    {next : Option Nat} (h : page limit budget cost emit rows offset = .ok (shown, next)) :
    Page cost emit rows offset shown next := by
  unfold page at h
  cases hfill : fill limit budget cost emit ((rows.drop offset).take (limit + 1)) [] 0 with
  | error e =>
    rw [hfill] at h
    cases h
  | ok result =>
    obtain ⟨shown', more⟩ := result
    rw [hfill] at h
    cases h
    obtain ⟨⟨items, rfl, hitems, hmore, hfirst⟩, hbound⟩ := fill_ok (Nat.zero_le _) hfill
    rw [length_take, length_drop] at hmore
    constructor
    · rw [take_take, Nat.min_eq_left (by omega)] at hitems
      exact hitems
    · intro hoffset
      refine hfirst rfl ?_ hlimit
      intro hnil
      have hlength := congrArg List.length hnil
      rw [length_take, length_drop, length_nil] at hlength
      omega
    cases more with
    | true =>
      have hless : offset + shown.length < rows.length := by
        have hmin := hmore.mp rfl
        omega
      rw [if_pos hless]
      rfl
    | false =>
      have hend : ¬ offset + shown.length < rows.length := by
        intro hless
        refine Bool.noConfusion (hmore.mpr ?_)
        omega
      rw [if_neg hend]
      rfl

theorem forall₂_split {R : ρ → σ → Prop} {shown rest : List σ} {n : Nat}
    (h : List.Forall₂ R (rows.take n) shown) (h' : List.Forall₂ R (rows.drop n) rest) :
    List.Forall₂ R rows (shown ++ rest) := by
  have hboth : List.Forall₂ R (rows.take n ++ rows.drop n) (shown ++ rest) :=
    rel_append h h'
  rw [take_append_drop] at hboth
  exact hboth

variable {items : List σ}

/-- What is visited from an offset on are the rows from there on. -/
theorem Visit.shows (hlimit : 0 < limit) {offset : Nat}
    (h : Visit (page limit budget cost emit rows) offset items) :
    List.Forall₂ (Shows cost emit) (rows.drop offset) items := by
  induction h with
  | @last offset shown hpage =>
    have hp := page_ok hlimit hpage
    have hend : ¬ offset + shown.length < rows.length := by
      intro hless
      have hnext := hp.goesOn
      rw [if_pos hless] at hnext
      cases hnext
    have hshown := hp.shows
    rw [take_of_length_le (by rw [length_drop]; omega)] at hshown
    exact hshown
  | @next offset next shown rest hpage _ ih =>
    have hp := page_ok hlimit hpage
    have hnext : next = offset + shown.length := by
      have hsome := hp.goesOn
      split at hsome
      · exact Option.some.inj hsome
      · cases hsome
    rw [hnext, ← drop_drop] at ih
    exact forall₂_split hp.shows ih

/-- When every row can be shown, the visit from any offset ends. -/
theorem visit_total (hlimit : 0 < limit)
    (hrows : ∀ r ∈ rows, ∃ item, Shows cost emit r item) (offset : Nat) :
    ∃ items, Visit (page limit budget cost emit rows) offset items := by
  generalize hn : rows.length - offset = n
  induction n using Nat.strongRecOn generalizing offset with
  | ind n ih =>
    have hfilled : ∃ result, fill limit budget cost emit
        ((rows.drop offset).take (limit + 1)) [] 0 = .ok result :=
      fill_total (fun r hr => hrows r (mem_of_mem_drop (mem_of_mem_take hr))) [] 0
    obtain ⟨⟨shown, more⟩, hfill⟩ := hfilled
    have hpage : page limit budget cost emit rows offset =
        .ok (shown, if more then some (offset + shown.length) else none) := by
      unfold page
      rw [hfill]
      rfl
    have hp := page_ok hlimit hpage
    by_cases hless : offset + shown.length < rows.length
    · have hnext := hp.goesOn
      rw [if_pos hless] at hnext
      rw [hnext] at hpage
      have hne : 0 < shown.length :=
        length_pos_iff.mpr (hp.advances (by omega))
      obtain ⟨rest, hrest⟩ := ih (rows.length - (offset + shown.length)) (by omega)
        (offset + shown.length) rfl
      exact ⟨shown ++ rest, Visit.next hpage hrest⟩
    · have hnext := hp.goesOn
      rw [if_neg hless] at hnext
      rw [hnext] at hpage
      exact ⟨shown, Visit.last hpage⟩

/-- The visit from the first row on ends exactly when every row can be shown, and then it
shows every row once, in their order. -/
theorem visit_iff (hlimit : 0 < limit) :
    (∃ items, Visit (page limit budget cost emit rows) 0 items ∧
        List.Forall₂ (fun r item => emit r = .ok item) rows items) ↔
      ∀ r ∈ rows, ∃ item, Shows cost emit r item := by
  constructor
  · rintro ⟨items, hvisit, -⟩
    have hshows := hvisit.shows hlimit
    rw [drop_zero] at hshows
    clear hvisit
    induction hshows with
    | nil => exact fun _ hr => by cases hr
    | cons hr _ ih =>
      intro r hmem
      rcases mem_cons.mp hmem with rfl | hrest
      · exact ⟨_, hr⟩
      · exact ih r hrest
  · intro hrows
    have hends : ∃ items, Visit (page limit budget cost emit rows) 0 items :=
      visit_total hlimit hrows 0
    obtain ⟨items, hvisit⟩ := hends
    have hshows := hvisit.shows hlimit
    rw [drop_zero] at hshows
    exact ⟨items, hvisit, hshows.imp (fun _ _ h => h.2)⟩

theorem visit_map_iff (hlimit : 0 < limit)
    (hcost : ∀ r ∈ rows, ∀ item, emit r = .ok item → ∃ size, cost r = .ok size) :
    (∃ items, Visit (page limit budget cost emit rows) 0 items ∧ rows.map emit = items.map .ok) ↔
      ∀ r ∈ rows, ∃ item, emit r = .ok item := by
  have hmaps : ∀ (rows : List ρ) (items : List σ), rows.map emit = items.map .ok ↔
      List.Forall₂ (fun r item => emit r = .ok item) rows items := by
    intro rows items
    rw [← forall₂_eq_eq_eq, forall₂_map_left_iff, forall₂_map_right_iff]
  simp only [hmaps, visit_iff hlimit]
  constructor
  · intro h r hr
    obtain ⟨item, hshows⟩ := h r hr
    exact ⟨item, hshows.2⟩
  · intro h r hr
    obtain ⟨item, hemit⟩ := h r hr
    exact ⟨item, hcost r hr item hemit, hemit⟩

/-- A page that refuses to be empty is visited like one that does not, as long as there are
rows. -/
theorem visit_refusing (hlimit : 0 < limit) {offset : Nat}
    {refusing : Nat → Except ε (List σ × Option Nat)}
    (hkeeps : ∀ {offset : Nat} {shown : List σ} {next : Option Nat},
      page limit budget cost emit rows offset = .ok (shown, next) → shown ≠ [] →
        refusing offset = .ok (shown, next)) (hoffset : offset < rows.length)
    (h : Visit (page limit budget cost emit rows) offset items) : Visit refusing offset items := by
  have hback : ∀ {offset : Nat} {shown : List σ} {next : Option Nat},
      offset < rows.length → page limit budget cost emit rows offset = .ok (shown, next) →
        refusing offset = .ok (shown, next) := by
    intro offset shown next hless hpage
    exact hkeeps hpage ((page_ok hlimit hpage).advances hless)
  induction h with
  | last h => exact Visit.last (hback hoffset h)
  | next h _ ih =>
    refine Visit.next (hback hoffset h) (ih ?_)
    have hnext := (page_ok hlimit h).goesOn
    split at hnext
    · next hless =>
        rw [Option.some.inj hnext]
        exact hless
    · cases hnext

section Packed

variable (room : List ρ → Bool)

/-- Rows are shown as long as there is room for one more. -/
def pack : List ρ → List ρ → List ρ
  | shown, [] => shown
  | shown, r :: rest => if room (shown ++ [r]) then pack (shown ++ [r]) rest else shown

/-- Where pages begin: the first at 0, and the next one behind as many rows as there is
room for. -/
inductive Begins (rows : List ρ) : Nat → Prop
  | first : Begins rows 0
  | next {offset n : Nat} (h : Begins rows offset) (hroom : room ((rows.drop offset).take n))
      (hfull : ¬ room ((rows.drop offset).take (n + 1))) (hleft : offset + n < rows.length) :
      Begins rows (offset + n)

/-- A page shows what there is room for, and goes on behind it.  It is refused beyond the
last offset that a request may name. -/
def Packs (most : Nat) (rows : List ρ) (page : Nat → Except ε (List ρ × Option Nat)) : Prop :=
  ∀ offset ≤ rows.length,
    (offset ≤ most → page offset = .ok (pack room [] (rows.drop offset),
      if offset + (pack room [] (rows.drop offset)).length < rows.length then
        some (offset + (pack room [] (rows.drop offset)).length) else none)) ∧
    (most < offset → ∃ e, page offset = .error e)

variable {room}

theorem Begins.le_length {rows : List ρ} {offset : Nat} (h : Begins room rows offset) :
    offset ≤ rows.length := by
  cases h with
  | first => exact Nat.zero_le _
  | next _ _ _ hleft => exact Nat.le_of_lt hleft

/-- A page shows the first rows, and there is no room for one more. -/
theorem pack_spec (rest : List ρ) {shown : List ρ} (hshown : room shown) :
    ∃ n ≤ rest.length, pack room shown rest = shown ++ rest.take n ∧ room (shown ++ rest.take n) ∧
      (n < rest.length → ¬ room (shown ++ rest.take (n + 1))) := by
  induction rest generalizing shown with
  | nil => exact ⟨0, Nat.le_refl _, by simp [pack], by simpa using hshown, by simp⟩
  | cons r rest ih =>
    by_cases hr : room (shown ++ [r])
    · obtain ⟨n, hn, hpack, hroom, hfull⟩ := ih hr
      rw [append_assoc, singleton_append] at hpack hroom
      refine ⟨n + 1, Nat.succ_le_succ hn, ?_, hroom, ?_⟩
      · rw [pack, if_pos hr, hpack, take_succ_cons]
      · intro hless
        have hmore := hfull (Nat.lt_of_succ_lt_succ hless)
        rw [append_assoc, singleton_append] at hmore
        exact hmore
    · refine ⟨0, Nat.zero_le _, ?_, by simpa using hshown, ?_⟩
      · rw [pack, if_neg hr, take_zero, append_nil]
      · intro _
        exact hr

theorem pack_take (hnil : room []) (rows : List ρ) (offset : Nat) :
    ∃ n, offset + n ≤ max offset rows.length ∧
      pack room [] (rows.drop offset) = (rows.drop offset).take n ∧
      (pack room [] (rows.drop offset)).length = n ∧ room ((rows.drop offset).take n) ∧
      (offset + n < rows.length → ¬ room ((rows.drop offset).take (n + 1))) := by
  obtain ⟨n, hn, hpack, hroom, hfull⟩ := pack_spec (rows.drop offset) hnil
  rw [nil_append] at hpack hroom
  rw [length_drop] at hn
  refine ⟨n, by omega, hpack, ?_, hroom, ?_⟩
  · rw [hpack, length_take, length_drop]
    omega
  · intro hless
    exact hfull (by rw [length_drop]; omega)

/-- There is room for at most one number of first rows and for no more. -/
theorem packed_unique (hclosed : ∀ {a b : List ρ}, room (a ++ b) → room a)
    {n n' : Nat} (hless : n < rows.length) (hroom : room (rows.take n))
    (hfull : ¬ room (rows.take (n + 1))) (hroom' : room (rows.take n'))
    (hfull' : n' < rows.length → ¬ room (rows.take (n' + 1))) : n = n' := by
  have hshorter : ∀ {m k : Nat}, m ≤ k → room (rows.take k) → room (rows.take m) := by
    intro m k hle hk
    rw [← Nat.add_sub_cancel' hle, take_add] at hk
    exact hclosed hk
  refine Nat.le_antisymm ?_ ?_
  · by_contra hlt
    exact hfull' (by omega) (hshorter (by omega) hroom)
  · by_contra hlt
    exact hfull (hshorter (by omega) hroom')

/-- Pages show all rows in their order exactly when there is room for every row on a page
of its own, and no page begins beyond the last offset. -/
theorem visit_packed_iff {most : Nat} {page : Nat → Except ε (List ρ × Option Nat)} (hnil : room [])
    (hclosed : ∀ {a b : List ρ}, room (a ++ b) → room a)
    (hmember : ∀ {l : List ρ} {r : ρ}, room l → r ∈ l → room [r])
    (hpage : Packs room most rows page) :
    Visit page 0 rows ↔ (∀ r ∈ rows, room [r]) ∧ ∀ offset, Begins room rows offset → offset ≤ most := by
  constructor
  · intro hvisit
    -- What is visited from an offset on has room, whatever it shows.
    have hrows : ∀ {offset : Nat} {items : List ρ}, Visit page offset items →
        offset ≤ rows.length → offset ≤ most ∧ ∀ r ∈ rows.drop offset, room [r] := by
      intro offset items h
      induction h with
      | @last offset shown h =>
        intro hle
        have hmost : offset ≤ most := by
          by_contra hover
          obtain ⟨e, he⟩ := (hpage offset hle).2 (by omega)
          rw [he] at h
          cases h
        obtain ⟨n, hn, hpack, hcount, hroom, _⟩ := pack_take hnil rows offset
        have heq := (hpage offset hle).1 hmost
        rw [h, hcount] at heq
        have hend : ¬ offset + n < rows.length := by
          intro hless
          rw [if_pos hless] at heq
          cases heq
        rw [take_of_length_le (by rw [length_drop]; omega)] at hroom
        exact ⟨hmost, fun r hr => hmember hroom hr⟩
      | @next offset next shown rest h _ ih =>
        intro hle
        have hmost : offset ≤ most := by
          by_contra hover
          obtain ⟨e, he⟩ := (hpage offset hle).2 (by omega)
          rw [he] at h
          cases h
        obtain ⟨n, hn, hpack, hcount, hroom, _⟩ := pack_take hnil rows offset
        have heq := (hpage offset hle).1 hmost
        rw [h, hcount] at heq
        have hnext : next = offset + n ∧ offset + n < rows.length := by
          split at heq
          · next hless =>
              cases heq
              exact ⟨rfl, hless⟩
          · cases heq
        obtain ⟨rfl, hless⟩ := hnext
        refine ⟨hmost, ?_⟩
        intro r hr
        rw [← take_append_drop n (rows.drop offset), mem_append, drop_drop] at hr
        rcases hr with hr | hr
        · exact hmember hroom hr
        · exact (ih (Nat.le_of_lt hless)).2 r hr
    refine ⟨(hrows hvisit (Nat.zero_le _)).2, ?_⟩
    -- The visit comes by every offset at which a page begins.
    have hcomes : ∀ {offset : Nat}, Begins room rows offset →
        ∃ items, Visit page offset items := by
      intro offset h
      induction h with
      | first => exact ⟨rows, hvisit⟩
      | @next offset n h hroom hfull hleft ih =>
        obtain ⟨items, hitems⟩ := ih
        have hle := h.le_length
        have hmost := (hrows hitems hle).1
        obtain ⟨n', _, hpack, hcount, hroom', hfull'⟩ := pack_take hnil rows offset
        have heq := (hpage offset hle).1 hmost
        have hlen : (rows.drop offset).length = rows.length - offset := length_drop
        have hcut : n = n' := packed_unique hclosed (by omega) hroom hfull hroom'
          (fun h => hfull' (by omega))
        subst hcut
        rw [hcount, if_pos hleft] at heq
        cases hitems with
        | last h =>
          rw [heq] at h
          cases h
        | next h h' =>
          rw [heq] at h
          cases h
          exact ⟨_, h'⟩
    intro offset h
    obtain ⟨items, hitems⟩ := hcomes h
    exact (hrows hitems (h.le_length)).1
  · rintro ⟨hrows, hmost⟩
    have hends : ∀ offset, Begins room rows offset → Visit page offset (rows.drop offset) := by
      intro offset hbegins
      generalize hleft : rows.length - offset = left
      induction left using Nat.strongRecOn generalizing offset with
      | ind left ih =>
        have hle := hbegins.le_length
        obtain ⟨n, hn, hpack, hcount, hroom, hfull⟩ := pack_take hnil rows offset
        have heq := (hpage offset hle).1 (hmost offset hbegins)
        rw [hcount, hpack] at heq
        by_cases hless : offset + n < rows.length
        · rw [if_pos hless] at heq
          have hpos : 0 < n := by
            rcases Nat.eq_zero_or_pos n with rfl | hpos
            · have hdrop := drop_eq_getElem_cons (show offset < rows.length by omega)
              have hone := hfull hless
              rw [hdrop] at hone
              exact absurd (hrows _ (getElem_mem _)) hone
            · exact hpos
          have hrest := ih (rows.length - (offset + n)) (by omega) (offset + n)
            (Begins.next hbegins hroom (hfull hless) hless) rfl
          have hvisit := Visit.next heq hrest
          rw [← drop_drop, take_append_drop] at hvisit
          exact hvisit
        · rw [if_neg hless] at heq
          have hvisit := Visit.last heq
          rw [take_of_length_le (by rw [length_drop]; omega)] at hvisit
          exact hvisit
    exact hends 0 Begins.first

end Packed

end Cursors
