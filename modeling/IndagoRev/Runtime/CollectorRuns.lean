import IndagoRev.Runtime.Collector

/-!
# Runs of the collector

A step keeps what its records say of the pages, and owes nothing as long as no record is left
out; a run does what its steps do.
-/

namespace Indago.Collector

open SequencedLogs List

variable {cfg : Config}

theorem touches_iff {address size page : Nat} (h : OnePage address size) :
    touches address size page ↔ pageOf address = page :=
  ⟨fun ⟨i, hi, hpage⟩ => h.2 i hi ▸ hpage, fun hpage => ⟨0, h.1, hpage⟩⟩

section Table

variable {page p : Nat} {pages : List PageEntry} {f : PageEntry → PageEntry}

theorem write_page {n : Nat} (e : PageEntry) : (e.write n).page = e.page := rfl

theorem complete_page {n : Nat} (e : PageEntry) : (e.complete n).page = e.page := rfl

theorem found_skip (h : p ∉ pagesOf pages) (d : PageEntry) :
    pages.foldl (fun last e => if e.page = p then e else last) d = d := by
  induction pages with
  | nil => rfl
  | cons e pages ih =>
    obtain ⟨he, hpages⟩ := not_or.mp (fun h' => h (mem_cons.mpr h'))
    rw [foldl_cons, if_neg (fun h => he h.symm), ih hpages]

theorem found_first {e : PageEntry} (h : e.page ∉ pagesOf pages) :
    found e.page (e :: pages) = e := by
  unfold found
  rw [foldl_cons, if_pos rfl, found_skip h]

theorem found_later {e : PageEntry} (h : e.page ≠ p) : found p (e :: pages) = found p pages := by
  unfold found
  rw [foldl_cons, if_neg h]

theorem pagesOf_setPage (hf : ∀ e, (f e).page = e.page) : pagesOf (setPage page f pages) =
    if page ∈ pagesOf pages then pagesOf pages else pagesOf pages ++ [page] := by
  unfold pagesOf
  induction pages with
  | nil => exact congrArg (· :: []) (hf _)
  | cons e pages ih =>
    unfold setPage
    by_cases hpage : e.page = page
    · have hmem : page ∈ (e :: pages).map PageEntry.page := mem_cons.mpr (.inl hpage.symm)
      rw [if_pos hpage, if_pos hmem, map_cons, hf]
      rfl
    · rw [if_neg hpage, map_cons, ih]
      have hmem : page ∈ (e :: pages).map PageEntry.page ↔ page ∈ pages.map PageEntry.page := by
        rw [map_cons, mem_cons]
        exact or_iff_right (fun h => hpage h.symm)
      by_cases h : page ∈ pages.map PageEntry.page
      · rw [if_pos h, if_pos (hmem.mpr h)]
        rfl
      · rw [if_neg h, if_neg (fun h' => h (hmem.mp h'))]
        rfl

theorem mem_setPage (hf : ∀ e, (f e).page = e.page) :
    p ∈ pagesOf (setPage page f pages) ↔ p ∈ pagesOf pages ∨ p = page := by
  rw [pagesOf_setPage hf]
  split
  next h => exact ⟨.inl, fun hp => hp.elim id (fun hp => hp ▸ h)⟩
  next => rw [mem_append, mem_singleton]

theorem found_setPage (hf : ∀ e, (f e).page = e.page) (hnodup : (pagesOf pages).Nodup) :
    found p (setPage page f pages) = if page = p then f (found p pages) else found p pages := by
  induction pages with
  | nil =>
    change (if (f ⟨page, 0, 0⟩).page = p then f ⟨page, 0, 0⟩ else ⟨p, 0, 0⟩) = _
    rw [hf]
    split
    next h => exact congrArg (fun p => f ⟨p, 0, 0⟩) h
    next => rfl
  | cons e pages ih =>
    obtain ⟨hnew, hnodup⟩ := nodup_cons.mp hnodup
    unfold setPage
    by_cases hp : e.page = p
    · subst hp
      rw [found_first hnew]
      split
      next hpage => rw [if_pos hpage.symm, ← hf e, found_first ((hf e).symm ▸ hnew)]
      next hpage =>
        rw [if_neg (fun h => hpage h.symm)]
        refine found_first fun hmem => ?_
        rcases (mem_setPage hf).mp hmem with hmem | hmem
        · exact hnew hmem
        · exact hpage hmem
    · rw [found_later hp]
      split
      next hpage =>
        rw [found_later ((hf e).symm ▸ hp), if_neg (fun h => hp (hpage.trans h))]
      next => rw [found_later hp, ih hnodup]

theorem setPage_nodup (hf : ∀ e, (f e).page = e.page) (hnodup : (pagesOf pages).Nodup) :
    (pagesOf (setPage page f pages)).Nodup := by
  rw [pagesOf_setPage hf]
  split
  · exact hnodup
  next h =>
    exact (perm_append_singleton _ _).nodup_iff.mpr (nodup_cons.mpr ⟨h, hnodup⟩)

/-- A table has room where the pages that it has then are few. -/
theorem setPage_length {all : Finset Nat} (hf : ∀ e, (f e).page = e.page)
    (hnodup : (pagesOf pages).Nodup) (hpages : (pagesOf pages).toFinset ⊆ all)
    (hpage : page ∈ all) (hall : all.card ≤ 4096) : (setPage page f pages).length ≤ 4096 := by
  have hlength : (setPage page f pages).length = (pagesOf (setPage page f pages)).toFinset.card := by
    rw [toFinset_card_of_nodup (setPage_nodup hf hnodup)]
    exact (length_map _).symm
  rw [hlength]
  refine Nat.le_trans (Finset.card_le_card fun p hp => ?_) hall
  rcases (mem_setPage hf).mp (mem_toFinset.mp hp) with hp | rfl
  · exact hpages (mem_toFinset.mpr hp)
  · exact hpage

end Table

/-- A write that waits for its completion: its attempt is on record. -/
structure Pending (s : State) (w : PendingWrite) : Prop where
  inside : OnePage w.address w.size
  page : pageOf w.address ∈ pagesOf s.pages
  attempt : ∃ r ∈ s.output, attempted (pageOf w.address) r ≠ none

variable (cfg) in
structure Kept (s : State) : Prop where
  numbered : Numbered Record.sequence s.output s.count
  bounded : s.count ≤ cfg.budget
  nodup : (pagesOf s.pages).Nodup
  full : s.pages.length ≤ 4096
  written : ∀ p, (if cfg.effects then (found p s.pages).written else 0) =
    latest (attempted p) s.output
  completed : ∀ p, (found p s.pages).completed = latest (confirmed p) s.output
  pending : ∀ t, ∀ w ∈ (s.threads t).writes, Pending s w
  accounted : ∀ before r after, s.output = before ++ r :: after → Accounted before r

variable {r : Record}

theorem attempted_sequence {p n : Nat} (h : attempted p r = some n) : r.sequence = some n := by
  unfold attempted at h
  split at h
  · split at h
    · exact h
    · cases h
  · cases h

theorem confirmed_sequence {p n : Nat} (h : confirmed p r = some n) : r.sequence = some n := by
  unfold confirmed at h
  split at h
  · split at h
    · exact h
    · cases h
  · cases h

variable {l : List Record} {f : Record → Option Nat}

/-- A number that a new record has is the largest. -/
theorem latest_new {count : Nat}
    (hf : ∀ {r n}, f r = some n → r.sequence = some n) (h : Numbered Record.sequence l count)
    (hr : r.sequence = some (count + 1)) : latest f (l ++ [r]) = (f r).getD (latest f l) := by
  rw [latest_snoc]
  cases hn : f r with
  | none => exact Nat.max_zero _
  | some n =>
    have hle : latest f l ≤ count := latest_le fun r' hr' n' hn' => h.le hr' (hf hn')
    have heq : count + 1 = n := Option.some.inj (hr.symm.trans (hf hn))
    exact Nat.max_eq_right (by rw [Option.getD_some]; omega)

theorem latest_old (hf : ∀ {r n}, f r = some n → r.sequence = some n) (hr : r.sequence = none) :
    latest f (l ++ [r]) = latest f l := by
  have hnone : f r = none := Option.eq_none_iff_forall_ne_some.mpr fun n hn => by
    rw [hf hn] at hr
    cases hr
  rw [latest_snoc, hnone]
  exact Nat.max_zero _

theorem snoc_accounted
    (h : ∀ before r after, l = before ++ r :: after → Accounted before r) (hr : Accounted l r) :
    ∀ before r' after, l ++ [r] = before ++ r' :: after → Accounted before r' := by
  intro before r' after heq
  rcases eq_nil_or_concat after with rfl | ⟨after, last, rfl⟩
  · obtain ⟨rfl, hlast⟩ := append_inj' heq rfl
    cases hlast
    exact hr
  · rw [concat_eq_append, ← cons_append, ← append_assoc] at heq
    exact h before r' after (append_inj' heq rfl).1

section Steps

variable {s : State} {w : PendingWrite}

theorem Pending.mono {s' : State} (h : Pending s w)
    (hpages : pagesOf s.pages ⊆ pagesOf s'.pages) (houtput : s.output ⊆ s'.output) : Pending s' w :=
  have ⟨r, hr, hattempt⟩ := h.attempt
  ⟨h.inside, hpages h.page, r, houtput hr, hattempt⟩

/-- A numbered record, with the table of pages that goes with it. -/
theorem Kept.emit {r : Nat → Record} {pages : List PageEntry} (h : Kept cfg s)
    (hroom : s.count < cfg.budget) (hnumber : ∀ n, (r n).sequence = some n)
    (hnodup : (pagesOf pages).Nodup) (hfull : pages.length ≤ 4096)
    (hmore : pagesOf s.pages ⊆ pagesOf pages)
    (hwritten : ∀ p, (if cfg.effects then (found p pages).written else 0) =
      (attempted p (r (s.count + 1))).getD (if cfg.effects then (found p s.pages).written else 0))
    (hcompleted : ∀ p, (found p pages).completed =
      (confirmed p (r (s.count + 1))).getD (found p s.pages).completed)
    (haccounted : Accounted s.output (r (s.count + 1))) : Kept cfg { s.emit r with pages } where
  numbered := h.numbered.snoc (hnumber _)
  bounded := hroom
  nodup := hnodup
  full := hfull
  written p := by
    rw [hwritten, h.written]
    exact (latest_new attempted_sequence h.numbered (hnumber _)).symm
  completed p := by
    rw [hcompleted, h.completed]
    exact (latest_new confirmed_sequence h.numbered (hnumber _)).symm
  pending t w hw := (h.pending t w hw).mono hmore (subset_append_left _ _)
  accounted := snoc_accounted h.accounted haccounted

/-- A numbered record that is about no write. -/
theorem Kept.emit_other {r : Nat → Record} (h : Kept cfg s) (hroom : s.count < cfg.budget)
    (hnumber : ∀ n, (r n).sequence = some n) (hattempted : ∀ p n, attempted p (r n) = none)
    (hconfirmed : ∀ p n, confirmed p (r n) = none)
    (haccounted : Accounted s.output (r (s.count + 1))) : Kept cfg (s.emit r) :=
  h.emit hroom hnumber h.nodup h.full (List.Subset.refl _) (fun p => by rw [hattempted]; rfl)
    (fun p => by rw [hconfirmed]; rfl) haccounted

/-- A line without a number. -/
theorem Kept.line {capped : Bool} {events : Nat} (h : Kept cfg s)
    (hr : r.sequence = none) (haccounted : Accounted s.output r) :
    Kept cfg { s with capped, moduleEvents := events, output := s.output ++ [r] } where
  numbered := h.numbered.skip hr
  bounded := h.bounded
  nodup := h.nodup
  full := h.full
  written p := (h.written p).trans (latest_old attempted_sequence hr).symm
  completed p := (h.completed p).trans (latest_old confirmed_sequence hr).symm
  pending t w hw :=
    (h.pending t w hw).mono (List.Subset.refl _) (subset_append_left _ _)
  accounted := snoc_accounted h.accounted haccounted

theorem Kept.quiet {capped : Bool} {events : Nat} (h : Kept cfg s) :
    Kept cfg { s with capped, moduleEvents := events } :=
  ⟨h.numbered, h.bounded, h.nodup, h.full, h.written, h.completed,
    fun t w hw => (h.pending t w hw).mono (List.Subset.refl _) (List.Subset.refl _), h.accounted⟩

variable {thread : Nat}

theorem Kept.setThread {t : ThreadWrites} (h : Kept cfg s)
    (ht : ∀ w ∈ t.writes, Pending s w) : Kept cfg (s.setThread thread t) where
  numbered := h.numbered
  bounded := h.bounded
  nodup := h.nodup
  full := h.full
  written := h.written
  completed := h.completed
  pending t' w hw := by
    have hpending : Pending s w := by
      unfold State.setThread at hw
      dsimp only at hw
      split at hw
      · exact ht w hw
      · exact h.pending t' w hw
    exact hpending.mono (List.Subset.refl _) (List.Subset.refl _)
  accounted := h.accounted

theorem Kept.moduleEvent {loaded : Bool} {start finish : Nat} {path : List UInt8}
    (h : Kept cfg s) : Kept cfg (moduleEvent loaded start finish path s) := by
  unfold Collector.moduleEvent
  dsimp only
  split
  · exact h.line rfl trivial
  · exact h.quiet

theorem onePage_size {address size : Nat} (h : OnePage address size) : size ≤ 4096 := by
  by_contra hsize
  have hpage := h.2 4096 (Nat.lt_of_not_le hsize)
  unfold pageOf at hpage
  omega

/-- The loop ends with the only page of a write. -/
theorem markPages_one {page sequence fuel : Nat} (h : 0 < fuel) :
    markPages page sequence fuel page s = s.mark page (PageEntry.complete sequence) := by
  cases fuel with
  | zero => exact absurd h (Nat.lt_irrefl 0)
  | succ fuel => exact if_pos rfl

theorem setPage_known {page : Nat} {f : PageEntry → PageEntry} (h : Kept cfg s)
    (hf : ∀ e, (f e).page = e.page) (hpage : page ∈ pagesOf s.pages) :
    (setPage page f s.pages).length ≤ 4096 :=
  setPage_length hf h.nodup (Finset.Subset.refl _) (mem_toFinset.mpr hpage)
    (Nat.le_trans (toFinset_card_le _) (Nat.le_trans (Nat.le_of_eq (length_map _)) h.full))

variable {read : Nat → Nat → List UInt8}

theorem Kept.completeWrite
    (h : Kept cfg s) (hw : Pending s w) (hroom : s.count < cfg.budget) :
    Kept cfg (completeWrite thread read w s) ∧
      ∀ w', Pending s w' → Pending (completeWrite thread read w s) w' := by
  obtain ⟨pc, address, size, attempt, unconditional⟩ := w
  have hsize := hw.inside.1
  unfold Collector.completeWrite
  dsimp only
  cases unconditional with
  | false =>
    rw [if_neg (fun h => nomatch h.1)]
    exact ⟨h.emit_other hroom (fun _ => rfl) (fun _ _ => rfl) (fun _ _ => rfl) trivial,
      fun w' hw' => hw'.mono (List.Subset.refl _) (subset_append_left _ _)⟩
  | true =>
    have hlast : pageOf (address + size - 1) = pageOf address := by
      rw [Nat.add_sub_assoc hsize]
      exact hw.inside.2 (size - 1) (Nat.sub_lt hsize Nat.one_pos)
    have hlength := setPage_known h (complete_page (n := s.count + 1)) hw.page
    have hmore : pagesOf s.pages ⊆
        pagesOf (setPage (pageOf address) (PageEntry.complete (s.count + 1)) s.pages) :=
      fun p hp => (mem_setPage complete_page).mpr (.inl hp)
    rw [if_pos ⟨rfl, hsize, onePage_size hw.inside⟩, hlast, markPages_one hsize]
    unfold State.mark
    dsimp only [State.emit]
    rw [if_pos hlength]
    refine ⟨h.emit (r := (.memoryEffectCompleted · attempt thread pc address size
      (read address (min size 16)) true)) hroom (fun _ => rfl)
      (setPage_nodup complete_page h.nodup) hlength hmore (fun p => ?_) (fun p => ?_)
      (fun page hpage => ?_),
      fun w' hw' => hw'.mono hmore (subset_append_left _ _)⟩
    · have hsame : (found p (setPage (pageOf address) (PageEntry.complete (s.count + 1))
          s.pages)).written = (found p s.pages).written := by
        rw [found_setPage complete_page h.nodup]
        split <;> rfl
      rw [hsame]
      rfl
    · rw [found_setPage complete_page h.nodup]
      simp only [confirmed, touches_iff hw.inside]
      split <;> rfl
    · rw [touches_iff hw.inside] at hpage
      exact hpage ▸ hw.attempt

theorem Kept.completeWrites
    {writes : List PendingWrite} (h : Kept cfg s) (hwrites : ∀ w ∈ writes, Pending s w) :
    Kept cfg (completeWrites cfg thread read writes s) := by
  induction writes generalizing s with
  | nil => exact h
  | cons w writes ih =>
    obtain ⟨hw, hwrites⟩ := forall_mem_cons.mp hwrites
    unfold Collector.completeWrites
    split
    · exact h.quiet
    next hroom =>
      obtain ⟨hkept, hmono⟩ := h.completeWrite hw (Nat.lt_of_not_le hroom)
      exact ih hkept fun w' hw' => hmono w' (hwrites w' hw')

theorem Kept.writesCompleted (h : Kept cfg s) : Kept cfg (writesCompleted cfg thread read s) :=
  (h.completeWrites (h.pending thread)).setThread fun _ h => nomatch h

theorem Kept.transferKind {thread pc target timestamp : Nat} {kind : TransferKind}
    (h : Kept cfg s) : Kept cfg (transferKind cfg thread pc target kind timestamp s) := by
  unfold Collector.transferKind
  dsimp only
  have hlast : ∀ {s : State}, Kept cfg s → Kept cfg (if s.count < cfg.budget then
      s.setThread thread { s.threads thread with source := pc, target, transfer := s.count }
      else s) := by
    intro s h
    split
    · exact h.setThread (h.pending thread)
    · exact h
  split
  next hroom =>
    exact hlast (h.emit_other hroom (fun _ => rfl) (fun _ _ => rfl) (fun _ _ => rfl) trivial)
  next => exact h.quiet

theorem Kept.takeTransfer {thread pc : Nat} (h : Kept cfg s) (hroom : s.count < cfg.budget) :
    Kept cfg (takeTransfer thread pc s) := by
  unfold Collector.takeTransfer
  dsimp only
  split
  · exact h
  split
  · have hkept := h.emit_other (r := (.controlTransferTaken · (s.threads thread).transfer thread
      (s.threads thread).source pc)) hroom (fun _ => rfl) (fun _ _ => rfl) (fun _ _ => rfl) trivial
    exact hkept.setThread (hkept.pending thread)
  · exact h.setThread (h.pending thread)

theorem Kept.record {thread pc size : Nat} (h : Kept cfg s) :
    Kept cfg (record cfg thread pc size read s) := by
  unfold Collector.record
  split
  next hroom =>
    have hkept : Kept cfg (Collector.takeTransfer thread pc s) := h.takeTransfer hroom
    dsimp only
    split
    · exact hkept.quiet
    next hroom =>
      exact hkept.emit_other (Nat.lt_of_not_le hroom) (fun _ => rfl) (fun _ _ => rfl)
        (fun _ _ => rfl) ⟨hkept.completed _, hkept.written _⟩
  next =>
    split
    · exact h
    · exact h.line rfl trivial

variable {thread pc timestamp : Nat} {isMovStore : Bool}

theorem Kept.readEffect {operand : Operand} (h : Kept cfg s) (hroom : s.count < cfg.budget) :
    Kept cfg (memoryEffect thread pc isMovStore false read timestamp s operand) := by
  cases operand with
  | register => exact h
  | memory address size =>
    exact h.emit_other (r := (.memoryEffect · timestamp thread pc address size false _)) hroom
      (fun _ => rfl) (fun _ _ => rfl) (fun _ _ => rfl) trivial

variable {operands : List Operand}

theorem Kept.readEffects (h : Kept cfg s) :
    Kept cfg (effectLoop cfg thread pc isMovStore false read timestamp operands s) := by
  induction operands generalizing s with
  | nil => exact h
  | cons operand operands ih =>
    unfold effectLoop
    split
    next hroom => exact ih (h.readEffect hroom)
    next => exact h

/-- A write is marked on its page and waits for its completion. -/
theorem Kept.writeEffect {thread pc timestamp address size : Nat}
    {all : Finset Nat} (heffects : cfg.effects = true)
    (h : Kept cfg s) (hroom : s.count < cfg.budget) (hinside : OnePage address size)
    (hpages : (pagesOf s.pages).toFinset ⊆ all) (hpage : pageOf address ∈ all)
    (hall : all.card ≤ 4096) :
    Kept cfg (memoryEffect thread pc isMovStore true read timestamp s (.memory address size)) ∧
      (pagesOf (memoryEffect thread pc isMovStore true read timestamp s
        (.memory address size)).pages).toFinset ⊆ all := by
  have hlength := setPage_length (f := PageEntry.write (s.count + 1))
    write_page h.nodup hpages hpage hall
  have hkept : Kept cfg { s.emit (.memoryEffect · timestamp thread pc address size true
      (read address (min size 16))) with
      pages := setPage (pageOf address) (PageEntry.write (s.count + 1)) s.pages } := by
    refine h.emit hroom (fun _ => rfl) (setPage_nodup write_page h.nodup) hlength
      (fun p hp => (mem_setPage write_page).mpr (.inl hp)) (fun p => ?_) (fun p => ?_) trivial
    · rw [if_pos heffects, if_pos heffects, found_setPage write_page h.nodup]
      simp only [attempted, touches_iff hinside]
      split <;> rfl
    · rw [found_setPage write_page h.nodup]
      split <;> rfl
  have hsubset : (pagesOf (setPage (pageOf address)
      (PageEntry.write (s.count + 1)) s.pages)).toFinset ⊆ all := by
    intro p hp
    rcases (mem_setPage write_page).mp (mem_toFinset.mp hp) with hp | rfl
    · exact hpages (mem_toFinset.mpr hp)
    · exact hpage
  unfold memoryEffect State.mark State.pushWrite
  dsimp only [State.emit]
  rw [if_pos rfl, if_pos hlength]
  split
  · refine ⟨hkept.setThread fun w hw => ?_, hsubset⟩
    rcases mem_append.mp hw with hw | hw
    · exact hkept.pending thread w hw
    · obtain rfl := mem_singleton.mp hw
      refine ⟨hinside, (mem_setPage write_page).mpr (.inr rfl), _,
        mem_append_right _ mem_cons_self, ?_⟩
      simp [attempted, touches_iff hinside]
  · exact ⟨hkept, hsubset⟩

theorem Kept.writeEffects {all : Finset Nat} (heffects : cfg.effects = true) (h : Kept cfg s)
    (hinside : ∀ w ∈ memoryOf operands, OnePage w.1 w.2 ∧ pageOf w.1 ∈ all)
    (hpages : (pagesOf s.pages).toFinset ⊆ all) (hall : all.card ≤ 4096) :
    Kept cfg (effectLoop cfg thread pc isMovStore true read timestamp operands s) := by
  induction operands generalizing s with
  | nil => exact h
  | cons operand operands ih =>
    unfold effectLoop
    split
    next hroom =>
      cases operand with
      | register => exact ih h hinside hpages
      | memory address size =>
        obtain ⟨⟨hone, hpage⟩, hinside⟩ := forall_mem_cons.mp hinside
        obtain ⟨hkept, hpages⟩ := h.writeEffect heffects hroom hone hpages hpage hall
        exact ih hkept hinside hpages
    next => exact h

theorem effectLoop_pages :
    (effectLoop cfg thread pc isMovStore false read timestamp operands s).pages = s.pages := by
  induction operands generalizing s with
  | nil => rfl
  | cons operand operands ih =>
    unfold effectLoop
    split
    · rw [ih]
      cases operand <;> rfl
    · rfl

theorem Kept.step {c : Callback} (h : Kept cfg s) (hinserted : Inserted cfg c)
    (hfits : Fits cfg s c) : Kept cfg (step cfg s c) := by
  cases c with
  | moduleEvent loaded start finish path => exact h.moduleEvent
  | writesCompleted thread read => exact h.writesCompleted
  | transferKind thread pc target kind timestamp => exact h.transferKind
  | record thread pc size read => exact h.record
  | memoryEffects thread pc i decoded read timestamp =>
    have hstart : Kept cfg (s.setThread thread { s.threads thread with writes := [] }) :=
      h.setThread fun _ h => nomatch h
    change Kept cfg (memoryEffects cfg thread pc i decoded read timestamp s)
    unfold memoryEffects
    dsimp only
    split
    · exact hstart.quiet
    next hroom =>
      obtain ⟨rfl, -, -, hinside, hall⟩ := hfits.resolve_left hroom
      refine hstart.readEffects.writeEffects hinserted (fun w hw => ⟨hinside w hw, ?_⟩) ?_ hall
      · exact mem_toFinset.mpr
          (mem_append_right _ (mem_map.mpr ⟨w, hw, rfl⟩))
      · rw [effectLoop_pages]
        exact fun p hp => mem_toFinset.mpr (mem_append_left _ (mem_toFinset.mp hp))

end Steps

/-- What is on record, and the writes that wait. -/
structure Reported (a : Attempts) (contents : List Content) (s : State) : Prop where
  recorded : s.output.filterMap Record.content = contents
  waiting : ∀ t, (s.threads t).writes.map (fun w => (w.pc, w.address, w.size)) = a t

section Reports

variable {s s' : State} {a : Attempts} {contents : List Content}

theorem Reported.snoc (h : Reported a contents s) (houtput : s'.output = s.output ++ [r])
    (hthreads : ∀ t, (s'.threads t).writes = (s.threads t).writes) :
    Reported a (contents ++ r.content.toList) s' where
  recorded := by
    rw [houtput, filterMap_append, h.recorded]
    cases hr : r.content with
    | none => rw [filterMap_cons_none hr]; rfl
    | some c => rw [filterMap_cons_some hr]; rfl
  waiting t := by rw [hthreads, h.waiting]

/-- What happens without a line. -/
structure Silent (s s' : State) : Prop where
  output : s'.output = s.output
  threads : s'.threads = s.threads
  count : s'.count = s.count
  capped : s'.capped = false → s.capped = false

theorem mark_silent {page : Nat} {f : PageEntry → PageEntry} : Silent s (s.mark page f) := by
  unfold State.mark
  dsimp only
  split
  · exact ⟨rfl, rfl, rfl, id⟩
  · exact ⟨rfl, rfl, rfl, fun h => nomatch h⟩

theorem markPages_silent {last sequence fuel page : Nat} :
    Silent s (markPages last sequence fuel page s) := by
  induction fuel generalizing s page with
  | zero => exact ⟨rfl, rfl, rfl, id⟩
  | succ fuel ih =>
    have hmark : Silent s (s.mark page (PageEntry.complete sequence)) := mark_silent
    unfold markPages
    dsimp only
    split
    · exact hmark
    · have hrest : Silent (s.mark page (PageEntry.complete sequence)) (markPages last sequence fuel
          ((page + 1) % 2 ^ 52) (s.mark page (PageEntry.complete sequence))) := ih
      exact ⟨hrest.output.trans hmark.output, hrest.threads.trans hmark.threads,
        hrest.count.trans hmark.count, fun h => hmark.capped (hrest.capped h)⟩

variable {thread pc timestamp : Nat} {read : Nat → Nat → List UInt8}

theorem completeWrite_logged (w : PendingWrite) (s : State) (thread : Nat)
    (read : Nat → Nat → List UInt8) :
    ∃ r : Record, r.content = some (.completion thread w.pc w.address w.size) ∧
      (completeWrite thread read w s).output = s.output ++ [r] ∧
      (completeWrite thread read w s).threads = s.threads ∧
      ((completeWrite thread read w s).capped = false → s.capped = false) := by
  refine ⟨.memoryEffectCompleted (s.count + 1) w.attempt thread w.pc w.address w.size
    (read w.address (min w.size 16)) w.unconditional, rfl, ?_⟩
  unfold completeWrite
  dsimp only
  split
  · exact ⟨markPages_silent.output, markPages_silent.threads, markPages_silent.capped⟩
  · exact ⟨rfl, rfl, id⟩

theorem completeWrites_reported {writes : List PendingWrite}
    (h : s.capped = false → Reported a contents s)
    (hcapped : (completeWrites cfg thread read writes s).capped = false) : s.capped = false ∧
    Reported a (contents ++ writes.map fun w => .completion thread w.pc w.address w.size)
      (completeWrites cfg thread read writes s) := by
  induction writes generalizing s contents with
  | nil => exact ⟨hcapped, (append_nil contents).symm ▸ h hcapped⟩
  | cons w writes ih =>
    unfold completeWrites at hcapped ⊢
    split at hcapped
    · cases hcapped
    next hroom =>
      rw [if_neg hroom]
      obtain ⟨r, hr, houtput, hthreads, hbefore⟩ := completeWrite_logged w s thread read
      have hsnoc : (completeWrite thread read w s).capped = false →
          Reported a (contents ++ [.completion thread w.pc w.address w.size])
            (completeWrite thread read w s) := by
        intro hcapped
        have hsnoc := (h (hbefore hcapped)).snoc houtput (fun t => by rw [hthreads])
        rwa [hr] at hsnoc
      obtain ⟨hafter, hnext⟩ := ih hsnoc hcapped
      rw [append_assoc] at hnext
      exact ⟨hbefore hafter, hnext⟩

variable {thread : Nat}

theorem Reported.setThread {t : ThreadWrites} (h : Reported a contents s) :
    Reported (fun j => if j = thread then t.writes.map (fun w => (w.pc, w.address, w.size))
      else a j) contents (s.setThread thread t) where
  recorded := h.recorded
  waiting j := by
    unfold State.setThread
    dsimp only
    split
    · rfl
    · exact h.waiting j

/-- The attempts of a thread, with those of some more writes. -/
def pushed (a : Attempts) (thread pc : Nat) (write : Bool) (ws : List (Nat × Nat)) : Attempts :=
  fun j => if j = thread ∧ write = true then a j ++ ws.map (fun w => (pc, w)) else a j

theorem pushWrite_capped {w : PendingWrite} :
    (s.pushWrite thread w).capped = s.capped := by
  unfold State.pushWrite
  dsimp only
  split <;> rfl

theorem pushWrite_count {w : PendingWrite} :
    (s.pushWrite thread w).count = s.count := by
  unfold State.pushWrite
  dsimp only
  split <;> rfl

theorem Reported.pushWrite {w : PendingWrite} (h : Reported a contents s)
    (hfew : (a thread).length < 8) :
    Reported (pushed a thread w.pc true [(w.address, w.size)]) contents (s.pushWrite thread w) := by
  have hlength : (s.threads thread).writes.length = (a thread).length := by
    rw [← h.waiting thread, length_map]
  unfold State.pushWrite
  dsimp only
  rw [if_pos (hlength.trans_lt hfew)]
  refine ⟨h.recorded, fun j => ?_⟩
  unfold State.setThread pushed
  dsimp only
  by_cases hj : j = thread
  · rw [if_pos hj, if_pos ⟨hj, rfl⟩, map_append, h.waiting, hj]
    rfl
  · rw [if_neg hj, if_neg (fun h => hj h.1), h.waiting]

variable {isMovStore write : Bool} {read : Nat → Nat → List UInt8}

theorem memoryEffect_reported {thread pc timestamp address size : Nat}
    (h : s.capped = false → Reported a contents s)
    (hfew : write = true → (a thread).length < 8)
    (hcapped : (memoryEffect thread pc isMovStore write read timestamp s
      (.memory address size)).capped = false) :
    Reported (pushed a thread pc write [(address, size)])
      (contents ++ [.effect thread pc address size write])
      (memoryEffect thread pc isMovStore write read timestamp s (.memory address size)) := by
  have hemit : ∀ {s' : State}, Silent (s.emit (.memoryEffect · timestamp thread pc address size
      write (read address (min size 16)))) s' → s'.capped = false → Reported a
      (contents ++ [.effect thread pc address size write]) s' := fun hs hcapped =>
    (h (hs.capped hcapped)).snoc hs.output (fun t => by rw [hs.threads]; rfl)
  cases write with
  | false =>
    have hreported := hemit ⟨rfl, rfl, rfl, id⟩ hcapped
    exact ⟨hreported.recorded, fun j => (hreported.waiting j).trans (if_neg (by simp)).symm⟩
  | true =>
    exact (hemit mark_silent (pushWrite_capped.symm.trans hcapped)).pushWrite
      (w := ⟨pc, address, size, s.count + 1, isMovStore⟩) (hfew rfl)

theorem memoryEffect_count {thread pc timestamp address size : Nat}
    :
    (memoryEffect thread pc isMovStore write read timestamp s (.memory address size)).count =
      s.count + 1 := by
  cases write with
  | false => rfl
  | true => exact pushWrite_count.trans mark_silent.count

variable {write : Bool}

theorem pushed_nil {thread pc : Nat} : pushed a thread pc write [] = a := by
  funext j
  unfold pushed
  rw [map_nil, append_nil, ite_self]

theorem pushed_pushed {thread pc : Nat} {w : Nat × Nat} {ws : List (Nat × Nat)} :
    pushed (pushed a thread pc write [w]) thread pc write ws = pushed a thread pc write (w :: ws) := by
  funext j
  unfold pushed
  split
  · exact append_assoc _ _ _
  · rfl

theorem pushed_length {thread pc : Nat} {w : Nat × Nat} (h : write = true) :
    (pushed a thread pc write [w] thread).length = (a thread).length + 1 := by
  unfold pushed
  rw [if_pos ⟨rfl, h⟩, length_append]
  rfl

/-- With room for all operands, the loop records each of them. -/
theorem effectLoop_reported (thread pc : Nat) (isMovStore write : Bool)
    (read : Nat → Nat → List UInt8) (timestamp : Nat) {operands : List Operand}
    (h : s.capped = false → Reported a contents s)
    (hroom : s.count + (memoryOf operands).length ≤ cfg.budget)
    (hfew : write = true → (a thread).length + (memoryOf operands).length ≤ 8) :
    (effectLoop cfg thread pc isMovStore write read timestamp operands s).count =
      s.count + (memoryOf operands).length ∧
    ((effectLoop cfg thread pc isMovStore write read timestamp operands s).capped = false →
      Reported (pushed a thread pc write (memoryOf operands))
        (contents ++ (memoryOf operands).map (fun w => .effect thread pc w.1 w.2 write))
        (effectLoop cfg thread pc isMovStore write read timestamp operands s)) := by
  induction operands generalizing s a contents with
  | nil =>
    refine ⟨rfl, fun hcapped => ?_⟩
    change Reported (pushed a thread pc write []) (contents ++ []) s
    rw [pushed_nil, append_nil]
    exact h hcapped
  | cons operand operands ih =>
    unfold effectLoop
    cases operand with
    | register =>
      split
      · exact ih h hroom hfew
      next hfull =>
        have hnil : memoryOf (.register :: operands) = [] :=
          length_eq_zero_iff.mp (by omega)
        rw [hnil, pushed_nil, map_nil, append_nil]
        exact ⟨rfl, h⟩
    | memory address size =>
      change s.count + ((memoryOf operands).length + 1) ≤ _ at hroom
      change write = true → _ + ((memoryOf operands).length + 1) ≤ 8 at hfew
      rw [if_pos (by omega)]
      obtain ⟨hcount, hrest⟩ := ih
        (s := memoryEffect thread pc isMovStore write read timestamp s (.memory address size))
        (memoryEffect_reported h fun hwrite => by have := hfew hwrite; omega)
        (by rw [memoryEffect_count]; omega) (fun hwrite => by
          rw [pushed_length hwrite]
          have := hfew hwrite
          omega)
      refine ⟨hcount.trans ?_, fun hcapped => ?_⟩
      · rw [memoryEffect_count]
        exact Nat.add_right_comm _ _ _
      · have hreported := hrest hcapped
        rwa [pushed_pushed, append_assoc] at hreported

theorem memoryEffects_reported {thread pc timestamp : Nat} {i : Instruction} {decoded : Bool}
    (h : s.capped = false → Reported a contents s)
    (hfits : Fits cfg s (.memoryEffects thread pc i decoded read timestamp))
    (hcapped : (memoryEffects cfg thread pc i decoded read timestamp s).capped = false) :
    Reported (attempts a (.memoryEffects thread pc i decoded read timestamp))
      (contents ++ owed a (.memoryEffects thread pc i decoded read timestamp))
      (memoryEffects cfg thread pc i decoded read timestamp s) := by
  unfold memoryEffects at hcapped ⊢
  dsimp only at hcapped ⊢
  split at hcapped
  · cases hcapped
  next hroom =>
    obtain ⟨rfl, hbudget, hfew, -⟩ := hfits.resolve_left hroom
    rw [if_neg hroom]
    change s.count + _ + _ ≤ _ at hbudget
    rw [if_pos rfl] at hcapped ⊢
    have hstart : s.capped = false → Reported (fun j => if j = thread then [] else a j) contents
        (s.setThread thread { s.threads thread with writes := [] }) :=
      fun hcapped => (h hcapped).setThread (t := { s.threads thread with writes := [] })
    have hsources : s.count + (memoryOf i.sources).length ≤ cfg.budget :=
      Nat.le_trans (Nat.le_add_right _ _) hbudget
    have hreads := effectLoop_reported thread pc i.isMovStore false read timestamp
      (s := s.setThread thread { s.threads thread with writes := [] }) hstart hsources (fun h => nomatch h)
    have hwrites := (effectLoop_reported thread pc i.isMovStore true read timestamp hreads.2
      (by rw [hreads.1]; exact hbudget) (fun _ => by
        unfold pushed
        dsimp only
        rw [if_neg (by simp), if_pos rfl]
        exact (Nat.zero_add _).trans_le hfew)).2 hcapped
    refine ⟨hwrites.recorded.trans (append_assoc _ _ _), fun j => (hwrites.waiting j).trans ?_⟩
    unfold pushed attempts
    dsimp only
    by_cases hj : j = thread
    · rw [if_pos ⟨hj, rfl⟩, if_neg (by simp), if_pos hj, if_pos hj]
      rfl
    · rw [if_neg (fun h => hj h.1), if_neg (by simp), if_neg hj, if_neg hj]

theorem setThread_writes {t : ThreadWrites}
    (h : t.writes = (s.threads thread).writes) (j : Nat) :
    ((s.setThread thread t).threads j).writes = (s.threads j).writes := by
  unfold State.setThread
  dsimp only
  split
  next hj => rw [h, hj]
  next => rfl

theorem Reported.same (h : Reported a contents s) (houtput : s'.output = s.output)
    (hthreads : ∀ t, (s'.threads t).writes = (s.threads t).writes) : Reported a contents s' :=
  ⟨houtput ▸ h.recorded, fun t => by rw [hthreads, h.waiting]⟩

/-- A line that owes nothing. -/
theorem Reported.other (h : Reported a contents s) (hr : r.content = none)
    (houtput : s'.output = s.output ++ [r])
    (hthreads : ∀ t, (s'.threads t).writes = (s.threads t).writes) : Reported a contents s' := by
  have hsnoc := h.snoc houtput hthreads
  rw [hr] at hsnoc
  exact append_nil contents ▸ hsnoc

theorem transferKind_reported {thread pc target timestamp : Nat} {kind : TransferKind}
    (h : s.capped = false → Reported a contents s)
    (hcapped : (transferKind cfg thread pc target kind timestamp s).capped = false) :
    Reported a (contents ++ [.transfer thread pc target kind])
      (transferKind cfg thread pc target kind timestamp s) := by
  unfold transferKind at hcapped ⊢
  dsimp only at hcapped ⊢
  by_cases hroom : s.count < cfg.budget
  · rw [if_pos hroom] at hcapped ⊢
    split at hcapped
    next hmore =>
      rw [if_pos hmore]
      exact (h hcapped).snoc (r := .controlTransfer kind (s.count + 1) timestamp thread pc target)
        rfl (fun j => setThread_writes (by rfl) j)
    next hmore =>
      rw [if_neg hmore]
      exact (h hcapped).snoc (r := .controlTransfer kind (s.count + 1) timestamp thread pc target)
        rfl fun _ => rfl
  · rw [if_neg hroom, if_neg hroom] at hcapped
    cases hcapped

theorem takeTransfer_reported {thread pc : Nat} (h : s.capped = false → Reported a contents s)
    (hcapped : (takeTransfer thread pc s).capped = false) :
    Reported a contents (takeTransfer thread pc s) := by
  unfold takeTransfer at hcapped ⊢
  dsimp only at hcapped ⊢
  split at hcapped
  next hnone =>
    rw [if_pos hnone]
    exact h hcapped
  next hsome =>
    rw [if_neg hsome]
    split at hcapped
    next htarget =>
      rw [if_pos htarget]
      exact (h hcapped).other rfl rfl (fun j => setThread_writes (by rfl) j)
    next htarget =>
      rw [if_neg htarget]
      exact (h hcapped).same rfl (fun j => setThread_writes (by rfl) j)

theorem record_reported {thread pc size : Nat}
    (h : s.capped = false → Reported a contents s)
    (hcapped : (record cfg thread pc size read s).capped = false) :
    Reported a contents (record cfg thread pc size read s) := by
  unfold record at hcapped ⊢
  dsimp only at hcapped ⊢
  split at hcapped
  next hroom =>
    rw [if_pos hroom]
    split at hcapped
    · cases hcapped
    next hmore =>
      rw [if_neg hmore]
      exact (takeTransfer_reported h hcapped).other rfl rfl fun _ => rfl
  next hfull =>
    split at hcapped
    next hbefore => exact absurd (hbefore.symm.trans hcapped) (by decide)
    next => cases hcapped

theorem step_reported {c : Callback} (h : s.capped = false → Reported a contents s)
    (hfits : Fits cfg s c) (hcapped : (step cfg s c).capped = false) :
    Reported (attempts a c) (contents ++ owed a c) (step cfg s c) := by
  cases c with
  | moduleEvent loaded start finish path =>
    change Reported a _ (moduleEvent loaded start finish path s)
    change (moduleEvent loaded start finish path s).capped = false at hcapped
    unfold moduleEvent at hcapped ⊢
    dsimp only at hcapped ⊢
    split at hcapped
    next hfew =>
      rw [if_pos hfew]
      exact (h hcapped).snoc (r := .module loaded start finish (path.take 2048)
        (2048 < path.length)) rfl fun _ => rfl
    next => cases hcapped
  | writesCompleted thread read =>
    have hdone : (completeWrites cfg thread read (s.threads thread).writes s).capped = false :=
      hcapped
    obtain ⟨hbefore, hreported⟩ := completeWrites_reported h hdone
    have howed : owed a (.writesCompleted thread read) =
        (s.threads thread).writes.map fun w => .completion thread w.pc w.address w.size := by
      change (a thread).map _ = _
      rw [← (h hbefore).waiting, map_map]
      rfl
    rw [howed]
    exact hreported.setThread (t := { (completeWrites cfg thread read (s.threads thread).writes
      s).threads thread with writes := [] })
  | transferKind thread pc target kind timestamp => exact transferKind_reported h hcapped
  | record thread pc size read => exact (append_nil contents).symm ▸ record_reported h hcapped
  | memoryEffects thread pc i decoded read timestamp => exact memoryEffects_reported h hfits hcapped

end Reports

variable {callbacks : List Callback}

theorem run_kept {s : State} {a : Attempts} {contents : List Content}
    (h : Kept cfg s) (hreported : s.capped = false → Reported a contents s)
    (hfits : Fitting cfg callbacks s) : Kept cfg (callbacks.foldl (step cfg) s) ∧
      ((callbacks.foldl (step cfg) s).capped = false →
        (callbacks.foldl (step cfg) s).output.filterMap Record.content =
          contents ++ due callbacks a) := by
  induction callbacks generalizing s a contents with
  | nil => exact ⟨h, fun hcapped => (hreported hcapped).recorded.trans (append_nil _).symm⟩
  | cons c callbacks ih =>
    obtain ⟨hinserted, hc, hrest⟩ := hfits
    obtain ⟨hkept, hall⟩ := ih (h.step hinserted hc) (step_reported hreported hc) hrest
    exact ⟨hkept, fun hcapped => (hall hcapped).trans (append_assoc _ _ _)⟩

/-- **The collector.**  Over callbacks whose operands have room, the records are numbered
within the budget, nothing is missing from a log that is not partial, and blocks name the last
writes of their pages. -/
theorem collector_accounting {cfg : Config}
    (h : Fitting cfg callbacks {}) : Accounting cfg callbacks := by
  have hstart : Kept cfg {} :=
    ⟨rfl, Nat.zero_le _, nodup_nil, Nat.zero_le _, fun _ => ite_self _, fun _ => rfl,
      (fun _ _ h => nomatch h), fun before r after h => by cases before <;> cases h⟩
  obtain ⟨hkept, hcomplete⟩ := run_kept hstart (a := fun _ => [])
    (fun _ => ⟨rfl, fun _ => rfl⟩) h
  exact ⟨hkept.numbered, hkept.bounded, hcomplete, hkept.accounted⟩

/-- A store, its completion and the block that it has written. -/
theorem collector_accounting_store : Accounting ⟨10, true, 0, 0⟩ [
      .memoryEffects 1 16 ⟨true, [.register], [.memory 8192 4]⟩ true (fun _ _ => []) 0,
      .writesCompleted 1 (fun _ _ => []), .record 1 8192 4 (fun _ _ => [])] :=
  collector_accounting ⟨rfl, .inr ⟨rfl, by decide, by decide, by
    unfold OnePage; decide, by decide⟩, ⟨rfl, trivial, trivial, trivial, trivial⟩⟩

end Indago.Collector
