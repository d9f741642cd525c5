import IndagoRev.Workbench.PacketFrames

/-!
# What frame references cite

Every reference of a packet comes from a field that names a frame, and its pointer leads to
the text that it quotes.  When nothing was skipped, every such field outside raw subtrees has
its reference.
-/

namespace Indago

open StdText JsonValues JsonPointers List

/-- A field that names frames, or an item of one: its kind, its value and the way to it. -/
inductive FrameOccurrence : Json → List Text → Text → Json → Prop
  | field {fields : List (Text × Json)} {key kind : Text} {v : Json} (h : (key, v) ∈ fields)
      (hkey : frameField key = some kind) (hv : ∀ items, v ≠ .arr items) :
      FrameOccurrence (.obj fields) [key] kind v
  | element {fields : List (Text × Json)} {key kind : Text} {items : List Json} {raw : Json} {j : Nat}
      (h : (key, .arr items) ∈ fields) (hkey : frameField key = some kind)
      (hj : items[j]? = some raw) : FrameOccurrence (.obj fields) [key, decimal j] kind raw
  | inField {fields : List (Text × Json)} {key kind : Text} {v raw : Json} {ts : List Text}
      (h : (key, v) ∈ fields) (hkey : isRaw key = false) (hv : FrameOccurrence v ts kind raw) :
      FrameOccurrence (.obj fields) (key :: ts) kind raw
  | inItem {items : List Json} {j : Nat} {kind : Text} {v raw : Json} {ts : List Text}
      (h : items[j]? = some v) (hv : FrameOccurrence v ts kind raw) :
      FrameOccurrence (.arr items) (decimal j :: ts) kind raw

theorem escapeToken_plain {t : Text} (h : ∀ c ∈ t, c ≠ '~' ∧ c ≠ '/') : escapeToken t = t := by
  induction t with
  | nil => rfl
  | cons c t ih =>
    obtain ⟨htilde, hslash⟩ := h c mem_cons_self
    have hrest := ih (fun d hd => h d (mem_cons_of_mem c hd))
    unfold escapeToken at hrest ⊢
    rw [flatMap_cons, if_neg htilde, if_neg hslash, hrest]
    rfl

theorem escapeToken_decimal (n : Nat) : escapeToken (decimal n) = decimal n := by
  apply escapeToken_plain
  intro c hc
  have hdigit := isDigit_of_mem_decimal hc
  constructor
  · rintro rfl
    exact absurd hdigit (by decide)
  · rintro rfl
    exact absurd hdigit (by decide)

variable {ts : List Text} {kind : Text}

theorem FrameOccurrence.follow {node raw : Json}
    (hdistinct : KeysDistinct node) (h : FrameOccurrence node ts kind raw) :
    JsonPointers.follow node ts = some raw := by
  have hone : ∀ {v w : Json} {token : Text} {ts : List Text}, child v token = some w →
      JsonPointers.follow v (token :: ts) = JsonPointers.follow w ts := by
    intro v w token ts hchild
    rw [JsonPointers.follow, hchild]
    rfl
  induction h with
  | field h hkey hv =>
    cases hdistinct with
    | obj hkeys _ =>
      rw [hone (child_field hkeys h)]
      rfl
  | element h hkey hj =>
    cases hdistinct with
    | obj hkeys _ =>
      rw [hone (child_field hkeys h), hone (child_item hj)]
      rfl
  | inField h hkey hv ih =>
    cases hdistinct with
    | obj hkeys hall =>
      rw [hone (child_field hkeys h)]
      exact ih (hall _ h)
  | inItem h hv ih =>
    cases hdistinct with
    | arr hall =>
      rw [hone (child_item h)]
      exact ih (hall _ (mem_of_getElem? h))

/-- A step that cites occurrences below a pointer: the references that it adds are of these,
and all of these have one when nothing was skipped. -/
structure Projects (base : Text) (O : List Text → Text → Json → Prop) (s s' : FrameVisit) : Prop where
  flag : s.isPartial = true → s'.isPartial = true
  kept : ∀ r ∈ s.refs, r ∈ s'.refs
  sound : ∀ r ∈ s'.refs, r ∈ s.refs ∨ ∃ ts, O ts r.kind (.str r.nativeFrameNumber) ∧
    r.nativePointer = base ++ pointerText ts ∧
    canonical32 r.nativeFrameNumber = some r.frame ∧ r.frame ≠ 0
  complete : s'.isPartial = false → ∀ ts kind raw, O ts kind raw →
    ∃ r ∈ s'.refs, r.kind = kind ∧ .str r.nativeFrameNumber = raw ∧
      r.nativePointer = base ++ pointerText ts

variable {base : Text} {O O' : List Text → Text → Json → Prop} {s s' s'' : FrameVisit}

theorem Projects.stop : Projects base O s s.stopped :=
  ⟨fun _ => rfl, fun _ h => h, fun _ h => Or.inl h, fun h => by cases h⟩

theorem Projects.skip (h : ∀ ts kind raw, ¬ O ts kind raw) : Projects base O s s :=
  ⟨fun h => h, fun _ h => h, fun _ h => Or.inl h, fun _ ts kind raw hO => absurd hO (h ts kind raw)⟩

theorem Projects.of_counted (h : Projects base O s.counted s') : Projects base O s s' :=
  ⟨h.flag, h.kept, h.sound, h.complete⟩

theorem Projects.congr (h : Projects base O s s')
    (hO : ∀ ts kind raw, O ts kind raw ↔ O' ts kind raw) : Projects base O' s s' := by
  have hsame : O = O' := by
    funext ts kind raw
    exact propext (hO ts kind raw)
  rwa [← hsame]

theorem Projects.both (h : Projects base O s s') (h' : Projects base O' s' s'') :
    Projects base (fun ts kind raw => O ts kind raw ∨ O' ts kind raw) s s'' := by
  refine ⟨fun hs => h'.flag (h.flag hs), fun r hr => h'.kept r (h.kept r hr), ?_, ?_⟩
  · intro r hr
    rcases h'.sound r hr with hold | ⟨ts, hO, hrest⟩
    · rcases h.sound r hold with hold | ⟨ts, hO, hrest⟩
      · exact Or.inl hold
      · exact Or.inr ⟨ts, Or.inl hO, hrest⟩
    · exact Or.inr ⟨ts, Or.inr hO, hrest⟩
  · intro hwhole ts kind raw hO
    have hfirst : s'.isPartial = false := by
      rw [Bool.eq_false_iff]
      intro hs
      rw [h'.flag hs] at hwhole
      cases hwhole
    rcases hO with hO | hO
    · obtain ⟨r, hr, hrest⟩ := h.complete hfirst ts kind raw hO
      exact ⟨r, h'.kept r hr, hrest⟩
    · exact h'.complete hwhole ts kind raw hO

theorem Projects.under {token : Text} (h : Projects (base ++ '/' :: escapeToken token) O s s') :
    Projects base (fun ts kind raw => ∃ ts', ts = token :: ts' ∧ O ts' kind raw) s s' := by
  have hpointer : ∀ ts, base ++ '/' :: escapeToken token ++ pointerText ts =
      base ++ pointerText (token :: ts) := by
    intro ts
    rw [pointerText_cons, append_assoc, cons_append]
  refine ⟨h.flag, h.kept, ?_, ?_⟩
  · intro r hr
    rcases h.sound r hr with hold | ⟨ts, hO, hts, hrest⟩
    · exact Or.inl hold
    · exact Or.inr ⟨token :: ts, ⟨ts, rfl, hO⟩, by rw [hts, hpointer], hrest⟩
  · rintro hwhole ts kind raw ⟨ts', rfl, hO⟩
    obtain ⟨r, hr, hkind, hraw, hts⟩ := h.complete hwhole ts' kind raw hO
    exact ⟨r, hr, hkind, hraw, by rw [hts, hpointer]⟩

theorem add_projects (raw : Json) (pointer kind : Text) :
    Projects pointer (fun ts k r => ts = [] ∧ k = kind ∧ r = raw) s (s.add raw pointer kind) := by
  unfold FrameVisit.add
  by_cases hfull : 64 ≤ s.refs.length
  · rw [if_pos hfull]
    exact Projects.stop
  rw [if_neg hfull]
  cases raw with
  | null | bool | int | real | arr | obj => exact Projects.stop
  | str number =>
    dsimp only
    cases hnumber : canonical32 number with
    | none => exact Projects.stop
    | some frame =>
      dsimp only
      by_cases hzero : frame = 0
      · rw [if_pos hzero]
        exact Projects.stop
      rw [if_neg hzero]
      refine ⟨fun h => h, fun r hr => mem_append_left _ hr, ?_, ?_⟩
      · intro r hr
        rcases mem_append.mp hr with hold | hnew
        · exact Or.inl hold
        · rw [mem_singleton.mp hnew]
          exact Or.inr ⟨[], ⟨rfl, rfl, rfl⟩, (append_nil _).symm, hnumber, hzero⟩
      · rintro - ts k r ⟨rfl, rfl, rfl⟩
        exact ⟨_, mem_append_right _ (mem_singleton_self _), rfl, rfl,
          (append_nil _).symm⟩

variable {raw : Json} {pointer kind : Text}

theorem add_text (h : (s.add raw pointer kind).isPartial = false) : ∃ t, raw = .str t := by
  unfold FrameVisit.add at h
  by_cases hfull : 64 ≤ s.refs.length
  · rw [if_pos hfull] at h
    cases h
  rw [if_neg hfull] at h
  cases raw with
  | null | bool | int | real | arr | obj => cases h
  | str t => exact ⟨t, rfl⟩

theorem addItems_projects (pointer kind : Text) (items : List Json) (i : Nat) :
    Projects pointer (fun ts k r => k = kind ∧ ∃ j, items[j]? = some r ∧ ts = [decimal (i + j)]) s
      (FrameVisit.addItems pointer kind items i s) := by
  induction items generalizing i s with
  | nil =>
    apply Projects.skip
    rintro ts k r ⟨-, j, hj, -⟩
    cases hj
  | cons raw rest ih =>
    have hfirst := (add_projects (s := s) raw (pointer ++ '/' :: escapeToken (decimal i)) kind).under
    rw [escapeToken_decimal] at hfirst
    refine (hfirst.both (ih (i + 1))).congr ?_
    intro ts k r
    constructor
    · rintro (⟨ts', rfl, rfl, rfl, rfl⟩ | ⟨rfl, j, hj, rfl⟩)
      · exact ⟨rfl, 0, rfl, rfl⟩
      · exact ⟨rfl, j + 1, hj, by rw [Nat.add_right_comm, Nat.add_assoc]⟩
    rintro ⟨rfl, j, hj, rfl⟩
    cases j with
    | zero =>
      cases hj
      exact Or.inl ⟨[], rfl, rfl, rfl, rfl⟩
    | succ j => exact Or.inr ⟨rfl, j, hj, by rw [Nat.add_right_comm, Nat.add_assoc]⟩

variable {items : List Json}

theorem addItems_texts {i : Nat}
    (h : (FrameVisit.addItems pointer kind items i s).isPartial = false) :
    ∀ raw ∈ items, ∃ t, raw = .str t := by
  induction items generalizing i s with
  | nil => exact forall_mem_nil _
  | cons raw rest ih =>
    have hfirst : (s.add raw (pointer ++ '/' :: decimal i) kind).isPartial = false := by
      rw [Bool.eq_false_iff]
      intro hs
      have hkept := (addItems_projects pointer kind rest (i + 1)).flag hs
      have hwhole : (FrameVisit.addItems pointer kind rest (i + 1) _).isPartial = false := h
      rw [hkept] at hwhole
      cases hwhole
    exact forall_mem_cons.mpr ⟨add_text hfirst, ih h⟩

/-- The values of a tracked field: itself, or the items of an array. -/
def FieldOccurs (v : Json) (ts : List Text) (raw : Json) : Prop :=
  (ts = [] ∧ raw = v ∧ ∀ items, v ≠ .arr items) ∨
  ∃ items j, v = .arr items ∧ items[j]? = some raw ∧ ts = [decimal j]

theorem no_occurrence_text {t kind : Text} : ¬ FrameOccurrence (.str t) ts kind raw := by
  intro h
  cases h

/-- A tracked field is cited, with everything that is within it. -/
theorem addField_projects (pointer kind : Text) (v : Json) :
    Projects pointer (fun ts k r => (k = kind ∧ FieldOccurs v ts r) ∨ FrameOccurrence v ts k r) s
      (s.addField pointer kind v) := by
  have hscalar : (∀ items, v ≠ .arr items) → s.addField pointer kind v = s.add v pointer kind →
      Projects pointer (fun ts k r => (k = kind ∧ FieldOccurs v ts r) ∨ FrameOccurrence v ts k r) s
        (s.addField pointer kind v) := by
    intro hv hadd
    have hproject := add_projects (s := s) v pointer kind
    rw [hadd]
    refine ⟨hproject.flag, hproject.kept, ?_, ?_⟩
    · intro r hr
      rcases hproject.sound r hr with hold | ⟨ts, ⟨rfl, hkind, hraw⟩, hrest⟩
      · exact Or.inl hold
      · exact Or.inr ⟨[], Or.inl ⟨hkind, Or.inl ⟨rfl, hraw, hv⟩⟩, hrest⟩
    intro hwhole ts k raw hO
    obtain ⟨t, rfl⟩ := add_text hwhole
    rcases hO with ⟨rfl, ⟨rfl, rfl, -⟩ | ⟨items, j, hitems, -⟩⟩ | hinner
    · exact hproject.complete hwhole _ _ _ ⟨rfl, rfl, rfl⟩
    · cases hitems
    · exact absurd hinner no_occurrence_text
  cases v with
  | null | bool | int | real | str | obj => exact hscalar (fun items h => by cases h) rfl
  | arr items =>
    have hproject := addItems_projects (s := s) pointer kind (items.take 64) 0
    have hshape : s.addField pointer kind (.arr items) =
        if 64 < items.length then
          (FrameVisit.addItems pointer kind (items.take 64) 0 s).stopped
        else FrameVisit.addItems pointer kind (items.take 64) 0 s := rfl
    have hsound : ∀ r ∈ (FrameVisit.addItems pointer kind (items.take 64) 0 s).refs,
        r ∈ s.refs ∨ ∃ ts, ((r.kind = kind ∧ FieldOccurs (.arr items) ts (.str r.nativeFrameNumber)) ∨
          FrameOccurrence (.arr items) ts r.kind (.str r.nativeFrameNumber)) ∧
          r.nativePointer = pointer ++ pointerText ts ∧
          canonical32 r.nativeFrameNumber = some r.frame ∧ r.frame ≠ 0 := by
      intro r hr
      rcases hproject.sound r hr with hold | ⟨ts, ⟨hkind, j, hj, rfl⟩, hrest⟩
      · exact Or.inl hold
      have hitem : items[j]? = some (.str r.nativeFrameNumber) := by
        rw [getElem?_take, Option.ite_none_right_eq_some] at hj
        exact hj.2
      refine Or.inr ⟨_, Or.inl ⟨hkind, Or.inr ⟨items, j, rfl, hitem, ?_⟩⟩, hrest⟩
      rw [Nat.zero_add]
    rw [hshape]
    by_cases hlong : 64 < items.length
    · rw [if_pos hlong]
      exact ⟨fun _ => rfl, hproject.kept, hsound, fun h => by cases h⟩
    rw [if_neg hlong]
    refine ⟨hproject.flag, hproject.kept, hsound, ?_⟩
    intro hwhole ts k raw hO
    have hall : items.take 64 = items := take_of_length_le (Nat.not_lt.mp hlong)
    have htexts := addItems_texts hwhole
    rw [hall] at htexts
    rcases hO with ⟨rfl, ⟨-, -, hnot⟩ | ⟨items', j, hitems, hj, rfl⟩⟩ | hinner
    · exact absurd rfl (hnot items)
    · cases hitems
      exact hproject.complete hwhole _ _ _ ⟨rfl, j, by rw [hall]; exact hj, by rw [Nat.zero_add]⟩
    cases hinner with
    | inItem h hv =>
      obtain ⟨t, rfl⟩ := htexts _ (mem_of_getElem? h)
      exact absurd hv no_occurrence_text

variable {key kind : Text}

/-- An occurrence in an object is in its first field, or in the others. -/
theorem occurrence_fields {v raw : Json} {rest : List (Text × Json)}
    : FrameOccurrence (.obj ((key, v) :: rest)) ts kind raw ↔
      (∃ ts', ts = key :: ts' ∧ ((frameField key = some kind ∧ FieldOccurs v ts' raw) ∨
        (isRaw key = false ∧ FrameOccurrence v ts' kind raw))) ∨
      FrameOccurrence (.obj rest) ts kind raw := by
  constructor
  · intro h
    cases h with
    | field h hkey hv =>
      rcases mem_cons.mp h with heq | hrest
      · cases heq
        exact Or.inl ⟨[], rfl, Or.inl ⟨hkey, Or.inl ⟨rfl, rfl, hv⟩⟩⟩
      · exact Or.inr (FrameOccurrence.field hrest hkey hv)
    | element h hkey hj =>
      rcases mem_cons.mp h with heq | hrest
      · cases heq
        exact Or.inl ⟨_, rfl, Or.inl ⟨hkey, Or.inr ⟨_, _, rfl, hj, rfl⟩⟩⟩
      · exact Or.inr (FrameOccurrence.element hrest hkey hj)
    | inField h hkey hv =>
      rcases mem_cons.mp h with heq | hrest
      · cases heq
        exact Or.inl ⟨_, rfl, Or.inr ⟨hkey, hv⟩⟩
      · exact Or.inr (FrameOccurrence.inField hrest hkey hv)
  · rintro (⟨ts', rfl, ⟨hkey, ⟨rfl, rfl, hv⟩ | ⟨items, j, rfl, hj, rfl⟩⟩ | ⟨hkey, hv⟩⟩ | hrest)
    · exact FrameOccurrence.field mem_cons_self hkey hv
    · exact FrameOccurrence.element mem_cons_self hkey hj
    · exact FrameOccurrence.inField mem_cons_self hkey hv
    cases hrest with
    | field h hkey hv => exact FrameOccurrence.field (mem_cons_of_mem _ h) hkey hv
    | element h hkey hj => exact FrameOccurrence.element (mem_cons_of_mem _ h) hkey hj
    | inField h hkey hv => exact FrameOccurrence.inField (mem_cons_of_mem _ h) hkey hv

/-- The occurrences in items that are numbered from some number on. -/
def ItemsOccur (items : List Json) (i : Nat) (ts : List Text) (kind : Text) (raw : Json) : Prop :=
  ∃ j v ts', items[j]? = some v ∧ ts = decimal (i + j) :: ts' ∧ FrameOccurrence v ts' kind raw

theorem occurrence_items :
    FrameOccurrence (.arr items) ts kind raw ↔ ItemsOccur items 0 ts kind raw := by
  constructor
  · intro h
    cases h with
    | inItem h hv => exact ⟨_, _, _, h, by rw [Nat.zero_add], hv⟩
  · rintro ⟨j, v, ts', hj, rfl, hv⟩
    rw [Nat.zero_add]
    exact FrameOccurrence.inItem hj hv

theorem itemsOccur_cons {v raw : Json} {rest : List Json} {i : Nat} :
    ItemsOccur (v :: rest) i ts kind raw ↔
      (∃ ts', ts = decimal i :: ts' ∧ FrameOccurrence v ts' kind raw) ∨
      ItemsOccur rest (i + 1) ts kind raw := by
  constructor
  · rintro ⟨j, w, ts', hj, rfl, hw⟩
    cases j with
    | zero =>
      cases hj
      exact Or.inl ⟨ts', rfl, hw⟩
    | succ j => exact Or.inr ⟨j, w, ts', hj, by rw [Nat.add_right_comm, Nat.add_assoc], hw⟩
  · rintro (⟨ts', rfl, hv⟩ | ⟨j, w, ts', hj, rfl, hw⟩)
    · exact ⟨0, v, ts', rfl, rfl, hv⟩
    · exact ⟨j + 1, w, ts', hj, by rw [Nat.add_right_comm, Nat.add_assoc], hw⟩

theorem not_raw_of_frameField (h : frameField key = some kind) : isRaw key = false := by
  unfold frameField at h
  by_cases h1 : key = "tcp.segment"
  · rw [h1]
    rfl
  rw [if_neg h1] at h
  by_cases h2 : key = "tcp.reassembled_in"
  · rw [h2]
    rfl
  rw [if_neg h2] at h
  by_cases h3 : key = "tcp.analysis.acks_frame"
  · rw [h3]
    rfl
  rw [if_neg h3] at h
  cases h

mutual

theorem visitFrames_projects : ∀ (node : Json) (pointer : Text) (depth : Nat) (s : FrameVisit),
    Projects pointer (FrameOccurrence node) s (visitFrames node pointer depth s)
  | node, pointer, depth, s => by
    rw [visitFrames.eq_def]
    dsimp only
    by_cases hstop : 1024 < s.visited + 1 ∨ 12 < depth
    · rw [if_pos hstop]
      exact Projects.of_counted Projects.stop
    rw [if_neg hstop]
    cases node with
    | null | bool | int | real | str =>
      apply Projects.of_counted
      apply Projects.skip
      intro ts kind raw h
      cases h
    | obj fields => exact (visitFields_projects fields pointer depth s.counted).of_counted
    | arr items =>
      exact ((visitItems_projects items 0 pointer depth s.counted).of_counted).congr
        (fun _ _ _ => occurrence_items.symm)

theorem visitFields_projects : ∀ (fields : List (Text × Json)) (pointer : Text) (depth : Nat)
    (s : FrameVisit),
    Projects pointer (FrameOccurrence (.obj fields)) s (visitFields fields pointer depth s)
  | [], pointer, depth, s => by
    rw [visitFields]
    apply Projects.skip
    intro ts kind raw h
    cases h with
    | field h | element h | inField h => cases h
  | (key, v) :: rest, pointer, depth, s => by
    rw [visitFields]
    by_cases hstop : 1024 ≤ s.visited
    · rw [if_pos hstop]
      exact Projects.stop
    rw [if_neg hstop]
    dsimp only
    cases hkey : frameField key with
    | some kind =>
      have hhead := (addField_projects (s := s.counted) (pointer ++ '/' :: escapeToken key) kind
        v).under.of_counted
      refine (hhead.both (visitFields_projects rest pointer depth _)).congr ?_
      intro ts k raw
      rw [occurrence_fields, hkey, not_raw_of_frameField hkey, Option.some.injEq]
      simp only [true_and, eq_comm (a := kind)]
    | none =>
      dsimp only
      by_cases hraw : isRaw key = true
      · rw [if_pos hraw]
        refine (visitFields_projects rest pointer depth s.counted).of_counted.congr ?_
        intro ts k raw
        rw [occurrence_fields, hkey, hraw]
        simp
      · rw [if_neg hraw]
        have hhead := (visitFrames_projects v (pointer ++ '/' :: escapeToken key) (depth + 1)
          s).under
        refine (hhead.both (visitFields_projects rest pointer depth _)).congr ?_
        intro ts k raw
        rw [occurrence_fields, hkey, Bool.eq_false_iff.mpr hraw]
        simp

theorem visitItems_projects : ∀ (items : List Json) (i : Nat) (pointer : Text) (depth : Nat)
    (s : FrameVisit), Projects pointer (ItemsOccur items i) s (visitItems items i pointer depth s)
  | [], i, pointer, depth, s => by
    rw [visitItems]
    apply Projects.skip
    rintro ts kind raw ⟨j, v, ts', hj, -⟩
    cases hj
  | v :: rest, i, pointer, depth, s => by
    rw [visitItems]
    by_cases hstop : 1024 ≤ s.visited
    · rw [if_pos hstop]
      exact Projects.stop
    rw [if_neg hstop]
    have hhead := (visitFrames_projects v (pointer ++ '/' :: escapeToken (decimal i)) (depth + 1)
      s).under
    rw [escapeToken_decimal] at hhead
    exact (hhead.both (visitItems_projects rest (i + 1) pointer depth _)).congr
      (fun _ _ _ => itemsOccur_cons.symm)

end

end Indago
