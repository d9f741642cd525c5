import IndagoRev.JsonValues
import IndagoRev.Workbench.Knowledge

/-!
# References to stored objects

An object of the store is named by the SHA-256 of its bytes. A retention run reads
every row of the databases and takes each text that looks like such a hash for a
reference, also inside the JSON of a column and inside JSON that stands as a text
in JSON. What is not referenced and is old enough is a candidate.
-/

namespace Indago

open StdText JsonValues List

/-- How an operation on the storage ends early: it refuses with a message, or a
system call fails. -/
inductive StorageFault where
  | refused (message : String)
  | failed

/-- The text of an object or an array begins with its bracket. -/
def opensJson : Text → Bool
  | c :: _ => c == '\x7b' || c == '['
  | [] => false

/-- A hash is the value somewhere inside a JSON value. -/
inductive Mentions (parse : Text → Option Json) (sha : Text) : Json → Prop where
  | text : Mentions parse sha (.str sha)
  | nested {t : Text} {v : Json} (hopens : opensJson t = true) (hparse : parse t = some v)
      (h : Mentions parse sha v) : Mentions parse sha (.str t)
  | item {items : List Json} {v : Json} (hv : v ∈ items) (h : Mentions parse sha v) :
      Mentions parse sha (.arr items)
  | field {fields : List (Text × Json)} {f : Text × Json} (hf : f ∈ fields)
      (h : Mentions parse sha f.2) : Mentions parse sha (.obj fields)

section Scan

variable (parse : Text → Option Json)

/-- `hashes`, with what remains of the depth budget. -/
def hashes : Nat → Json → List Text → Except StorageFault (List Text)
  | 0, _, _ => .error (.refused "reference traversal exceeds depth budget")
  | depth + 1, v, refs =>
    match v with
    | .str s =>
      if isHash s then .ok (s :: refs)
      else if opensJson s then
        match parse s with
        | some w => hashes depth w refs
        | none => .ok refs
      else .ok refs
    | .arr items => items.foldlM (fun refs w => hashes depth w refs) refs
    | .obj fields => fields.foldlM (fun refs f => hashes depth f.2 refs) refs
    | _ => .ok refs

/-- The levels that `hashes` descends from a column: `depth > 64` is refused. -/
def referenceDepth : Nat := 65

/-- One row of a table, column by column, as text. -/
abbrev Row : Type := List Text

/-- The columns of a row. -/
def scanRow (row : Row) (refs : List Text) : Except StorageFault (List Text) :=
  row.foldlM (fun refs column => hashes parse referenceDepth (.str column) refs) refs

/-- The rows of the tables, with the number of rows read so far. -/
def scanRows (exceeded : String) (rows : List Row) (found : List Text × Nat) :
    Except StorageFault (List Text × Nat) :=
  rows.foldlM (fun found row =>
    if found.2 + 1 > 1000000 then .error (.refused exceeded)
    else (scanRow parse row found.1).map (fun refs => (refs, found.2 + 1))) found

end Scan

/-- A file of the object store: its name, its size and when it was last written. -/
structure StoredObject where
  sha : Text
  size : Nat
  written : Int

/-- One entry of a retention plan. -/
structure Candidate where
  sha : Text
  size : Nat

/-- `std::chrono::hours(24)`, in nanoseconds. -/
def graceInterval : Int := 24 * 60 * 60 * 1000000000

/-- The walk over the object files. `clock` is the time at which a file is looked
at; the walk stops at the first file beyond the limit. -/
def selectCandidates (refs : List Text) (limit : Nat) (clock : Text → Int) :
    List StoredObject → List Candidate → Except StorageFault (List Candidate × Bool)
  | [], candidates => .ok (candidates, false)
  | o :: rest, candidates =>
    if isHash o.sha = false then .error (.refused "invalid SHA-256")
    else if refs.contains o.sha then selectCandidates refs limit clock rest candidates
    else if clock o.sha - o.written < graceInterval then
      selectCandidates refs limit clock rest candidates
    else if candidates.length = limit then .ok (candidates, true)
    else selectCandidates refs limit clock rest (candidates ++ [⟨o.sha, o.size⟩])

/-- `std::sort` by the hash. -/
def sortCandidates (candidates : List Candidate) : List Candidate :=
  candidates.mergeSort (fun a b => !decide (b.sha < a.sha))

section Found

variable {parse : Text → Option Json} {refs refs' : List Text}

/-- A fold that only adds, and adds something for each element, adds it for all. -/
theorem foldlM_covers {α : Type} (covers : α → Text → Prop)
    {step : List Text → α → Except StorageFault (List Text)}
    (hstep : ∀ refs a refs', step refs a = .ok refs' →
      refs ⊆ refs' ∧ ∀ sha, covers a sha → sha ∈ refs')
    {items : List α} (h : items.foldlM step refs = .ok refs') :
    refs ⊆ refs' ∧ ∀ a ∈ items, ∀ sha, covers a sha → sha ∈ refs' := by
  induction items generalizing refs with
  | nil =>
    cases h
    exact ⟨List.Subset.refl _, nofun⟩
  | cons a rest ih =>
    rw [foldlM_cons] at h
    cases hfirst : step refs a with
    | error e =>
      rw [hfirst] at h
      cases h
    | ok middle =>
      rw [hfirst] at h
      obtain ⟨hadds, hcovers⟩ := hstep refs a middle hfirst
      obtain ⟨hmore, hrest⟩ := ih h
      refine ⟨fun x hx => hmore (hadds hx), ?_⟩
      intro b hb sha hsha
      rcases mem_cons.mp hb with rfl | hb
      · exact hmore (hcovers sha hsha)
      · exact hrest b hb sha hsha

/-- `hashes` keeps what it found and finds every hash that a value mentions. -/
theorem hashes_covers {depth : Nat} {v : Json} (h : hashes parse depth v refs = .ok refs') :
    refs ⊆ refs' ∧ ∀ sha, (isHash sha = true ∧ Mentions parse sha v) → sha ∈ refs' := by
  induction depth generalizing v refs refs' with
  | zero => cases h
  | succ depth ih =>
    cases v with
    | str s =>
      simp only [hashes] at h
      split at h
      · next hs =>
          cases h
          refine ⟨subset_cons_self _ _, ?_⟩
          rintro sha ⟨-, hmention⟩
          cases hmention with
          | text => exact mem_cons_self
          | nested hopens hparse hv =>
            -- a hash does not begin with a bracket
            exfalso
            revert hopens hs
            cases s with
            | nil => simp [opensJson]
            | cons c rest =>
              simp only [isHash, all_cons, Bool.and_eq_true, opensJson,
                Bool.or_eq_true, beq_iff_eq]
              rintro ⟨-, hc, -⟩ (rfl | rfl) <;> exact absurd hc (by decide)
      · next hs =>
          have hplain : ∀ sha, isHash sha = true → sha ≠ s := by
            rintro sha hsha rfl
            exact hs hsha
          split at h
          · next hopens =>
              split at h
              · next w hw =>
                  obtain ⟨hadds, hcovers⟩ := ih h
                  refine ⟨hadds, ?_⟩
                  rintro sha ⟨hsha, hmention⟩
                  cases hmention with
                  | text => exact absurd rfl (hplain s hsha)
                  | nested _ hparse hv =>
                    rw [hw] at hparse
                    cases hparse
                    exact hcovers sha ⟨hsha, hv⟩
              · next hnone =>
                  cases h
                  refine ⟨List.Subset.refl _, ?_⟩
                  rintro sha ⟨hsha, hmention⟩
                  cases hmention with
                  | text => exact absurd rfl (hplain s hsha)
                  | nested _ hparse hv => exact absurd hparse (by simp [hnone])
          · next hopens =>
              cases h
              refine ⟨List.Subset.refl _, ?_⟩
              rintro sha ⟨hsha, hmention⟩
              cases hmention with
              | text => exact absurd rfl (hplain s hsha)
              | nested hopen _ _ => exact absurd hopen hopens
    | arr items =>
      obtain ⟨hadds, hcovers⟩ := foldlM_covers
        (fun w sha => isHash sha = true ∧ Mentions parse sha w)
        (fun _ _ _ hw => ih hw) h
      refine ⟨hadds, ?_⟩
      rintro sha ⟨hsha, hmention⟩
      cases hmention with
      | item hv hw => exact hcovers _ hv sha ⟨hsha, hw⟩
    | obj fields =>
      obtain ⟨hadds, hcovers⟩ := foldlM_covers
        (fun (f : Text × Json) sha => isHash sha = true ∧ Mentions parse sha f.2)
        (fun _ _ _ hw => ih hw) h
      refine ⟨hadds, ?_⟩
      rintro sha ⟨hsha, hmention⟩
      cases hmention with
      | field hf hw => exact hcovers _ hf sha ⟨hsha, hw⟩
    | null | bool | int | real =>
      cases h
      refine ⟨List.Subset.refl _, ?_⟩
      rintro sha ⟨-, hmention⟩
      cases hmention

/-- A hash stands in a column of a row. -/
def MentionedIn (parse : Text → Option Json) (sha : Text) (row : Row) : Prop :=
  ∃ column ∈ row, Mentions parse sha (.str column)

theorem scanRow_covers {row : Row} (h : scanRow parse row refs = .ok refs') :
    refs ⊆ refs' ∧ ∀ sha, (isHash sha = true ∧ MentionedIn parse sha row) → sha ∈ refs' := by
  obtain ⟨hadds, hcovers⟩ := foldlM_covers
    (fun column sha => isHash sha = true ∧ Mentions parse sha (.str column))
    (fun _ _ _ hcolumn => hashes_covers hcolumn) h
  refine ⟨hadds, ?_⟩
  rintro sha ⟨hsha, column, hcolumn, hmention⟩
  exact hcovers column hcolumn sha ⟨hsha, hmention⟩

/-- The scan keeps what was found and finds what any of the rows mentions. -/
theorem scanRows_covers {exceeded : String} {rows : List Row} {found found' : List Text × Nat}
    (h : scanRows parse exceeded rows found = .ok found') :
    found.1 ⊆ found'.1 ∧ ∀ row ∈ rows, ∀ sha, isHash sha = true → MentionedIn parse sha row →
      sha ∈ found'.1 := by
  induction rows generalizing found with
  | nil =>
    cases h
    exact ⟨List.Subset.refl _, nofun⟩
  | cons row rest ih =>
    rw [scanRows, foldlM_cons] at h
    split at h
    · cases h
    cases hrow : scanRow parse row found.1 with
    | error e =>
      rw [hrow] at h
      cases h
    | ok refs =>
      rw [hrow] at h
      obtain ⟨hadds, hcovers⟩ := scanRow_covers hrow
      obtain ⟨hmore, hrest⟩ := ih h
      refine ⟨fun x hx => hmore (hadds hx), ?_⟩
      intro other hother sha hsha hmention
      rcases mem_cons.mp hother with rfl | hother
      · exact hmore (hcovers sha ⟨hsha, hmention⟩)
      · exact hrest other hother sha hsha hmention

variable {candidates : List Candidate}

/-- Every candidate is named by a hash that is not among the references. -/
theorem selectCandidates_unreferenced {refs : List Text} {limit : Nat} {clock : Text → Int}
    {objects : List StoredObject} {found : List Candidate × Bool}
    (h : selectCandidates refs limit clock objects candidates = .ok found)
    (hsofar : ∀ c ∈ candidates, isHash c.sha = true ∧ c.sha ∉ refs) :
    ∀ c ∈ found.1, isHash c.sha = true ∧ c.sha ∉ refs := by
  induction objects generalizing candidates with
  | nil =>
    cases h
    exact hsofar
  | cons o rest ih =>
    simp only [selectCandidates] at h
    split at h
    · cases h
    next hname =>
      split at h
      · exact ih h hsofar
      next hrefs =>
        split at h
        · exact ih h hsofar
        split at h
        · cases h
          exact hsofar
        · apply ih h
          intro c hc
          rcases mem_append.mp hc with hold | hnew
          · exact hsofar c hold
          · rw [mem_singleton.mp hnew]
            exact ⟨by simpa using hname, by simpa using hrefs⟩

theorem mem_sortCandidates {c : Candidate} :
    c ∈ sortCandidates candidates ↔ c ∈ candidates := mem_mergeSort

end Found

end Indago
