import IndagoRev.JsonValues

/-!
# JSON pointers

A pointer is a text of reference tokens, each behind a slash.  Evaluating one splits it at
its slashes, decodes the tokens, and steps into an object by key and into an array by a
number without leading zeros.
-/

namespace JsonPointers

open StdText JsonValues List

variable (t : Text)

/-- A reference token as a pointer writes it. -/
def escapeToken : Text :=
  t.flatMap (fun c => if c = '~' then ['~', '0'] else if c = '/' then ['~', '1'] else [c])

def unescapeToken : Text → Option Text
  | [] => some []
  | '~' :: '0' :: rest => (unescapeToken rest).map ('~' :: ·)
  | '~' :: '1' :: rest => (unescapeToken rest).map ('/' :: ·)
  | '~' :: _ => none
  | c :: rest => (unescapeToken rest).map (c :: ·)

variable (ts : List Text)

/-- The pointer with the given tokens. -/
def pointerText : Text := ts.flatMap (fun t => '/' :: escapeToken t)

/-- The pieces of a text between its slashes. -/
def pieces : Text → List Text
  | [] => [[]]
  | c :: rest =>
    if c = '/' then [] :: pieces rest
    else
      match pieces rest with
      | [] => [[c]]
      | piece :: more => (c :: piece) :: more

/-- The tokens of a pointer. -/
def pointerTokens : Text → Option (List Text)
  | [] => some []
  | c :: rest => if c = '/' then (pieces rest).mapM unescapeToken else none

theorem unescape_escape : unescapeToken (escapeToken t) = some t := by
  induction t with
  | nil => rfl
  | cons c rest ih =>
    unfold escapeToken at ih ⊢
    rw [flatMap_cons]
    split
    · next hc =>
        subst hc
        simp [unescapeToken, ih]
    next hc =>
      split
      · next hslash =>
          subst hslash
          simp [unescapeToken, ih]
      rw [singleton_append, unescapeToken, ih]
      · rfl
      · simp_all
      · simp_all
      · simp_all

theorem slash_not_mem_escape : '/' ∉ escapeToken t := by
  unfold escapeToken
  rw [mem_flatMap]
  rintro ⟨c, _, hc⟩
  split at hc
  · exact absurd hc (by decide)
  · split at hc
    · exact absurd hc (by decide)
    · next hslash => exact hslash (mem_singleton.mp hc).symm

theorem pieces_append {piece : Text} (h : '/' ∉ piece) (rest : Text) :
    pieces (piece ++ '/' :: rest) = piece :: pieces rest := by
  induction piece with
  | nil => simp [pieces]
  | cons c piece ih =>
    rw [mem_cons, not_or] at h
    rw [cons_append, pieces, if_neg (Ne.symm h.1), ih h.2]

theorem pieces_self {piece : Text} (h : '/' ∉ piece) : pieces piece = [piece] := by
  induction piece with
  | nil => rfl
  | cons c piece ih =>
    rw [mem_cons, not_or] at h
    rw [pieces, if_neg (Ne.symm h.1), ih h.2]

theorem pointerText_cons : pointerText (t :: ts) = '/' :: (escapeToken t ++ pointerText ts) := rfl

variable (ts us : List Text)

theorem pointerText_append : pointerText (ts ++ us) = pointerText ts ++ pointerText us := by
  unfold pointerText
  rw [flatMap_append]

theorem pieces_pointerText :
    pieces (escapeToken t ++ pointerText ts) = (t :: ts).map escapeToken := by
  induction ts generalizing t with
  | nil =>
    unfold pointerText
    rw [flatMap_nil, append_nil]
    exact pieces_self (slash_not_mem_escape t)
  | cons u us ih =>
    rw [pointerText_cons, pieces_append (slash_not_mem_escape t), ih u]
    rfl

theorem pointerTokens_text : pointerTokens (pointerText ts) = some ts := by
  cases ts with
  | nil => rfl
  | cons t ts =>
    have hdecode : ∀ us : List Text, (us.map escapeToken).mapM unescapeToken = some us := by
      intro us
      induction us with
      | nil => rfl
      | cons u us ih =>
        rw [map_cons, mapM_cons, unescape_escape, ih]
        rfl
    rw [pointerText_cons, pointerTokens, if_pos rfl, pieces_pointerText]
    exact hdecode (t :: ts)

theorem pointerText_injective {ts us : List Text} (h : pointerText ts = pointerText us) :
    ts = us := by
  have htokens := pointerTokens_text ts
  rw [h, pointerTokens_text us] at htokens
  exact (Option.some.inj htokens).symm

/-- The number that a token without leading zeros writes. -/
def arrayIndex : Option Nat :=
  if decimal (ofDecimal t) = t then some (ofDecimal t) else none

/-- One step into a value. -/
def child : Json → Text → Option Json
  | .obj fields, t => fields.lookup t
  | .arr items, t => (arrayIndex t).bind (fun i => items[i]?)
  | _, _ => none

/-- The value at the end of a list of tokens. -/
def follow : Json → List Text → Option Json
  | j, [] => some j
  | j, t :: ts => (child j t).bind (fun v => follow v ts)

variable (j : Json)

/-- The value that a pointer names. -/
def evaluate (pointer : Text) : Option Json :=
  (pointerTokens pointer).bind (follow j)

theorem evaluate_text (ts : List Text) : evaluate j (pointerText ts) = follow j ts := by
  unfold evaluate
  rw [pointerTokens_text]
  rfl

theorem follow_append : follow j (ts ++ us) = (follow j ts).bind (fun v => follow v us) := by
  induction ts generalizing j with
  | nil => rfl
  | cons t ts ih =>
    rw [cons_append, follow, follow]
    cases child j t with
    | none => rfl
    | some v => exact ih v

theorem follow_concat {j v : Json} {ts : List Text} (h : follow j ts = some v) (t : Text) :
    follow j (ts ++ [t]) = child v t := by
  rw [follow_append, h]
  show (child v t).bind (fun w => some w) = child v t
  cases child v t <;> rfl

variable {v : Json}

theorem child_item {items : List Json} {i : Nat} (h : items[i]? = some v) :
    child (.arr items) (decimal i) = some v := by
  have hindex : arrayIndex (decimal i) = some i := by
    unfold arrayIndex
    rw [ofDecimal_decimal, if_pos rfl]
  unfold child
  simp only [hindex]
  exact h

/-- In every object the keys are distinct. -/
inductive KeysDistinct : Json → Prop
  | null : KeysDistinct .null
  | bool (b : Bool) : KeysDistinct (.bool b)
  | int (n : Int) : KeysDistinct (.int n)
  | real (token : Text) : KeysDistinct (.real token)
  | str (t : Text) : KeysDistinct (.str t)
  | arr {items : List Json} (h : ∀ v ∈ items, KeysDistinct v) : KeysDistinct (.arr items)
  | obj {fields : List (Text × Json)} (hkeys : (fields.map Prod.fst).Nodup)
      (h : ∀ f ∈ fields, KeysDistinct f.2) : KeysDistinct (.obj fields)

variable {fields : List (Text × Json)}

theorem lookup_of_mem (hkeys : (fields.map Prod.fst).Nodup)
    {k : Text} (h : (k, v) ∈ fields) : fields.lookup k = some v := by
  induction fields with
  | nil => cases h
  | cons f rest ih =>
    obtain ⟨k', v'⟩ := f
    rw [map_cons, nodup_cons] at hkeys
    rcases mem_cons.mp h with heq | hrest
    · cases heq
      rw [lookup_cons_self]
    have hne : k ≠ k' := by
      intro heq
      exact hkeys.1 (mem_map.mpr ⟨(k, v), hrest, heq⟩)
    rw [lookup_cons, beq_eq_false_iff_ne.mpr hne]
    exact ih hkeys.2 hrest

theorem child_field (hkeys : (fields.map Prod.fst).Nodup)
    {k : Text} (h : (k, v) ∈ fields) : child (.obj fields) k = some v :=
  lookup_of_mem hkeys h

theorem pieces_ne_nil : pieces t ≠ [] := by
  cases t with
  | nil => exact cons_ne_nil _ _
  | cons c t =>
    rw [pieces]
    split
    · exact cons_ne_nil _ _
    · split
      · exact cons_ne_nil _ _
      · exact cons_ne_nil _ _

theorem pieces_concat {t s : Text} (hs : '/' ∉ s) : pieces (t ++ '/' :: s) = pieces t ++ [s] := by
  induction t with
  | nil =>
    have hfirst : pieces ('/' :: s) = [] :: pieces s := by rw [pieces, if_pos rfl]
    rw [nil_append, hfirst, pieces_self hs]
    rfl
  | cons c t ih =>
    rw [cons_append, pieces, pieces, ih]
    by_cases hc : c = '/'
    · rw [if_pos hc, if_pos hc]
      rfl
    rw [if_neg hc, if_neg hc]
    cases hpieces : pieces t with
    | nil => exact absurd hpieces (pieces_ne_nil t)
    | cons piece more => rfl

variable {native value : Json}

/-- A pointer with one more token names the child of the value that it names. -/
theorem evaluate_child {pointer key : Text} (h : evaluate native pointer = some value) :
    evaluate native (pointer ++ '/' :: escapeToken key) = child value key := by
  obtain ⟨ts, hts, hvalue⟩ := Option.bind_eq_some_iff.mp h
  have htokens : pointerTokens (pointer ++ '/' :: escapeToken key) = some (ts ++ [key]) := by
    cases pointer with
    | nil =>
      cases hts
      have hone := pointerTokens_text [key]
      rwa [pointerText_cons, show pointerText [] = [] from rfl, append_nil] at hone
    | cons c rest =>
      by_cases hc : c = '/'
      · rw [pointerTokens, if_pos hc] at hts
        rw [cons_append, pointerTokens, if_pos hc, pieces_concat (slash_not_mem_escape key),
          mapM_append, hts, mapM_cons, unescape_escape]
        rfl
      · rw [pointerTokens, if_neg hc] at hts
        cases hts
  unfold evaluate
  rw [htokens]
  exact follow_concat hvalue key

theorem child_distinct {v w : Json} {key : Text} (hv : KeysDistinct v) (h : child v key = some w) :
    KeysDistinct w := by
  cases hv with
  | null | bool | int | real | str => cases h
  | arr hitems =>
    obtain ⟨i, -, hi⟩ := Option.bind_eq_some_iff.mp h
    exact hitems w (mem_of_getElem? hi)
  | @obj fields hkeys hfields =>
    obtain ⟨before, after, hsplit, -⟩ := lookup_eq_some_iff.mp h
    exact hfields (key, w) (by rw [hsplit]; simp)

theorem evaluate_distinct {pointer : Text} (hnative : KeysDistinct native)
    (h : evaluate native pointer = some value) : KeysDistinct value := by
  obtain ⟨ts, -, hvalue⟩ := Option.bind_eq_some_iff.mp h
  clear h
  induction ts generalizing native with
  | nil =>
    cases hvalue
    exact hnative
  | cons token ts ih =>
    obtain ⟨w, hw, hrest⟩ := Option.bind_eq_some_iff.mp hvalue
    exact ih (child_distinct hnative hw) hrest

end JsonPointers
