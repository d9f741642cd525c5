import IndagoRev.Numerals
import IndagoRev.Transactions

/-!
# JSON values

The values of a JSON library with checked access: an object is a list of fields
in the order of their keys, and an access of the wrong kind is refused with the
number of its error class. Texts of values are not dealt with here.
-/

namespace JsonValues

open StdText Transactions List

/-- A JSON value. A number that is not an integer keeps its token. -/
inductive Json where
  | null
  | bool (b : Bool)
  | int (n : Int)
  | real (token : Text)
  | str (t : Text)
  | arr (items : List Json)
  | obj (fields : List (Text × Json))
  deriving Inhabited

/-- A checked access. -/
abbrev Access (α : Type) : Type := Except String α

namespace Json

def isObject : Json → Bool
  | .obj _ => true
  | _ => false

/-- `contains`, with the value that is there. -/
def get? : Json → Text → Option Json
  | .obj fields, key => fields.lookup key
  | _, _ => none

variable (j : Json) (key : Text)

def contains : Bool := (j.get? key).isSome

/-- `at` of a key. -/
def at? : Json → Text → Access Json
  | .obj fields, key =>
    match fields.lookup key with
    | some v => .ok v
    | none => .error "out_of_range.403"
  | _, _ => .error "type_error.304"

/-- The value that `operator[]` refers to. A missing one is null. -/
def entry : Json → Text → Access Json
  | .obj fields, key => .ok ((fields.lookup key).getD .null)
  | .null, _ => .ok .null
  | _, _ => .error "type_error.305"

/-- A field takes the place of the one with its key, or its place in the order. -/
def insertField (key : Text) (v : Json) : List (Text × Json) → List (Text × Json)
  | [] => [(key, v)]
  | (k, w) :: rest =>
    if k = key then (key, v) :: rest
    else if key < k then (key, v) :: (k, w) :: rest
    else (k, w) :: insertField key v rest

/-- Assignment through `operator[]`. -/
def put : Json → Text → Json → Access Json
  | .obj fields, key, v => .ok (.obj (insertField key v fields))
  | .null, key, v => .ok (.obj [(key, v)])
  | _, _, _ => .error "type_error.305"

/-- `erase` of a key. -/
def drop : Json → Text → Access Json
  | .obj fields, key => .ok (.obj (fields.filter (fun f => f.1 != key)))
  | _, _ => .error "type_error.307"

/-- `get<std::string>`. -/
def asText : Json → Access Text
  | .str t => .ok t
  | _ => .error "type_error.302"

/-- `get<bool>`. -/
def asBool : Json → Access Bool
  | .bool b => .ok b
  | _ => .error "type_error.302"

/-- `value` of a key: the field read as the type of the default. -/
def valueWith {α : Type} (read : Json → Access α) : Json → Text → α → Access α
  | .obj fields, key, default =>
    match fields.lookup key with
    | some v => read v
    | none => .ok default
  | _, _, _ => .error "type_error.306"

def value (default : Json) : Access Json :=
  j.valueWith .ok key default

def valueBool (default : Bool) : Access Bool :=
  j.valueWith asBool key default

def valueText (default : Text) : Access Text :=
  j.valueWith asText key default

/-- Equality with a string literal. -/
def isText : Json → Text → Bool
  | .str t, text => t == text
  | _, _ => false

variable (outer key : Text)

/-- `j[outer][key] = v`. -/
def putIn (v : Json) : Access Json := do
  let inner ← j.entry outer
  let inner ← inner.put key v
  j.put outer inner

/-- `j[outer].erase(key)`. -/
def dropIn : Access Json := do
  let inner ← j.entry outer
  let inner ← inner.drop key
  j.put outer inner

/-- `size`. -/
def size : Json → Nat
  | .null => 0
  | .arr items => items.length
  | .obj fields => fields.length
  | _ => 1

/-- Equality with the number 0. -/
def isZero : Json → Bool
  | .int n => n == 0
  | .real token => (token.takeWhile (fun c => c != 'e' && c != 'E')).all
      (fun c => c == '0' || c == '.' || c == '-')
  | _ => false

/-- The value at a path of keys, where every step meets an object with its key. -/
def path? : Option Json := (j.get? outer).bind (fun v => v.get? key)

/-- A character inside a string literal. -/
def escape (c : Char) : Text :=
  if c = '"' then ['\\', '"']
  else if c = '\\' then ['\\', '\\']
  else if c = '\n' then ['\\', 'n']
  else if c = '\r' then ['\\', 'r']
  else if c = '\t' then ['\\', 't']
  else if c.toNat = 8 then ['\\', 'b']
  else if c.toNat = 12 then ['\\', 'f']
  else if c.toNat < 16 then ['\\', 'u', '0', '0', '0'] ++ hexDigits c.toNat
  else if c.toNat < 32 then ['\\', 'u', '0', '0'] ++ hexDigits c.toNat
  else [c]

def quoted (t : Text) : Text := '"' :: t.flatMap escape ++ ['"']

mutual

/-- `dump` without indentation. -/
def dump : Json → Text
  | .null => "null"
  | .bool b => if b then "true" else "false"
  | .int n => decimalInt n
  | .real token => token
  | .str t => quoted t
  | .arr items => '[' :: dumpItems items ++ [']']
  | .obj fields => '\x7b' :: dumpFields fields ++ ['\x7d']

def dumpItems : List Json → Text
  | [] => []
  | [v] => v.dump
  | v :: w :: rest => v.dump ++ ',' :: dumpItems (w :: rest)

def dumpFields : List (Text × Json) → Text
  | [] => []
  | [(k, v)] => quoted k ++ ':' :: v.dump
  | (k, v) :: f :: rest => quoted k ++ ':' :: v.dump ++ ',' :: dumpFields (f :: rest)

end

/-- The first character of the inside of a string literal. -/
def unescape : Text → Option (Char × Text)
  | [] => none
  | '\\' :: 'u' :: d₁ :: d₂ :: d₃ :: d₄ :: rest =>
    some (Char.ofNat (ofHex [d₁, d₂, d₃, d₄]), rest)
  | '\\' :: 'n' :: rest => some ('\n', rest)
  | '\\' :: 'r' :: rest => some ('\r', rest)
  | '\\' :: 't' :: rest => some ('\t', rest)
  | '\\' :: 'b' :: rest => some (Char.ofNat 8, rest)
  | '\\' :: 'f' :: rest => some (Char.ofNat 12, rest)
  | '\\' :: c :: rest => some (c, rest)
  | c :: rest => some (c, rest)

theorem control_digits : ∀ n < 32, (if n < 16 then ['0', '0', '0'] ++ hexDigits n
    else ['0', '0'] ++ hexDigits n) = ['0', '0', (n / 16).digitChar, (n % 16).digitChar] := by
  decide

theorem control_value : ∀ n < 32, ofHex ['0', '0', (n / 16).digitChar, (n % 16).digitChar] = n := by
  decide

theorem unescape_escape (c : Char) (rest : Text) : unescape (escape c ++ rest) = some (c, rest) := by
  have hback : ∀ n, c.toNat = n → c = Char.ofNat n := by
    rintro n rfl
    exact (Char.ofNat_toNat c).symm
  have hdigits : ∀ {digits : Text}, c.toNat < 32 → digits = (if c.toNat < 16 then
      ['0', '0', '0'] ++ hexDigits c.toNat else ['0', '0'] ++ hexDigits c.toNat) →
        unescape (['\\', 'u'] ++ digits ++ rest) = some (c, rest) := by
    rintro digits hcontrol rfl
    rw [control_digits c.toNat hcontrol]
    show some (Char.ofNat (ofHex _), rest) = _
    rw [control_value c.toNat hcontrol, Char.ofNat_toNat]
  unfold escape
  split_ifs with hquote hslash hnewline hreturn htab hbackspace hfeed hlow hcontrol
  · rw [hquote]
    rfl
  · rw [hslash]
    rfl
  · rw [hnewline]
    rfl
  · rw [hreturn]
    rfl
  · rw [htab]
    rfl
  · rw [hback 8 hbackspace]
    rfl
  · rw [hback 12 hfeed]
    rfl
  · refine hdigits (by omega) ?_
    rw [if_pos hlow]
    rfl
  · refine hdigits hcontrol ?_
    rw [if_neg hlow]
    rfl
  · rw [singleton_append, unescape]
    all_goals
      intros
      exact hslash ‹_›

theorem quoted_injective {t t' : Text} (h : quoted t = quoted t') : t = t' := by
  unfold quoted at h
  have hinner := append_cancel_right (List.cons.inj h).2
  clear h
  induction t generalizing t' with
  | nil =>
    cases t' with
    | nil => rfl
    | cons c rest =>
      have hread := congrArg unescape hinner
      rw [flatMap_cons, unescape_escape] at hread
      cases hread
  | cons c rest ih =>
    have hread := congrArg unescape hinner
    rw [flatMap_cons, unescape_escape] at hread
    cases t' with
    | nil => cases hread
    | cons c' rest' =>
      rw [flatMap_cons, unescape_escape] at hread
      obtain ⟨rfl, hrest⟩ := Prod.mk.inj (Option.some.inj hread)
      rw [ih hrest]

variable {j j' v w : Json} {key other outer : Text} {fields : List (Text × Json)}

theorem lookup_filter_ne (h : other ≠ key) :
    (fields.filter (fun f => f.1 != key)).lookup other = fields.lookup other := by
  induction fields with
  | nil => rfl
  | cons f rest ih =>
    obtain ⟨k, v⟩ := f
    by_cases hk : k = key
    · subst hk
      simp [lookup_cons, beq_eq_false_iff_ne.mpr h, ih]
    · simp [lookup_cons, hk, ih]

theorem lookup_filter_self : (fields.filter (fun f => f.1 != key)).lookup key = none := by
  induction fields with
  | nil => rfl
  | cons f rest ih =>
    obtain ⟨k, v⟩ := f
    by_cases hk : k = key
    · simp [hk, ih]
    · simp [lookup_cons, hk, beq_eq_false_iff_ne.mpr (Ne.symm hk), ih]

theorem lookup_insertField (fields : List (Text × Json)) : (insertField key v fields).lookup other =
      if other = key then some v else fields.lookup other := by
  induction fields with
  | nil =>
    by_cases hk : other = key
    · simp [insertField, hk]
    · simp [insertField, lookup_cons, hk, beq_eq_false_iff_ne.mpr hk]
  | cons f rest ih =>
    obtain ⟨k, w⟩ := f
    unfold insertField
    by_cases hk : other = key
    · subst hk
      by_cases hsame : k = other
      · simp [hsame]
      · by_cases hlt : other < k
        · simp [hsame, hlt]
        · simp [hsame, hlt, lookup_cons, beq_eq_false_iff_ne.mpr (Ne.symm hsame), ih]
    · have hfalse := beq_eq_false_iff_ne.mpr hk
      by_cases hsame : k = key
      · simp [hsame, lookup_cons, hk, hfalse]
      · by_cases hlt : key < k
        · simp [hsame, hlt, lookup_cons, hk, hfalse]
        · simp [hsame, hlt, lookup_cons, hk, ih]

theorem put_get? (h : j.put key v = .ok j') (other : Text) :
    j'.get? other = if other = key then some v else j.get? other := by
  cases j with
  | obj fields =>
    cases h
    exact lookup_insertField fields
  | null =>
    cases h
    by_cases hk : other = key
    · subst hk
      simp [get?]
    · simp [get?, lookup_cons, hk, beq_eq_false_iff_ne.mpr hk]
  | bool | int | real | str | arr => cases h

theorem put_get?_self (h : j.put key v = .ok j') : j'.get? key = some v := by
  simp [put_get? h]

theorem put_get?_ne (h : j.put key v = .ok j') (hne : other ≠ key) :
    j'.get? other = j.get? other := by
  simp [put_get? h, hne]

theorem drop_get? (h : j.drop key = .ok j') (other : Text) :
    j'.get? other = if other = key then none else j.get? other := by
  cases j with
  | obj fields =>
    cases h
    by_cases hk : other = key
    · subst hk
      simp [get?, lookup_filter_self]
    · simp [get?, hk, lookup_filter_ne hk]
  | null | bool | int | real | str | arr => cases h

theorem entry_get? (h : j.entry outer = .ok v) (key : Text) : v.get? key = j.path? outer key := by
  cases j with
  | obj fields =>
    cases h
    cases hfind : fields.lookup outer <;> simp [path?, get?, hfind]
  | null =>
    cases h
    rfl
  | bool | int | real | str | arr => cases h

theorem path?_put (h : j.put outer v = .ok j') (key : Text) : j'.path? outer key = v.get? key := by
  simp [path?, put_get?_self h]

theorem putIn_path? (h : j.putIn outer key v = .ok j') (other : Text) :
    j'.path? outer other = if other = key then some v else j.path? outer other := by
  simp only [putIn, except_bind_ok] at h
  obtain ⟨inner, hentry, inner', hput, houter⟩ := h
  rw [path?_put houter, put_get? hput, entry_get? hentry]

theorem dropIn_path? (h : j.dropIn outer key = .ok j') (other : Text) :
    j'.path? outer other = if other = key then none else j.path? outer other := by
  simp only [dropIn, except_bind_ok] at h
  obtain ⟨inner, hentry, inner', hdrop, houter⟩ := h
  rw [path?_put houter, drop_get? hdrop, entry_get? hentry]

theorem putIn_get?_ne (h : j.putIn outer key v = .ok j') (hne : other ≠ outer) :
    j'.get? other = j.get? other := by
  simp only [putIn, except_bind_ok] at h
  obtain ⟨_, _, _, _, houter⟩ := h
  exact put_get?_ne houter hne

theorem dropIn_get?_ne (h : j.dropIn outer key = .ok j') (hne : other ≠ outer) :
    j'.get? other = j.get? other := by
  simp only [dropIn, except_bind_ok] at h
  obtain ⟨_, _, _, _, houter⟩ := h
  exact put_get?_ne houter hne

theorem put_path?_ne (h : j.put key v = .ok j') (hne : outer ≠ key) (other : Text) :
    j'.path? outer other = j.path? outer other := by
  simp [path?, put_get?_ne h hne]

theorem at?_ok : j.at? key = .ok v ↔ j.get? key = some v := by
  cases j with
  | obj fields => cases hfind : fields.lookup key <;> simp [at?, get?, hfind]
  | null | bool | int | real | str | arr => simp [at?, get?]

theorem value_eq (h : j.isObject = true) (default : Json) :
    j.value key default = .ok ((j.get? key).getD default) := by
  cases j with
  | obj fields => cases hfind : fields.lookup key <;> simp [value, valueWith, get?, hfind]
  | null | bool | int | real | str | arr => cases h

/-- A field read with a default of false is absent or a boolean. -/
theorem valueBool_ok {b : Bool} (h : j.valueBool key false = .ok b) :
    j.get? key = some (.bool b) ∨ j.get? key = none ∧ b = false := by
  cases j with
  | obj fields =>
    simp only [valueBool, valueWith] at h
    cases hfind : fields.lookup key with
    | none =>
      rw [hfind] at h
      cases h
      exact Or.inr ⟨hfind, rfl⟩
    | some v =>
      rw [hfind] at h
      cases v with
      | bool b' =>
        cases h
        exact Or.inl hfind
      | null | int | real | str | arr | obj => cases h
  | null | bool | int | real | str | arr => cases h

end Json

end JsonValues
