import IndagoRev.JsonValues

/-!
# Reading the answers of GDB

The reader of GDB/MI results, over what is left of the text, a character for each
byte.  Whatever escapes a writer chooses, the reader gives back what was written.
-/

namespace Indago.MiParser

open StdText Transactions JsonValues List

/-- `peek`, a NUL at the end. -/
def peek (s : Text) : Char := s.headD '\x00'

@[simp] theorem peek_cons (c : Char) (s : Text) : peek (c :: s) = c := rfl

/-- The characters of a key. -/
def isKeyChar (c : Char) : Bool := c.isAlphanum || c == '-' || c == '_'

/-- `key`. -/
def key (s : Text) : Access (Text × Text) :=
  if s.takeWhile isKeyChar = [] then .error "invalid MI field"
  else .ok (s.takeWhile isKeyChar, s.dropWhile isKeyChar)

def isOctal (c : Char) : Bool := '0' ≤ c && c ≤ '7'

def octalDigit (c : Char) : Nat := c.toNat - '0'.toNat

/-- At most so many further octal digits. -/
def octal : Nat → Nat → Text → Nat × Text
  | n + 1, v, c :: s => if isOctal c then octal n (v * 8 + octalDigit c) s else (v, c :: s)
  | _, v, s => (v, s)

/-- What a backslash stands for. -/
def escaped : Text → Option (Char × Text)
  | [] => none
  | c :: s =>
    if c = 'n' then some ('\n', s)
    else if c = 'r' then some ('\r', s)
    else if c = 't' then some ('\t', s)
    else if isOctal c then
      let read := octal 2 (octalDigit c) s
      some (Char.ofNat (read.1 % 256), read.2)
    else some (c, s)

/-- One character of a string. -/
def character (c : Char) (s : Text) : Option (Char × Text) :=
  if c = '\\' then escaped s else some (c, s)

/-- `string`, behind the opening quote.  The first argument is no less than the length. -/
def string : Nat → Text → Access (Text × Text)
  | n + 1, c :: s =>
    if c = '"' then .ok ([], s)
    else
      match character c s with
      | none => .error "unterminated MI string"
      | some (d, s) => do
        let (t, s) ← string n s
        pure (d :: t, s)
  | _, _ => .error "unterminated MI string"

/-- What closes the collection that has come to this. -/
def close : Json → Char
  | .obj _ => '\x7d'
  | _ => ']'

/-- A result goes to its key, or to the end of an array as an object of its own. -/
def addResult (r : Text × Json) : Json → Json
  | .obj fields => .obj (Json.insertField r.1 r.2 fields)
  | .arr items => .arr (items ++ [.obj [r]])
  | out => out

def addValue (v : Json) : Json → Json
  | .arr items => .arr (items ++ [v])
  | out => out

/-- Whether the next entry is a result. -/
def readsResult (s : Text) (out : Json) : Bool :=
  close out == '\x7d' || (peek s ≠ '\x7b' && peek s ≠ '[' && peek s ≠ '"')

section Loop

variable (value : Text → Access (Json × Text))

/-- A key with its value. -/
def result (missing : String) (s : Text) : Access ((Text × Json) × Text) := do
  let (k, s) ← key s
  if peek s ≠ '=' then throw missing
  let (v, s) ← value s.tail
  pure ((k, v), s)

/-- One entry of a collection. -/
def entry (out : Json) (s : Text) : Access (Json × Text) :=
  if readsResult s out then do
    let (r, s) ← result value "invalid MI result" s
    pure (addResult r out, s)
  else do
    let (v, s) ← value s
    pure (addValue v out, s)

/-- The loop over a collection.  The first argument is no less than the length. -/
def entries : Nat → Json → Text → Access (Json × Text)
  | 0, _, _ => .error "truncated MI collection"
  | n + 1, out, s =>
    if peek s = close out then .ok (out, s.tail)
    else if peek s = '\x00' then .error "truncated MI collection"
    else do
      let (out, s) ← entry value out s
      if peek s = ',' then entries n out s.tail
      else if peek s = close out then pure (out, s.tail)
      else throw "invalid MI terminator"

end Loop

/-- `value`, with the nesting that is left. -/
def value : Nat → Text → Access (Json × Text)
  | 0, _ => .error "MI nesting limit"
  | d + 1, s =>
    if peek s = '"' then do
      let (t, s) ← string s.tail.length s.tail
      pure (.str t, s)
    else if peek s = '\x7b' then entries (value d) s.tail.length (.obj []) s.tail
    else if peek s = '[' then entries (value d) s.tail.length (.arr []) s.tail
    else .error "invalid MI value"

/-- The loop of `fields`.  The first argument is no less than the length. -/
def fieldsFrom : Nat → List (Text × Json) → Text → Access Json
  | 0, out, _ => .ok (.obj out)
  | n + 1, out, s =>
    if s = [] then .ok (.obj out)
    else do
      let (r, s) ← result (value 32) "missing MI equals" (if peek s = ',' then s.tail else s)
      fieldsFrom n (Json.insertField r.1 r.2 out) s

/-- `fields`. -/
def fields (s : Text) : Access Json := fieldsFrom s.length [] s

/-- A key that a writer may use. -/
abbrev IsKey (k : Text) : Prop := k ≠ [] ∧ ∀ c ∈ k, isKeyChar c = true

variable {value : Text → Access (Json × Text)} {rest k s : Text} {out out' : Json}
  {n d : Nat} {v j : Json}

theorem result_eq (missing : String) (hk : IsKey k) (hvalue : value s = .ok (v, rest)) :
    result value missing (k ++ '=' :: s) = .ok ((k, v), rest) := by
  have htake : (k ++ '=' :: s).takeWhile isKeyChar = k := by
    rw [takeWhile_append_of_pos hk.2]
    simp [isKeyChar]
  have hdrop : (k ++ '=' :: s).dropWhile isKeyChar = '=' :: s := by
    rw [dropWhile_append_of_pos hk.2]
    simp [isKeyChar]
  have hkey : key (k ++ '=' :: s) = .ok (k, '=' :: s) := by
    rw [key, htake, hdrop, if_neg hk.1]
  simp only [result, hkey, bind, Except.bind, peek, headD_cons, tail_cons, hvalue]
  rfl

theorem close_ne (out : Json) :
    close out ≠ '\x00' ∧ close out ≠ ',' ∧ isKeyChar (close out) = false := by
  cases out <;> simp [close, isKeyChar]

theorem entries_entry {after : Text} (hclose : peek s ≠ close out) (hend : peek s ≠ '\x00')
    (hentry : entry value out s = .ok (out', after)) : entries value (n + 1) out s =
      if peek after = ',' then entries value n out' after.tail
      else if peek after = close out' then .ok (out', after.tail)
      else .error "invalid MI terminator" := by
  rw [entries, if_neg hclose, if_neg hend, hentry]
  rfl

/-- Texts with commas between them. -/
def commas : List Text → Text
  | [] => []
  | [w] => w
  | w :: ws => w ++ ',' :: commas ws

/-- The loop over a written collection adds its entries one by one. -/
theorem entries_commas {α : Type} {text : α → Text} {g : α → Json → Json} {c : Char}
    (xs : List α) (hstart : ∀ x ∈ xs, ∀ s, peek (text x ++ s) ≠ c ∧ peek (text x ++ s) ≠ '\x00')
    (hentry : ∀ x ∈ xs, ∀ out s, close out = c →
      entry value out (text x ++ s) = .ok (g x out, s) ∧ close (g x out) = c)
    (hclose : close out = c) (hn : (commas (xs.map text)).length < n) :
    entries value n out (commas (xs.map text) ++ c :: rest) =
      .ok (xs.foldl (fun out x => g x out) out, rest) := by
  induction xs generalizing out n with
  | nil =>
    cases n with
    | zero => cases hn
    | succ n =>
      simp [commas, entries, hclose]
  | cons x xs ih =>
    have hne := close_ne out
    subst hclose
    cases n with
    | zero => cases hn
    | succ n =>
    cases xs with
    | nil =>
      obtain ⟨hfirst, hend⟩ := hstart x mem_cons_self (close out :: rest)
      obtain ⟨hx, hgrown⟩ := hentry x mem_cons_self out (close out :: rest) rfl
      simp only [map_cons, map_nil, commas, foldl_cons, foldl_nil]
      rw [entries_entry hfirst hend hx, peek_cons, if_neg hne.2.1, if_pos hgrown.symm]
      rfl
    | cons y ys =>
      have htext : commas ((x :: y :: ys).map text) ++ close out :: rest =
          text x ++ (',' :: (commas ((y :: ys).map text) ++ close out :: rest)) := by
        simp [commas]
      have hlong : (commas ((x :: y :: ys).map text)).length =
          (text x).length + ((commas ((y :: ys).map text)).length + 1) := by
        simp [commas]
      obtain ⟨hfirst, hend⟩ := hstart x mem_cons_self
        (',' :: (commas ((y :: ys).map text) ++ close out :: rest))
      obtain ⟨hx, hgrown⟩ := hentry x mem_cons_self out _ rfl
      rw [htext, entries_entry hfirst hend hx, peek_cons, if_pos rfl, tail_cons, foldl_cons]
      exact ih (fun z hz => hstart z (mem_cons_of_mem x hz))
        (fun z hz => hentry z (mem_cons_of_mem x hz)) hgrown (by omega)

/-- The ways to write a character within a string. -/
inductive Spells : Char → Text → Prop
  | plain {c : Char} : c ≠ '"' → c ≠ '\\' → Spells c [c]
  | newline : Spells '\n' ['\\', 'n']
  | return : Spells '\r' ['\\', 'r']
  | tab : Spells '\t' ['\\', 't']
  | quoted {c : Char} : c ∉ ['n', 'r', 't'] → isOctal c = false → Spells c ['\\', c]
  | octal {a b c : Char} : isOctal a → isOctal b → isOctal c →
    Spells (Char.ofNat ((64 * octalDigit a + 8 * octalDigit b + octalDigit c) % 256)) ['\\', a, b, c]

inductive SpellsText : Text → Text → Prop
  | nil : SpellsText [] []
  | cons {c : Char} {e t w : Text} : Spells c e → SpellsText t w → SpellsText (c :: t) (e ++ w)

/-- A result, with the text of its value. -/
structure Written where
  key : Text
  value : Json
  text : Text
  isKey : IsKey key

def row (r : Written) : Text := r.key ++ '=' :: r.text

/-- The results with the last one of each key. -/
def object (rs : List Written) : Json :=
  .obj (rs.foldl (fun fields r => Json.insertField r.key r.value fields) [])

/-- The ways to write a value with so much nesting: tuples, lists of values and lists
of results. -/
inductive Writes : Nat → Json → Text → Prop
  | text {d : Nat} {t w : Text} : SpellsText t w → Writes (d + 1) (.str t) ('"' :: w ++ ['"'])
  | tuple {d : Nat} {rs : List Written} : (∀ r ∈ rs, Writes d r.value r.text) →
    Writes (d + 1) (object rs) ('\x7b' :: commas (rs.map row) ++ ['\x7d'])
  | values {d : Nat} {rs : List (Json × Text)} : (∀ r ∈ rs, Writes d r.1 r.2) →
    Writes (d + 1) (.arr (rs.map Prod.fst)) ('[' :: commas (rs.map Prod.snd) ++ [']'])
  | results {d : Nat} {rs : List Written} : (∀ r ∈ rs, Writes d r.value r.text) →
    Writes (d + 1) (.arr (rs.map (fun r => .obj [(r.key, r.value)])))
      ('[' :: commas (rs.map row) ++ [']'])

theorem character_spells {c : Char} {e : Text} (h : Spells c e) (s : Text) :
    ∃ a w, e = a :: w ∧ a ≠ '"' ∧ character a (w ++ s) = some (c, s) := by
  cases h with
  | plain hquote hslash => exact ⟨c, [], rfl, hquote, if_neg hslash⟩
  | newline => exact ⟨_, _, rfl, by decide, rfl⟩
  | «return» => exact ⟨_, _, rfl, by decide, rfl⟩
  | tab => exact ⟨_, _, rfl, by decide, rfl⟩
  | quoted hletter hoctal =>
    refine ⟨_, _, rfl, by decide, ?_⟩
    simp only [mem_cons, not_mem_nil, or_false, not_or] at hletter
    simp [character, escaped, hletter, hoctal]
  | octal ha hb hc =>
    rename_i a b d
    have hletter : a ≠ 'n' ∧ a ≠ 'r' ∧ a ≠ 't' := by
      refine ⟨?_, ?_, ?_⟩ <;> rintro rfl <;> cases ha
    have hvalue : (octalDigit a * 8 + octalDigit b) * 8 + octalDigit d =
        64 * octalDigit a + 8 * octalDigit b + octalDigit d := by omega
    refine ⟨_, _, rfl, by decide, ?_⟩
    simp [character, escaped, octal, hletter, ha, hb, hc, hvalue]

theorem string_spells {t w : Text} (h : SpellsText t w) (hn : w.length < n) :
    string n (w ++ '"' :: rest) = .ok (t, rest) := by
  induction h generalizing n with
  | nil =>
    cases n with
    | zero => cases hn
    | succ n => rfl
  | cons hspells _ ih =>
    rename_i c e t w _
    obtain ⟨a, e, rfl, hquote, hread⟩ := character_spells hspells (w ++ '"' :: rest)
    cases n with
    | zero => cases hn
    | succ n =>
      rw [cons_append, length_cons, length_append] at hn
      have htext : a :: e ++ w ++ '"' :: rest = a :: (e ++ (w ++ '"' :: rest)) := by simp
      rw [htext, string, if_neg hquote, hread]
      have hread := @ih n (by omega)
      simp only [hread, bind, Except.bind]
      rfl

theorem foldl_arr {α : Type} {g : α → Json → Json} {f : α → Json}
    (h : ∀ x items, g x (.arr items) = .arr (items ++ [f x])) (xs : List α)
    (items : List Json) : xs.foldl (fun out x => g x out) (.arr items) =
      .arr (items ++ xs.map f) := by
  induction xs generalizing items with
  | nil => simp
  | cons x xs ih => simp [h, ih]

theorem writes_start {w : Text} (h : Writes d j w) (s : Text) :
    peek (w ++ s) = '"' ∨ peek (w ++ s) = '\x7b' ∨ peek (w ++ s) = '[' := by
  cases h <;> simp

theorem row_start (r : Written) (s : Text) {c : Char} (hc : isKeyChar c = false) :
    peek (row r ++ s) ≠ c := by
  rcases r with ⟨_ | ⟨a, k⟩, v, w, hk⟩
  · exact absurd rfl hk.1
  · rintro rfl
    cases hc.symm.trans (hk.2 a mem_cons_self)

theorem entry_row {r : Written} (out : Json) (hvalue : value (r.text ++ s) = .ok (r.value, s)) :
    entry value out (row r ++ s) = .ok (addResult (r.key, r.value) out, s) := by
  have hresult : readsResult (row r ++ s) out = true := by
    have hstart := fun c => @row_start r s c
    simp [readsResult, hstart, isKeyChar]
  have htext : row r ++ s = r.key ++ '=' :: (r.text ++ s) := by simp [row]
  rw [entry, if_pos hresult, htext, result_eq _ r.isKey hvalue]
  rfl

theorem entries_rows {rs : List Written} (out : Json)
    (hvalues : ∀ r ∈ rs, ∀ s, value (r.text ++ s) = .ok (r.value, s))
    (hn : (commas (rs.map row)).length < n) :
    entries value n out (commas (rs.map row) ++ close out :: rest) =
      .ok (rs.foldl (fun out r => addResult (r.key, r.value) out) out, rest) := by
  refine entries_commas (g := fun r out => addResult (r.key, r.value) out) rs ?_ ?_ rfl hn
  · intro r _ s
    exact ⟨row_start r s (close_ne out).2.2, row_start r s rfl⟩
  · intro r hr out' s hclose
    refine ⟨entry_row out' (hvalues r hr s), ?_⟩
    rw [← hclose]
    cases out' <;> rfl

theorem entries_values {rs : List (Json × Text)} (hvalues : ∀ r ∈ rs, Writes d r.1 r.2)
    (hread : ∀ r ∈ rs, ∀ s, value (r.2 ++ s) = .ok (r.1, s))
    (hn : (commas (rs.map Prod.snd)).length < n) :
    entries value n (.arr []) (commas (rs.map Prod.snd) ++ ']' :: rest) =
      .ok (.arr (rs.map Prod.fst), rest) := by
  refine (entries_commas (g := fun r out => addValue r.1 out) rs ?_ ?_ rfl hn).trans ?_
  · intro r hr s
    rcases writes_start (hvalues r hr) s with h | h | h <;> rw [h] <;> decide
  · intro r hr out s hclose
    have hvalue : readsResult (r.2 ++ s) out = false := by
      rw [readsResult, hclose]
      rcases writes_start (hvalues r hr) s with h | h | h <;> rw [h] <;> rfl
    rw [entry, if_neg (by simp [hvalue]), hread r hr s, ← hclose]
    cases out <;> exact ⟨rfl, rfl⟩
  · rw [foldl_arr (f := Prod.fst) (fun _ _ => rfl)]
    rfl

/-- Every way to write a value is read back. -/
theorem value_writes {w : Text} (h : Writes d j w) (rest : Text) :
    MiParser.value d (w ++ rest) = .ok (j, rest) := by
  have hopen : ∀ (c c' : Char) (w rest : Text),
      c :: w ++ [c'] ++ rest = c :: (w ++ c' :: rest) := by simp
  induction h generalizing rest with
  | text ht =>
    rw [hopen, MiParser.value, peek_cons, if_pos rfl, tail_cons, string_spells ht (by simp)]
    rfl
  | tuple _ ih =>
    rw [hopen, MiParser.value, peek_cons, if_neg (by decide), if_pos rfl, tail_cons]
    refine (entries_rows (.obj []) ih (by simp)).trans ?_
    rw [foldl_hom Json.obj fun _ _ => rfl]
    rfl
  | values hvalues ih =>
    rw [hopen, MiParser.value, peek_cons, if_neg (by decide), if_neg (by decide), if_pos rfl,
      tail_cons]
    exact entries_values hvalues ih (by simp)
  | results _ ih =>
    rw [hopen, MiParser.value, peek_cons, if_neg (by decide), if_neg (by decide), if_pos rfl,
      tail_cons]
    refine (entries_rows (.arr []) ih (by simp)).trans ?_
    rw [foldl_arr (f := fun r => .obj [(r.key, r.value)]) (fun _ _ => rfl)]
    rfl

/-- Results that are written in whatever spelling are read back. -/
theorem fields_written (rs : List Written) (hvalues : ∀ r ∈ rs, Writes 32 r.value r.text) :
    fields (rs.flatMap (fun r => ',' :: row r)) = .ok (object rs) := by
  have hloop : ∀ n out, (rs.flatMap (fun r => ',' :: row r)).length ≤ n →
      fieldsFrom n out (rs.flatMap (fun r => ',' :: row r)) =
        .ok (.obj (rs.foldl (fun out r => Json.insertField r.key r.value out) out)) := by
    induction rs with
    | nil =>
      intro n out _
      cases n <;> rfl
    | cons r rs ih =>
      intro n out hn
      rw [flatMap_cons, cons_append, length_cons, length_append] at hn
      cases n with
      | zero => cases hn
      | succ n =>
        have htext : row r ++ rs.flatMap (fun r => ',' :: row r) =
            r.key ++ '=' :: (r.text ++ rs.flatMap (fun r => ',' :: row r)) := by simp [row]
        rw [flatMap_cons, cons_append, fieldsFrom, if_neg (cons_ne_nil _ _), peek_cons,
          if_pos rfl, tail_cons, htext, result_eq _ r.isKey
            (value_writes (hvalues r mem_cons_self) _)]
        exact ih (fun s hs => hvalues s (mem_cons_of_mem r hs)) n _ (by omega)
  exact hloop _ [] le_rfl

theorem name_written : fields ",func=\"\\101\\\"\"" = .ok (.obj [("func", .str "A\"")]) := by
  have hquote : '"' ∉ ['n', 'r', 't'] := by decide
  have hname : Writes 32 (.str "A\"") "\"\\101\\\"\"" :=
    .text (.cons (@Spells.octal '1' '0' '1' rfl rfl rfl) (.cons (.quoted hquote rfl) .nil))
  exact fields_written [⟨"func", .str "A\"", "\"\\101\\\"\"", by decide⟩] (by simpa using hname)

end Indago.MiParser
