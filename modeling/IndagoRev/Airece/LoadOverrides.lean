import IndagoRev.Airece.SymbolicMeaning
import IndagoRev.Airece.XairExecution

/-!
# The symbols of loaded bytes

`run_symbolic` lets a loaded value stand for the bytes of a source that its tag names.
The number of bytes is that of the tag.  The override is the word that the load reads
exactly when the tag has as many bytes as the type of the value.
-/

namespace Airece

open StdText ByteMemory List

/-- The name of the symbol of a byte. -/
def byteName (name : Text) (offset : Nat) : Text := name ++ "_byte_" ++ decimal offset

variable (A : SymbolAssignment)

/-- The bytes of a source under an assignment. -/
def sourceMemory (name : Text) : Memory :=
  fun offset => (A 8 (byteName name offset)).toNat

/-- The word in some bytes of a source, the lowest byte first. -/
def sourceWord (name : Text) (start bytes : Nat) : Word :=
  ⟨8 * bytes, BitVec.ofNat (8 * bytes) (read (sourceMemory A name) start bytes)⟩

/-- What a load of a value reads from a source. -/
def sourceLoad (name : Text) (start bits : Nat) : Word :=
  ⟨bits, BitVec.ofNat bits (read (sourceMemory A name) start (byteCount bits))⟩

theorem sourceLoad_eq (name : Text) (start bytes : Nat) :
    sourceLoad A name start (8 * bytes) = sourceWord A name start bytes := by
  have hcount : byteCount (8 * bytes) = bytes := by
    unfold byteCount
    omega
  rw [sourceLoad, sourceWord, hcount]

theorem read_lt (memory : Memory) (start bytes : Nat) : read memory start bytes < 2 ^ (8 * bytes) := by
  induction bytes generalizing start with
  | zero => exact Nat.one_pos
  | succ bytes ih =>
    have hrest := ih (start + 1)
    have hbyte : memory start % 256 < 256 := Nat.mod_lt _ (by decide)
    rw [ByteMemory.read, show 8 * (bytes + 1) = 8 * bytes + 8 by omega, Nat.pow_add]
    omega

theorem word_ext {w w' : Word} (hwidth : w.width = w'.width)
    (hbits : w.bits.toNat = w'.bits.toNat) : w = w' := by
  obtain ⟨width, bits⟩ := w
  obtain ⟨width', bits'⟩ := w'
  obtain rfl : width = width' := hwidth
  obtain rfl : bits = bits' := BitVec.eq_of_toNat_eq hbits
  rfl

theorem sourceWord_toNat (name : Text) (start bytes : Nat) :
    (sourceWord A name start bytes).bits.toNat = read (sourceMemory A name) start bytes := by
  rw [sourceWord, BitVec.toNat_ofNat, Nat.mod_eq_of_lt (read_lt _ _ _)]

theorem sourceWord_append (name : Text) (start bytes : Nat) :
    (⟨(sourceWord A name (start + 1) bytes).width + 8,
      (sourceWord A name (start + 1) bytes).bits ++ A 8 (byteName name start)⟩ : Word) =
      sourceWord A name start (bytes + 1) := by
  have hlow := (A 8 (byteName name start)).isLt
  refine word_ext rfl ?_
  change ((sourceWord A name (start + 1) bytes).bits ++ A 8 (byteName name start)).toNat = _
  rw [BitVec.toNat_append, sourceWord_toNat, sourceWord_toNat, ByteMemory.read, Nat.shiftLeft_eq,
    Nat.mul_comm, ← Nat.two_pow_add_eq_or_of_lt hlow]
  change _ = (A 8 (byteName name start)).toNat % 256 + _
  rw [Nat.mod_eq_of_lt hlow]
  omega

theorem sourceWord_one (name : Text) (start : Nat) :
    (⟨8, A 8 (byteName name start)⟩ : Word) = sourceWord A name start 1 := by
  refine word_ext rfl ?_
  rw [sourceWord_toNat]
  change (A 8 (byteName name start)).toNat = (A 8 (byteName name start)).toNat % 256 + 256 * 0
  have hlow := (A 8 (byteName name start)).isLt
  omega

theorem concat_sourceWord (M : OpcodeMeaning) (A : SymbolAssignment) (name : Text)
    (start bytes : Nat) : M.binary .concat (8 * bytes + 8) (sourceWord A name (start + 1) bytes)
      (sourceWord A name start 1) = sourceWord A name start (bytes + 1) := by
  rw [← sourceWord_one, ← sourceWord_append]
  exact M.concat_eq (sourceWord A name (start + 1) bytes) ⟨8, A 8 (byteName name start)⟩

section Concatenation

variable {σ : Type} {e : SymbolicEngine σ} {M : OpcodeMeaning} {value : Denotation σ}

/-- What the library makes: every symbol, and a concatenation exactly when the width that
is asked for is that of its parts. -/
structure SymbolicEngine.Concatenates (e : SymbolicEngine σ) (value : Denotation σ) : Prop where
  symbol_made : ∀ bits name x, ∃ id x', e.symbol bits name x = (some id, x')
  concat_made : ∀ {a b x w w' p q}, value x a = some w → value x b = some w' →
    (∀ A, (w A).width = p) → (∀ A, (w' A).width = q) →
      ∃ id x', e.binary .concat (p + q) a b x = ((.ok, id), x')
  concat_refused : ∀ {bits a b x w w' p q id x'}, value x a = some w → value x b = some w' →
    (∀ A, (w A).width = p) → (∀ A, (w' A).width = q) →
      e.binary .concat bits a b x = ((.ok, id), x') → bits = p + q

/-- An expression stands for some bytes of a source. -/
def DenotesBytes (value : Denotation σ) (x : σ) (name : Text) (start bytes : Nat) (id : ExprId) :
    Prop :=
  value x id = some (fun A => sourceWord A name start bytes)

/-- Expressions stand for the bytes of a source one by one. -/
def DenoteEach (value : Denotation σ) (x : σ) (name : Text) (ids : List ExprId)
    (offsets : List Nat) : Prop :=
  List.Forall₂ (fun id offset => DenotesBytes value x name offset 1 id) ids offsets

variable {ids : List ExprId}

theorem DenoteEach.mono {x x' : σ} {name : Text} {offsets : List Nat}
    (h : DenoteEach value x name ids offsets) (hx : Extends value x x') :
    DenoteEach value x' name ids offsets := h.imp (fun _ _ hid => hx _ _ hid)

/-- The bytes below a word are put to it while the width fits into 16 bits. -/
theorem concatFrom_spec (hI : e.Implements M value) (hC : e.Concatenates value) (name : Text)
    (start : Nat) (more : Nat) : ∀ (ids : List ExprId) (bytes : Nat) (high : ExprId) (x : σ),
      DenoteEach value x name ids (List.range' start more).reverse →
      DenotesBytes value x name (start + more) bytes high → 8 * bytes < 2 ^ 16 →
      Extends value x (concatFrom e ids (8 * bytes) high x).2 ∧
        (8 * (bytes + more) < 2 ^ 16 → ∃ id, (concatFrom e ids (8 * bytes) high x).1 = some id ∧
          DenotesBytes value (concatFrom e ids (8 * bytes) high x).2 name start (bytes + more) id) ∧
        (2 ^ 16 ≤ 8 * (bytes + more) → (concatFrom e ids (8 * bytes) high x).1 = none) := by
  induction more with
  | zero =>
    intro ids bytes high x hids hhigh hbytes
    cases hids
    exact ⟨Extends.refl, fun _ => ⟨high, rfl, hhigh⟩, fun h => absurd h (by omega)⟩
  | succ more ih =>
    intro ids bytes high x hids hhigh hbytes
    rw [range'_concat, reverse_append, reverse_singleton,
      singleton_append] at hids
    cases hids with
    | cons hlow hrest =>
    rename_i low rest
    rw [concatFrom]
    have hbyte : DenotesBytes value x name (start + more) 1 low := by simpa using hlow
    by_cases hfits : 8 * bytes + 8 < 2 ^ 16
    · rw [Nat.mod_eq_of_lt hfits]
      have hexists : ∃ id x', e.binary .concat (8 * bytes + 8) high low x = ((.ok, id), x') :=
        hC.concat_made hhigh hbyte (fun A => rfl) (fun A => rfl)
      obtain ⟨id, x', hmade⟩ := hexists
      have hextends := hI.binary_extends .concat (8 * bytes + 8) high low x
      rw [hmade] at hextends ⊢
      have hnew : DenotesBytes value x' name (start + more) (bytes + 1) id := by
        rw [DenotesBytes, hI.binary hmade hhigh hbyte]
        congr 1
        funext A
        exact concat_sourceWord M A name (start + more) bytes
      obtain ⟨hkeeps, hshort, hlong⟩ := ih rest (bytes + 1) id x'
        (DenoteEach.mono hrest hextends) hnew (by omega)
      rw [show bytes + 1 + more = bytes + (more + 1) by omega] at hshort hlong
      exact ⟨hextends.trans hkeeps, hshort, hlong⟩
    · have hwidth : (8 * bytes + 8) % 2 ^ 16 ≠ 8 * bytes + 8 := by
        have hlt := Nat.mod_lt (8 * bytes + 8) (show 0 < 2 ^ 16 by decide)
        omega
      have hextends := hI.binary_extends .concat ((8 * bytes + 8) % 2 ^ 16) high low x
      rcases hmade : e.binary .concat ((8 * bytes + 8) % 2 ^ 16) high low x with
        ⟨⟨status, id⟩, x'⟩
      rw [hmade] at hextends
      have hrefused : status ≠ .ok := by
        rintro rfl
        exact hwidth (hC.concat_refused hhigh hbyte (fun A => rfl) (fun A => rfl) hmade)
      cases status with
      | ok => exact absurd rfl hrefused
      | unsupported | solverTimeout | other =>
        exact ⟨hextends, fun h => absurd h (by omega), fun _ => rfl⟩

theorem concatBytes_spec (hI : e.Implements M value) (hC : e.Concatenates value) {name : Text}
    {start count : Nat} {x : σ} (hcount : count ≠ 0)
    (hids : DenoteEach value x name ids (List.range' start count)) :
    Extends value x (concatBytes e ids x).2 ∧
      (8 * count < 2 ^ 16 → ∃ id, (concatBytes e ids x).1 = some id ∧
        DenotesBytes value (concatBytes e ids x).2 name start count id) ∧
      (2 ^ 16 ≤ 8 * count → (concatBytes e ids x).1 = none) := by
  obtain ⟨more, rfl⟩ := Nat.exists_eq_succ_of_ne_zero hcount
  have hreverse := rel_reverse hids
  rw [range'_concat, reverse_append, reverse_singleton,
    singleton_append] at hreverse
  unfold concatBytes
  generalize ids.reverse = reversed at hreverse
  cases hreverse with
  | cons hhigh hrest =>
    have hspec := concatFrom_spec hI hC name start more _ 1 _ x hrest (by simpa using hhigh)
      (by decide)
    rw [Nat.add_comm 1 more] at hspec
    exact hspec

end Concatenation

section Symbols

variable {σ : Type} {e : SymbolicEngine σ} {M : OpcodeMeaning} {value : Denotation σ}
  {m : XairModule} {o : FlowOptions} {sources : List ResolvedFlowPoint} {s : Symbols σ}

/-- The key of a byte whose offset and source fit into 32 bits. -/
theorem byteKey_eq {source offset : Nat} (hsource : source < 2 ^ 32) (hoffset : offset < 2 ^ 32) :
    byteKey source offset = source * 2 ^ 32 + offset := by
  have hless : source * 2 ^ 32 < 2 ^ 64 := by omega
  rw [byteKey, Nat.shiftLeft_eq, Nat.mod_eq_of_lt hless, Nat.mul_comm,
    ← Nat.two_pow_add_eq_or_of_lt hoffset]

/-- A symbol that is kept under a key stands for the byte that the key names. -/
def KeptByte (value : Denotation σ) (sources : List ResolvedFlowPoint) (x : σ)
    (kept : Nat × ExprId) : Prop :=
  ∃ source offset point, source < 2 ^ 32 ∧ offset < 2 ^ 32 ∧ kept.1 = byteKey source offset ∧
    sources[source]? = some point ∧ DenotesBytes value x point.selector.name offset 1 kept.2

def Symbols.Kept (value : Denotation σ) (sources : List ResolvedFlowPoint) (s : Symbols σ) : Prop :=
  ∀ kept ∈ s.byteSymbols, KeptByte value sources s.engine kept

theorem KeptByte.mono {x x' : σ} {kept : Nat × ExprId} (h : KeptByte value sources x kept)
    (hx : Extends value x x') : KeptByte value sources x' kept := by
  obtain ⟨source, offset, point, hsource, hoffset, hkey, hpoint, hmeans⟩ := h
  exact ⟨source, offset, point, hsource, hoffset, hkey, hpoint, hx _ _ hmeans⟩

theorem mem_of_lookup {α β : Type} [BEq α] [LawfulBEq α] {k : α} {b : β} {l : List (α × β)}
    (h : l.lookup k = some b) : (k, b) ∈ l := by
  obtain ⟨before, after, rfl, -⟩ := lookup_eq_some_iff.mp h
  simp

/-- What symbolizing some bytes of a source leaves. -/
structure BytesMade (value : Denotation σ) (sources : List ResolvedFlowPoint) (name : Text)
    (offsets : List Nat) (s : Symbols σ) (r : List ExprId × Symbols σ) : Prop where
  keeps : Extends value s.engine r.2.engine
  kept : r.2.Kept value sources
  overrides : r.2.overrides = s.overrides
  each : DenoteEach value r.2.engine name r.1 offsets

/-- The symbols of bytes that fit into 32 bits are those of the bytes. -/
theorem symbolizeBytes_spec (hI : e.Implements M value) (hC : e.Concatenates value)
    {source : Nat} {point : ResolvedFlowPoint} (hpoint : sources[source]? = some point)
    (hsource : source < 2 ^ 32) (offsets : List Nat) (hoffsets : ∀ i ∈ offsets, i < 2 ^ 32)
    (s : Symbols σ) (hkept : s.Kept value sources) :
    BytesMade value sources point.selector.name offsets s
      (symbolizeBytes e point.selector.name source offsets s) := by
  induction offsets generalizing s with
  | nil => exact ⟨Extends.refl, hkept, rfl, .nil⟩
  | cons offset rest ih =>
    have hrest : ∀ i ∈ rest, i < 2 ^ 32 := fun i hi => hoffsets i (mem_cons_of_mem _ hi)
    have hoffset := hoffsets offset mem_cons_self
    unfold symbolizeBytes
    cases hfind : s.byteSymbols.lookup (byteKey source offset) with
    | some symbol =>
      have hspec := ih hrest s hkept
      refine ⟨hspec.keeps, hspec.kept, hspec.overrides, .cons ?_ hspec.each⟩
      obtain ⟨source', offset', point', hsource', hoffset', hkey, hpoint', hmeans⟩ :=
        hkept _ (mem_of_lookup hfind)
      dsimp only at hkey hmeans
      rw [byteKey_eq hsource hoffset, byteKey_eq hsource' hoffset'] at hkey
      obtain rfl : source = source' := by omega
      obtain rfl : offset = offset' := by omega
      rw [hpoint] at hpoint'
      cases hpoint'
      exact hspec.keeps _ _ hmeans
    | none =>
      obtain ⟨symbol, x, hmade⟩ := hC.symbol_made 8
        (point.selector.name ++ "_byte_" ++ decimal offset) s.engine
      have hextends := hI.symbol_extends 8
        (point.selector.name ++ "_byte_" ++ decimal offset) s.engine
      rw [hmade] at hextends
      simp only [hmade]
      have hmeans : DenotesBytes value x point.selector.name offset 1 symbol := by
        rw [DenotesBytes, hI.symbol hmade]
        congr 1
        funext A
        exact sourceWord_one A point.selector.name offset
      have hspec := ih hrest
        { s with
          engine := x, byteSymbols := s.byteSymbols ++ [(byteKey source offset, symbol)] }
        (by
          intro kept hmem
          rcases mem_append.mp hmem with hmem | hmem
          · exact (hkept kept hmem).mono hextends
          · rw [mem_singleton.mp hmem]
            exact ⟨source, offset, point, hsource, hoffset, rfl, hpoint, hmeans⟩)
      exact ⟨hextends.trans hspec.keeps, hspec.kept, hspec.overrides,
        .cons (hspec.keeps _ _ hmeans) hspec.each⟩

/-- A tag whose bytes are made into symbols. -/
def Tag.symbolizable (o : FlowOptions) (sources : List ResolvedFlowPoint) (t : Tag) : Prop :=
  t.source < sources.length ∧ t.bytes = true ∧ t.pointer = false ∧ t.byteCount ≠ 0 ∧
    (o.maxSymbolicBytes = 0 ∨ t.byteCount ≤ o.maxSymbolicBytes)

/-- A tag has the bytes of a load of a value, or more than any expression has. -/
def Tag.fits (m : XairModule) (v : ValueId) (t : Tag) : Prop :=
  8 * t.byteCount = (m.valueType v).bits ∨ 2 ^ 16 ≤ 8 * t.byteCount

/-- The offsets and the source of a tag fit into the halves of a key. -/
def Tag.keyed (t : Tag) : Prop := t.source < 2 ^ 32 ∧ t.stop < 2 ^ 32

instance (m : XairModule) (v : ValueId) (t : Tag) : Decidable (t.fits m v) := by
  unfold Tag.fits
  infer_instance

instance (t : Tag) : Decidable t.keyed := by
  unfold Tag.keyed
  infer_instance

instance (o : FlowOptions) (sources : List ResolvedFlowPoint) (t : Tag) :
    Decidable (t.symbolizable o sources) := by
  unfold Tag.symbolizable
  infer_instance

/-- The expression that a tag lets its value stand for, in some state. -/
def tagExpression (e : SymbolicEngine σ) (o : FlowOptions) (sources : List ResolvedFlowPoint)
    (s : Symbols σ) (t : Tag) : Option ExprId :=
  match sources[t.source]? with
  | none => none
  | some point =>
    if t.symbolizable o sources then
      let (bytes, s) :=
        symbolizeBytes e point.selector.name t.source (List.range' t.start t.byteCount) s
      (concatBytes e bytes s.engine).1
    else none

/-- The override of a tag is what a load of the value reads from the source, from the
first byte of the tag on. -/
def InstallsLoad (e : SymbolicEngine σ) (m : XairModule) (o : FlowOptions)
    (value : Denotation σ) (sources : List ResolvedFlowPoint) (s : Symbols σ)
    (load : ValueId × Tag) : Prop :=
  ∀ id, tagExpression e o sources s load.2 = some id → ∃ point,
    sources[load.2.source]? = some point ∧
      value (symbolizeTag e o sources load.1 s load.2).engine id =
        some (fun A => sourceLoad A point.selector.name load.2.start (m.valueType load.1).bits)

variable {t : Tag}

/-- The guard of the source lets a tag through whose bytes are made into symbols. -/
theorem Tag.symbolizable.guard (h : t.symbolizable o sources) :
    ¬ (t.bytes = false ∨ t.pointer = true ∨ t.byteCount = 0 ∨
      (o.maxSymbolicBytes ≠ 0 ∧ o.maxSymbolicBytes < t.byteCount)) := by
  obtain ⟨-, hbytes, hpointer, hcount, hmax⟩ := h
  rintro (hb | hp | hc | ⟨hm, hlt⟩)
  · rw [hbytes] at hb
    cases hb
  · rw [hpointer] at hp
    cases hp
  · exact hcount hc
  · rcases hmax with hmax | hmax
    · exact hm hmax
    · omega

variable {v : ValueId}

/-- A tag of which no bytes are made into symbols changes nothing. -/
theorem symbolizeTag_skips (h : ¬ t.symbolizable o sources) :
    symbolizeTag e o sources v s t = s ∧ tagExpression e o sources s t = none := by
  unfold symbolizeTag tagExpression
  cases hpoint : sources[t.source]? with
  | none => exact ⟨rfl, rfl⟩
  | some point =>
    have hsource : t.source < sources.length := (List.getElem?_eq_some_iff.mp hpoint).1
    refine ⟨if_pos ?_, if_neg h⟩
    by_contra hnot
    simp only [not_or, not_and, Nat.not_lt] at hnot
    refine h ⟨hsource, by simpa using hnot.1, by simpa using hnot.2.1, hnot.2.2.1, ?_⟩
    by_cases hmax : o.maxSymbolicBytes = 0
    · exact .inl hmax
    · exact .inr (hnot.2.2.2 hmax)

theorem mem_offsets (hstop : t.stop < 2 ^ 32) {i : Nat}
    (hi : i ∈ List.range' t.start t.byteCount) : i < 2 ^ 32 := by
  obtain ⟨k, hk, rfl⟩ := mem_range'.mp hi
  unfold Tag.byteCount at hk
  split at hk <;> omega

theorem symbolizeTag_spec (hI : e.Implements M value) (hC : e.Concatenates value)
    (h : t.symbolizable o sources) (hkeyed : t.keyed) (hkept : s.Kept value sources) :
    ∃ point, sources[t.source]? = some point ∧ (symbolizeTag e o sources v s t).Kept value sources ∧
      (8 * t.byteCount < 2 ^ 16 → ∃ id, tagExpression e o sources s t = some id ∧
        DenotesBytes value (symbolizeTag e o sources v s t).engine point.selector.name t.start
          t.byteCount id) ∧ (2 ^ 16 ≤ 8 * t.byteCount → tagExpression e o sources s t = none) := by
  have hpoint : sources[t.source]? = some (sources.get ⟨t.source, h.1⟩) :=
    getElem?_eq_getElem h.1
  generalize sources.get ⟨t.source, h.1⟩ = point at hpoint
  refine ⟨point, hpoint, ?_⟩
  have hmade := symbolizeBytes_spec hI hC hpoint hkeyed.1 (List.range' t.start t.byteCount)
    (fun i hi => mem_offsets hkeyed.2 hi) s hkept
  have hconcat := concatBytes_spec hI hC h.2.2.2.1 hmade.each
  unfold symbolizeTag tagExpression
  simp only [hpoint, if_neg h.guard, if_pos h]
  obtain ⟨hkeeps, hshort, hlong⟩ := hconcat
  refine ⟨?_, ?_, hlong⟩
  · split <;> exact fun kept hk => (hmade.kept kept hk).mono hkeeps
  intro hwidth
  obtain ⟨id, hid, hmeans⟩ := hshort hwidth
  refine ⟨id, hid, ?_⟩
  simp only [hid]
  exact hmeans

/-- The override of a tag is right exactly when the tag has the bytes of the load. -/
theorem installsLoad_iff (hI : e.Implements M value) (hC : e.Concatenates value)
    (hkeyed : t.symbolizable o sources → t.keyed) (hkept : s.Kept value sources) :
    InstallsLoad e m o value sources s (v, t) ↔ (t.symbolizable o sources → t.fits m v) := by
  by_cases h : t.symbolizable o sources
  · obtain ⟨point, hpoint, -, hshort, hlong⟩ := symbolizeTag_spec (v := v) hI hC h (hkeyed h) hkept
    by_cases hwidth : 8 * t.byteCount < 2 ^ 16
    · obtain ⟨id, hid, hmeans⟩ := hshort hwidth
      constructor
      · intro hinstalls _
        obtain ⟨point', hpoint', hload⟩ := hinstalls id hid
        have hsame := congrFun (Option.some.inj (hmeans.symm.trans hload)) zeroAssignment
        exact .inl (congrArg Word.width hsame)
      intro hfits id' hid'
      rw [hid] at hid'
      cases hid'
      rcases hfits h with hbits | hlarge
      · refine ⟨point, hpoint, ?_⟩
        rw [← hbits]
        simp only [sourceLoad_eq]
        exact hmeans
      · omega
    · rw [Nat.not_lt] at hwidth
      constructor
      · exact fun _ _ => .inr hwidth
      · intro _ id hid
        rw [hlong hwidth] at hid
        cases hid
  · constructor
    · exact fun _ h' => absurd h' h
    · intro _ id hid
      rw [(symbolizeTag_skips (e := e) (s := s) (v := v) h).2] at hid
      cases hid

/-- The tags of one value, if it is loaded. -/
def valueTags (m : XairModule) (tags : Tags) (v : ValueId) : List (ValueId × Tag) :=
  match m.definingOp v with
  | some (_, op) => if op.opcode = .load then (tags.of v).map (fun t => (v, t)) else []
  | none => []

/-- The loaded values with their tags, in the order in which they are gone through. -/
def loadTags (m : XairModule) (tags : Tags) : List (ValueId × Tag) :=
  (List.range m.valueCount).flatMap (valueTags m tags)

/-- The symbols after some loads. -/
def symbolizeLoads (e : SymbolicEngine σ) (o : FlowOptions) (sources : List ResolvedFlowPoint)
    (s : Symbols σ) (loads : List (ValueId × Tag)) : Symbols σ :=
  loads.foldl (fun s load => symbolizeTag e o sources load.1 s load.2) s

/-- Every override that is installed for a loaded value is what the load reads. -/
def EveryOverrideLoads (e : SymbolicEngine σ) (m : XairModule) (o : FlowOptions)
    (value : Denotation σ) (sources : List ResolvedFlowPoint) (tags : Tags) (s : Symbols σ) :
    Prop :=
  ∀ before load after, loadTags m tags = before ++ load :: after →
    InstallsLoad e m o value sources (symbolizeLoads e o sources s before) load

theorem symbolizeLoads_kept (hI : e.Implements M value) (hC : e.Concatenates value)
    (loads : List (ValueId × Tag))
    (hkeyed : ∀ load ∈ loads, load.2.symbolizable o sources → load.2.keyed)
    (hkept : s.Kept value sources) : (symbolizeLoads e o sources s loads).Kept value sources := by
  induction loads generalizing s with
  | nil => exact hkept
  | cons load rest ih =>
    refine ih (fun l hl => hkeyed l (mem_cons_of_mem _ hl)) ?_
    by_cases h : load.2.symbolizable o sources
    · obtain ⟨_, _, hnext, _⟩ := symbolizeTag_spec (v := load.1) hI hC h
        (hkeyed load mem_cons_self h) hkept
      exact hnext
    · change (symbolizeTag e o sources load.1 s load.2).Kept value sources
      rw [(symbolizeTag_skips h).1]
      exact hkept

/-- The symbols of the sources that are no memory. -/
def scalarSymbols (e : SymbolicEngine σ) (m : XairModule) (sources : List ResolvedFlowPoint)
    (x : σ) : Symbols σ :=
  sources.zipIdx.foldl (symbolizeSource e m) { engine := x }

theorem symbolizeLoad_valueTags (e : SymbolicEngine σ) (m : XairModule) (o : FlowOptions)
    (sources : List ResolvedFlowPoint) (tags : Tags) (s : Symbols σ) (v : ValueId) :
    symbolizeLoad e m o sources tags s v = symbolizeLoads e o sources s (valueTags m tags v) := by
  unfold symbolizeLoad symbolizeLoads valueTags
  cases m.definingOp v with
  | none => rfl
  | some found =>
    dsimp only
    split
    · rw [foldl_map]
    · rfl

/-- `symbolize` goes through the tags of the loaded values, after the sources that are no
memory, and records the bytes. -/
theorem symbolize_loads (e : SymbolicEngine σ) (m : XairModule) (o : FlowOptions)
    (sources : List ResolvedFlowPoint) (tags : Tags) (x : σ) :
    symbolize e m o sources tags x =
      let s := symbolizeLoads e o sources (scalarSymbols e m sources x) (loadTags m tags)
      { s with
        records := s.records ++ (List.range sources.length).filterMap (byteRecord s.byteSymbols) } := by
  have hloads : ∀ (values : List ValueId) (s : Symbols σ),
      values.foldl (symbolizeLoad e m o sources tags) s =
        symbolizeLoads e o sources s (values.flatMap (valueTags m tags)) := by
    intro values
    induction values with
    | nil => exact fun _ => rfl
    | cons v rest ih =>
      intro s
      rw [foldl_cons, ih, symbolizeLoad_valueTags, flatMap_cons]
      exact foldl_append.symm
  unfold symbolize
  dsimp only
  rw [hloads]
  rfl

theorem symbolizeValue_bytes (e : SymbolicEngine σ) (m : XairModule) (name : Text)
    (s : Symbols σ × Option ExprId) (v : ValueId) :
    (symbolizeValue e m name s v).1.byteSymbols = s.1.byteSymbols := by
  unfold symbolizeValue
  dsimp only
  split
  · rfl
  · split <;> rfl

theorem symbolizeSource_bytes (e : SymbolicEngine σ) (m : XairModule) (s : Symbols σ)
    (point : ResolvedFlowPoint × Nat) :
    (symbolizeSource e m s point).byteSymbols = s.byteSymbols := by
  have hvalues : (point.1.values.foldl (symbolizeValue e m point.1.selector.name)
      (s, none)).1.byteSymbols = s.byteSymbols :=
    List.foldlRecOn (motive := fun r => r.1.byteSymbols = s.byteSymbols) point.1.values _ rfl
      (fun r hr v _ => (symbolizeValue_bytes e m _ r v).trans hr)
  unfold symbolizeSource
  split
  · rfl
  · dsimp only
    split <;> exact hvalues

theorem scalarSymbols_bytes (e : SymbolicEngine σ) (m : XairModule)
    (sources : List ResolvedFlowPoint) (x : σ) : (scalarSymbols e m sources x).byteSymbols = [] :=
  List.foldlRecOn (motive := fun s : Symbols σ => s.byteSymbols = []) sources.zipIdx _ rfl
    (fun s hs point _ => (symbolizeSource_bytes e m s point).trans hs)

/-- As long as offsets and sources fit into their halves of a key, the overrides of loaded
values are what the loads read exactly when every tag that is made into symbols has the
bytes of its load. -/
theorem everyOverrideLoads_iff (hI : e.Implements M value) (hC : e.Concatenates value)
    (m : XairModule) (o : FlowOptions) (sources : List ResolvedFlowPoint) (tags : Tags) (x : σ)
    (hkeyed : ∀ load ∈ loadTags m tags, load.2.symbolizable o sources → load.2.keyed) :
    EveryOverrideLoads e m o value sources tags (scalarSymbols e m sources x) ↔
      ∀ load ∈ loadTags m tags, load.2.symbolizable o sources → load.2.fits m load.1 := by
  have hkept : (scalarSymbols e m sources x).Kept value sources := by
    intro kept hmem
    rw [scalarSymbols_bytes] at hmem
    cases hmem
  have hstep (before : List (ValueId × Tag)) (load : ValueId × Tag) (after)
      (hsplit : loadTags m tags = before ++ load :: after) :
      InstallsLoad e m o value sources
          (symbolizeLoads e o sources (scalarSymbols e m sources x) before) load ↔
        (load.2.symbolizable o sources → load.2.fits m load.1) :=
    installsLoad_iff hI hC (hkeyed load (by simp [hsplit]))
      (symbolizeLoads_kept hI hC before
        (fun l hl => hkeyed l (by simp [hsplit, hl])) hkept)
  constructor
  · intro h load hload
    obtain ⟨before, after, hsplit⟩ := append_of_mem hload
    exact (hstep before load after hsplit).mp (h before load after hsplit)
  · intro h before load after hsplit
    exact (hstep before load after hsplit).mpr (h load (by simp [hsplit]))

end Symbols

theorem plainEngine_concatenates : plainEngine.Concatenates plainValue where
  symbol_made _ _ _ := ⟨_, _, rfl⟩
  concat_made {a b x w w' p q} hw hw' hp hq := by
    have ha : x[a]? = some w := hw
    have hb : x[b]? = some w' := hw'
    refine ⟨x.length, x ++ [fun A => plainMeaning.binary .concat (p + q) (w A) (w' A)], ?_⟩
    simp only [plainEngine, ha, hb, Option.bind_some, plainBinary, hp, hq, ne_eq,
      not_true_eq_false, and_false, if_false, Meanings.build]
  concat_refused {bits a b x w w' p q id x'} hw hw' hp hq h := by
    have ha : x[a]? = some w := hw
    have hb : x[b]? = some w' := hw'
    by_contra hne
    simp [plainEngine, ha, hb, plainBinary, hp, hq, Ne.symm hne, Meanings.build] at h

/-- A load of some bits. -/
def loadModule (bits : Nat) : XairModule where
  values := [{ type := { bits := bits }, definition := some 0 }]
  ops := [{ opcode := .load, results := [0] }]
  blocks := []
  opcodeName := fun _ => []

/-- A buffer of two bytes. -/
def twoBytes : List ResolvedFlowPoint :=
  [{ selector := { name := "buf", kind := .buffer, length := 2 } }]

/-- The tag of a load at the beginning of the buffer, which ends with the buffer. -/
def twoByteTag : Tag := { source := 0, bytes := true, exactOffset := true, start := 0, stop := 1 }

def twoByteTags : Tags := fun v => if v = 0 then some [twoByteTag] else none

/-- A load of two bytes stands for both bytes of the buffer. -/
theorem two_byte_load : EveryOverrideLoads plainEngine (loadModule 16) {} plainValue twoBytes
    twoByteTags (scalarSymbols plainEngine (loadModule 16) twoBytes []) := by
  have htags : loadTags (loadModule 16) twoByteTags = [(0, twoByteTag)] := rfl
  refine (everyOverrideLoads_iff plainEngine_implements plainEngine_concatenates (loadModule 16) {}
    twoBytes twoByteTags [] ?_).mpr ?_
  · intro load hload _
    rw [htags] at hload
    rw [mem_singleton.mp hload]
    decide
  intro load hload _
  rw [htags] at hload
  rw [mem_singleton.mp hload]
  exact .inl rfl

/-- A load of four bytes at the beginning of the buffer stands for sixteen bits. -/
theorem four_byte_load :
    ¬ ∀ (σ : Type) (e : SymbolicEngine σ) (M : OpcodeMeaning) (value : Denotation σ)
      (m : XairModule) (o : FlowOptions) (sources : List ResolvedFlowPoint) (tags : Tags) (x : σ),
      e.Implements M value → e.Concatenates value →
        EveryOverrideLoads e m o value sources tags (scalarSymbols e m sources x) := by
  intro h
  have hload := h Meanings plainEngine plainMeaning plainValue (loadModule 32) {} twoBytes
    twoByteTags [] plainEngine_implements plainEngine_concatenates [] (0, twoByteTag) [] rfl
  have hfits := (installsLoad_iff plainEngine_implements plainEngine_concatenates
    (fun _ => by decide) (fun kept hkept => by cases hkept)).mp hload (by decide)
  exact absurd hfits (by decide)

end Airece
