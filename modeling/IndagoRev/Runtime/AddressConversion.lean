import IndagoRev.Runtime.AddressMapping

/-!
# Addresses convert both ways

Where the ranges of the modules are disjoint, the location of an address and the selector
of its module are inverse to each other, without any overflow, when the session's own
artifact does not keep the module from being taken.  A selector never leads out of the
module that it takes.
-/

namespace Indago

open StdText JsonValues Transactions Indago.Runtime List

theorem hexDigit_lower : ∀ c ∈ "0123456789abcdef".toList,
    (c.isDigit || ('a' ≤ c && c ≤ 'f') || ('A' ≤ c && c ≤ 'F')) = true ∧
      (if ('A' ≤ c && c ≤ 'F') = true then c.toNat - 'A'.toNat + 10 else hexDigit c) =
        hexDigit c := by
  decide

theorem fold_hexDigits {digits : Text} (h : ∀ c ∈ digits, c ∈ "0123456789abcdef".toList)
    (start : Nat) : digits.foldl (fun n c => 16 * n +
      (if ('A' ≤ c && c ≤ 'F') = true then c.toNat - 'A'.toNat + 10 else hexDigit c)) start =
        digits.foldl (fun n c => 16 * n + hexDigit c) start := by
  induction digits generalizing start with
  | nil => rfl
  | cons c rest ih =>
    rw [foldl_cons, foldl_cons, (hexDigit_lower c (h c mem_cons_self)).2]
    exact ih (fun d hd => h d (mem_cons_of_mem _ hd)) _

@[simp] theorem runtimeNumber_hexAddress (n : UInt64) :
    runtimeNumber (.str (hexAddress n)) = .ok n := by
  have hdigits : ∀ c ∈ hexDigits n.toNat, c ∈ "0123456789abcdef".toList := fun c hc =>
    mem_hexDigits hc
  have hvalue : (hexDigits n.toNat).foldl (fun n c => 16 * n +
      (if ('A' ≤ c && c ≤ 'F') = true then c.toNat - 'A'.toNat + 10 else hexDigit c)) 0 =
        n.toNat := by
    rw [fold_hexDigits hdigits]
    exact ofHex_hexDigits n.toNat
  have hne : hexDigits n.toNat ≠ [] := Nat.toDigits_ne_nil
  have hall : (hexDigits n.toNat).all (fun c =>
      c.isDigit || ('a' ≤ c && c ≤ 'f') || ('A' ≤ c && c ≤ 'F')) = true :=
    all_eq_true.mpr (fun c hc => (hexDigit_lower c (hdigits c hc)).1)
  have hread : fromChars true (hexDigits n.toNat) = some n := by
    unfold fromChars
    simp only [if_true]
    rw [hvalue, if_pos ⟨hne, hall, n.toNat_lt⟩, UInt64.ofNat_toNat]
  have hstarts : startsWith "0x" (hexAddress n) = true := rfl
  have hdrop : (hexAddress n).drop 2 = hexDigits n.toNat := rfl
  simp only [runtimeNumber, hstarts, if_true, hdrop, hread]

variable {session : AddressedSession} {address : UInt64} {m : RuntimeModule}

/-- A module that an address is mapped by: it has a hash and an image, and the address in
the file does not overflow. -/
structure RuntimeModule.Maps (m : RuntimeModule) (address : UInt64) (artifact : Text)
    (preferred : UInt64) : Prop where
  contains : m.contains address = true
  artifact : m.artifact = some artifact
  image : m.imageBase = some preferred
  fits : preferred ≤ 0xffffffffffffffff - (address - m.base)

/-- What is said of an address that is mapped. -/
structure AddressLocation.Of (l : AddressLocation) (m : RuntimeModule) (address : UInt64)
    (artifact : Text) (preferred : UInt64) : Prop where
  mapped : l.mapped = true
  moduleId : l.moduleId = some m.id
  artifact : l.artifact = some artifact
  rva : l.rva = some (hexAddress (address - m.base))
  address : l.address = some (hexAddress (preferred + (address - m.base)))

variable {modules : List RuntimeModule} {l : AddressLocation}

theorem locate_mapped (hl : l.mapped = false) (h : (locate address modules l).mapped = true) :
    ∃ m ∈ modules, ∃ artifact preferred, m.Maps address artifact preferred ∧
      (locate address modules l).Of m address artifact preferred := by
  induction modules generalizing l with
  | nil =>
    rw [locate, hl] at h
    cases h
  | cons m rest ih =>
    have hlater : ∀ l', l'.mapped = false → (locate address rest l').mapped = true →
        ∃ m' ∈ m :: rest, ∃ artifact preferred, m'.Maps address artifact preferred ∧
          (locate address rest l').Of m' address artifact preferred := by
      intro l' hl' h'
      obtain ⟨m', hm', hmaps⟩ := ih hl' h'
      exact ⟨m', mem_cons_of_mem _ hm', hmaps⟩
    unfold locate at h ⊢
    split at h
    · next hout =>
        rw [if_pos hout]
        exact hlater l hl h
    next hin =>
      rw [if_neg hin]
      dsimp only at h ⊢
      split at h
      · next artifact preferred hartifact himage =>
          split at h
          · next hover =>
              rw [if_pos hover]
              exact hlater _ hl h
          next hfits =>
            rw [if_neg hfits]
            refine ⟨m, mem_cons_self, artifact, preferred, ?_, ⟨rfl, rfl, rfl, rfl, rfl⟩⟩
            exact ⟨(Bool.not_eq_false _).mp hin, hartifact, himage, UInt64.not_lt.mp hfits⟩
      · exact hlater _ hl h

theorem locate_named
    (hl : l.moduleId.isSome = true) : (locate address modules l).moduleId.isSome = true := by
  induction modules generalizing l with
  | nil => exact hl
  | cons m rest ih =>
    unfold locate
    split
    · exact ih hl
    dsimp only
    split
    · split
      · exact ih rfl
      · rfl
    · exact ih rfl

theorem locate_unnamed (h : (locate address modules l).moduleId = none) (hm : m ∈ modules) :
    m.contains address = false := by
  induction modules generalizing l with
  | nil => cases hm
  | cons first rest ih =>
    have hsome : ∀ l', (locate address rest l').moduleId = none → l'.moduleId.isSome = false := by
      intro l' h'
      cases hnamed : l'.moduleId.isSome with
      | false => rfl
      | true =>
        have hstays : (locate address rest l').moduleId.isSome = true := locate_named hnamed
        rw [h'] at hstays
        cases hstays
    unfold locate at h
    split at h
    · next hout =>
        rcases mem_cons.mp hm with rfl | hrest
        · exact hout
        · exact ih h hrest
    dsimp only at h
    split at h
    · split at h
      · cases hsome _ h
      · cases h
    · cases hsome _ h

variable {artifact : Text} {preferred : UInt64}

/-- Where ranges are disjoint, the module that maps an address is the one it is located in. -/
theorem locate_of_maps (hm : m ∈ modules) (hmaps : m.Maps address artifact preferred)
    (hunique : ∀ m' ∈ modules, m'.contains address = true → m' = m) :
    (locate address modules l).Of m address artifact preferred := by
  induction modules generalizing l with
  | nil => cases hm
  | cons first rest ih =>
    have hlater : ∀ m' ∈ rest, m'.contains address = true → m' = m :=
      fun m' hm' => hunique m' (mem_cons_of_mem _ hm')
    unfold locate
    split
    · next hout =>
        rcases mem_cons.mp hm with rfl | hrest
        · rw [hmaps.contains] at hout
          cases hout
        · exact ih hrest hlater
    · next hin =>
        have hfirst := hunique first mem_cons_self ((Bool.not_eq_false _).mp hin)
        subst hfirst
        rw [hmaps.artifact, hmaps.image]
        dsimp only
        rw [if_neg (UInt64.not_lt.mpr hmaps.fits)]
        exact ⟨rfl, rfl, rfl, rfl, rfl⟩

section Found

variable {α β : Type} {f : α → Except String (Option β)} {l : List α}

theorem mapM_nothing (h : ∀ a ∈ l, f a = .ok none) :
    ∃ found, l.mapM f = .ok found ∧ found.reduceOption = [] := by
  induction l with
  | nil => exact ⟨[], rfl, rfl⟩
  | cons a rest ih =>
    obtain ⟨found, hfound, hnone⟩ := ih (fun a ha => h a (mem_cons_of_mem _ ha))
    refine ⟨none :: found, ?_, ?_⟩
    · rw [mapM_cons, h a mem_cons_self, hfound]
      rfl
    · rw [reduceOption_cons_of_none, hnone]

theorem mapM_one {l before after : List α} {a : α} {b : β} (hl : l = before ++ a :: after)
    (ha : f a = .ok (some b)) (hothers : ∀ a' ∈ before ++ after, f a' = .ok none) :
    ∃ found, l.mapM f = .ok found ∧ found.reduceOption = [b] := by
  subst hl
  obtain ⟨first, hfirst, hnone⟩ := mapM_nothing (fun a' ha' => hothers a' (mem_append_left _ ha'))
  obtain ⟨last, hlast, hnone'⟩ := mapM_nothing (fun a' ha' => hothers a' (mem_append_right _ ha'))
  refine ⟨first ++ some b :: last, ?_, ?_⟩
  · rw [mapM_append, hfirst, mapM_cons, ha, hlast]
    rfl
  · rw [reduceOption_append, hnone, reduceOption_cons_of_some, hnone', nil_append]

variable {found : List (Option β)}

theorem nothing_of_mapM (h : l.mapM f = .ok found)
    (hnone : found.reduceOption = []) : ∀ a ∈ l, f a = .ok none := by
  intro a ha
  obtain ⟨b, hb, hok⟩ := forall₂_mem_left (except_mapM_ok l h) ha
  cases b with
  | none => exact hok
  | some b =>
    have hmem := reduceOption_mem_iff.mpr hb
    rw [hnone] at hmem
    cases hmem

theorem one_of_mapM {b : β} (h : l.mapM f = .ok found)
    (hone : found.reduceOption = [b]) : ∃ before a after, l = before ++ a :: after ∧
      f a = .ok (some b) ∧ ∀ a' ∈ before ++ after, f a' = .ok none := by
  induction l generalizing found with
  | nil =>
    cases h
    cases hone
  | cons a rest ih =>
    simp only [mapM_cons, except_bind_ok] at h
    obtain ⟨first, hfirst, later, hlater, h⟩ := h
    cases h
    cases first with
    | none =>
      rw [reduceOption_cons_of_none] at hone
      obtain ⟨before, a', after, hsplit, ha', hothers⟩ := ih hlater hone
      refine ⟨a :: before, a', after, by rw [hsplit, cons_append], ha', ?_⟩
      intro x hx
      rcases mem_cons.mp hx with rfl | hx
      · exact hfirst
      · exact hothers x hx
    | some b' =>
      rw [reduceOption_cons_of_some] at hone
      obtain ⟨rfl, hnone⟩ := List.cons.inj hone
      exact ⟨[], a, rest, rfl, hfirst, nothing_of_mapM hlater hnone⟩

end Found

theorem toNat_max_sub (n : UInt64) :
    (0xffffffffffffffff - n).toNat = 18446744073709551615 - n.toNat := by
  have hless := n.toNat_lt
  refine UInt64.toNat_sub_of_le _ _ ?_
  rw [UInt64.le_iff_toNat_le]
  show n.toNat ≤ 18446744073709551615
  omega

theorem toNat_add_of_fits {base offset : UInt64} (h : base ≤ 0xffffffffffffffff - offset) :
    (base + offset).toNat = base.toNat + offset.toNat := by
  rw [UInt64.le_iff_toNat_le, toNat_max_sub] at h
  have hless := offset.toNat_lt
  rw [UInt64.toNat_add]
  refine Nat.mod_eq_of_lt ?_
  omega

theorem contains_add {size rva : UInt64} (hsize : m.size = some size) (hless : rva < size)
    (hfits : m.base ≤ 0xffffffffffffffff - rva) : m.contains (m.base + rva) = true := by
  have hback : m.base + rva - m.base = rva := by
    rw [UInt64.add_comm, UInt64.add_sub_cancel]
  unfold RuntimeModule.contains
  rw [hsize, hback, Bool.and_eq_true, decide_eq_true_eq, decide_eq_true_eq,
    UInt64.le_iff_toNat_le, toNat_add_of_fits hfits]
  exact ⟨Nat.le_add_right _ _, hless⟩

variable {selector : AddressRequest}

/-- An address that a selector has in a module lies in it, and was put together without
overflow. -/
theorem addressIn_some {found : UInt64} (h : addressIn session selector m = .ok (some found)) :
    takesModule session selector m = true ∧ m.contains found = true ∧
      ∃ rva : UInt64, found.toNat = m.base.toNat + rva.toNat := by
  unfold addressIn at h
  split at h
  · cases h
  next htakes =>
    refine ⟨(Bool.not_eq_false _).mp htakes, ?_⟩
    split at h
    · cases h
    next preferred himage =>
      rw [except_bind_ok] at h
      obtain ⟨value, -, h⟩ := h
      by_cases hskip : selector.rva.isNone ∧ value < preferred
      · rw [if_pos hskip] at h
        cases h
      rw [if_neg hskip] at h
      dsimp only at h
      generalize (if selector.rva.isSome = true then value else value - preferred) = rva at h
      cases hsize : m.size with
      | none =>
        rw [hsize] at h
        cases h
      | some size =>
        rw [hsize] at h
        dsimp only at h
        by_cases hin : rva < size ∧ m.base ≤ 0xffffffffffffffff - rva
        · rw [if_pos hin] at h
          cases h
          exact ⟨contains_add hsize hin.1 hin.2, rva, toNat_add_of_fits hin.2⟩
        · rw [if_neg hin] at h
          cases h

variable {functionLocation : Text → Except String (Json × Text)} {r : AddressRequest}
variable {found : UInt64}

theorem selector_module
    (h : r.selector functionLocation = .ok selector) : selector.module = r.module := by
  unfold AddressRequest.selector at h
  split at h
  · cases h
    rfl
  rw [except_bind_ok] at h
  obtain ⟨⟨address, artifact⟩, -, h⟩ := h
  cases h
  rfl

/-- A selector that is resolved takes one module, and no other has an address for it. -/
theorem resolveAddress_ok (hr : r.address = none)
    (h : resolveAddress functionLocation session r = .ok found) :
    ∃ selector, r.selector functionLocation = .ok selector ∧
      ∃ before m after, session.modules = before ++ m :: after ∧
        addressIn session selector m = .ok (some found) ∧
        ∀ m' ∈ before ++ after, addressIn session selector m' = .ok none := by
  unfold resolveAddress at h
  rw [hr] at h
  dsimp only at h
  rw [except_bind_ok] at h
  obtain ⟨selector, hselector, h⟩ := h
  refine ⟨selector, hselector, ?_⟩
  split at h
  · cases h
  rw [except_bind_ok] at h
  obtain ⟨all, hall, h⟩ := h
  split at h
  · next address hone =>
      cases h
      exact one_of_mapM hall hone
  · cases h

/-- The selectors that a location gives: its module with the address in the file, or with
the offset. -/
def byStatic (id va : Text) : AddressRequest :=
  { module := some id, staticAddress := some (.str va) }

def byRva (id rva : Text) : AddressRequest := { module := some id, rva := some (.str rva) }

/-- A selector of a module that has an address for it is resolved to that. -/
theorem resolveAddress_module (hm : m ∈ session.modules) (hmodule : r.module = some m.id)
    (haddress : r.address = none) (hfunction : r.function = none)
    (hgiven : ¬ (r.staticAddress.isNone ∧ r.rva.isNone))
    (hin : addressIn session r m = .ok (some found)) :
    resolveAddress functionLocation session r = .ok found := by
  obtain ⟨before, after, hsplit⟩ := append_of_mem hm
  have hothers : ∀ m' ∈ before ++ after, addressIn session r m' = .ok none := by
    intro m' hm'
    have hne : m'.id ≠ m.id := by
      have hids := session.ids
      rw [hsplit, (perm_middle.map RuntimeModule.id).nodup_iff, map_cons,
        nodup_cons] at hids
      exact fun hsame => hids.1 (hsame ▸ mem_map_of_mem hm')
    have htakes : takesModule session r m' = false := by
      unfold takesModule
      rw [hmodule]
      simp [Ne.symm hne]
    unfold addressIn
    rw [if_pos htakes]
  obtain ⟨all, hall, hone⟩ := mapM_one hsplit hin hothers
  unfold resolveAddress
  rw [haddress]
  dsimp only
  unfold AddressRequest.selector
  rw [hfunction]
  simp only [bind, Except.bind]
  rw [if_neg hgiven]
  simp only [hall, hone]
  rfl

/-- Between a session's own artifact and a module's, where the selector names none. -/
def AddressedSession.admits (session : AddressedSession) (artifact : Text) : Prop :=
  session.artifact.getD [] = [] ∨ session.artifact.getD [] = artifact

theorem takesModule_iff (hartifact : m.artifact = some artifact)
    (hmodule : r.module = some m.id) (hnone : r.artifact = none) :
    takesModule session r m = true ↔ session.admits artifact := by
  unfold takesModule AddressedSession.admits
  rw [hmodule, hnone, hartifact]
  simp only [Option.isNone_some, decide_true, Bool.false_or, Bool.true_and, Option.getD_none,
    Option.getD_some, Bool.or_eq_true, List.isEmpty_iff, decide_eq_true_eq]
  rw [eq_comm (a := artifact)]

theorem RuntimeModule.Maps.offset
    (h : m.Maps address artifact preferred) : ∃ size, m.size = some size ∧
      address - m.base < size ∧ m.base ≤ 0xffffffffffffffff - (address - m.base) ∧
      m.base + (address - m.base) = address ∧
      m.base.toNat + (address - m.base).toNat = address.toNat := by
  have hcontains := h.contains
  unfold RuntimeModule.contains at hcontains
  rw [Bool.and_eq_true, decide_eq_true_eq, decide_eq_true_eq] at hcontains
  obtain ⟨hle, hless⟩ := hcontains
  have hsub := UInt64.toNat_sub_of_le _ _ hle
  have hle' := UInt64.le_iff_toNat_le.mp hle
  have hmax := address.toNat_lt
  cases hsize : m.size with
  | none =>
    rw [hsize, Option.getD_none] at hless
    exact absurd hless (UInt64.not_lt_zero)
  | some size =>
    rw [hsize, Option.getD_some] at hless
    refine ⟨size, rfl, hless, ?_, ?_, by omega⟩
    · rw [UInt64.le_iff_toNat_le, toNat_max_sub, hsub]
      omega
    · rw [UInt64.add_comm, UInt64.sub_add_cancel]

/-- Both selectors of a location have its address in the module, if they take it. -/
theorem addressIn_back (h : m.Maps address artifact preferred) (hadmits : session.admits artifact) :
    addressIn session (byStatic m.id (hexAddress (preferred + (address - m.base)))) m =
        .ok (some address) ∧
      addressIn session (byRva m.id (hexAddress (address - m.base))) m = .ok (some address) := by
  obtain ⟨size, hsize, hless, hfits, hsum, -⟩ := h.offset
  have hstatic := (takesModule_iff (r := byStatic m.id (hexAddress (preferred + (address - m.base))))
    h.artifact rfl rfl).mpr hadmits
  have hrva := (takesModule_iff (r := byRva m.id (hexAddress (address - m.base)))
    h.artifact rfl rfl).mpr hadmits
  have hnot : ¬ preferred + (address - m.base) < preferred := by
    rw [UInt64.lt_iff_toNat_lt, toNat_add_of_fits h.fits]
    omega
  have hback : preferred + (address - m.base) - preferred = address - m.base := by
    rw [UInt64.add_comm, UInt64.add_sub_cancel]
  constructor
  · unfold addressIn
    rw [if_neg (by rw [hstatic]; exact Bool.noConfusion), h.image]
    simp only [byStatic, Option.none_or, Option.getD_some, runtimeNumber_hexAddress, bind,
      Except.bind, Option.isNone_none, Option.isSome_none, true_and, hnot, if_false, Bool.false_eq_true, hback, hsize,
      hless, hfits, and_self, if_true, hsum]
    rfl
  · unfold addressIn
    rw [if_neg (by rw [hrva]; exact Bool.noConfusion), h.image]
    simp only [byRva, Option.some_or, Option.getD_some, runtimeNumber_hexAddress, bind,
      Except.bind, Option.isNone_some, Option.isSome_some, hsize, hless,
      hfits, and_self, if_true, hsum]
    rfl

/-- An address converts both ways: its location leads back to it and nothing wraps around,
no selector of a module leads to an address outside of all modules, and every selector
leads into the one module that it matches. -/
structure Converts (functionLocation : Text → Except String (Json × Text))
    (session : AddressedSession) (address : UInt64) : Prop where
  back : (location session address).mapped = true → ∀ id va rva,
    (location session address).moduleId = some id →
    (location session address).address = some va → (location session address).rva = some rva →
      resolveAddress functionLocation session (byStatic id va) = .ok address ∧
        resolveAddress functionLocation session (byRva id rva) = .ok address
  exact : (location session address).mapped = true → ∃ m ∈ session.modules, ∃ artifact preferred,
    (location session address).Of m address artifact preferred ∧
      m.base.toNat + (address - m.base).toNat = address.toNat ∧
      (preferred + (address - m.base)).toNat = preferred.toNat + (address - m.base).toNat
  unnamed : (location session address).moduleId = none → ∀ r : AddressRequest, r.address = none →
    r.module.isSome = true → resolveAddress functionLocation session r ≠ .ok address
  inside : ∀ (r : AddressRequest) (found : UInt64), r.address = none →
    resolveAddress functionLocation session r = .ok found →
    ∃ before m after, session.modules = before ++ m :: after ∧ m.contains found = true ∧
      (∀ id, r.module = some id → m.id = id) ∧
      ∃ selector, r.selector functionLocation = .ok selector ∧
        addressIn session selector m = .ok (some found) ∧
        ∀ m' ∈ before ++ after, addressIn session selector m' = .ok none

/-- Modules whose ranges do not meet. -/
def AddressedSession.Disjoint (session : AddressedSession) : Prop :=
  session.modules.Pairwise (fun m m' => ∀ address,
    ¬ (m.contains address = true ∧ m'.contains address = true))

theorem AddressedSession.Disjoint.unique (h : session.Disjoint) {m' : RuntimeModule}
    (hm : m ∈ session.modules) (hm' : m' ∈ session.modules) (hin : m.contains address = true)
    (hin' : m'.contains address = true) : m' = m := by
  by_contra hne
  have : Std.Symm (fun m m' : RuntimeModule => ∀ address,
      ¬ (m.contains address = true ∧ m'.contains address = true)) :=
    ⟨fun _ _ h address hboth => h address hboth.symm⟩
  exact h.forall hm' hm hne address ⟨hin', hin⟩

/-- Addresses convert both ways exactly where the session's own artifact, if it has one, is
that of the module that maps the address. -/
theorem converts_iff (functionLocation : Text → Except String (Json × Text))
    (session : AddressedSession) (address : UInt64) (hdisjoint : session.Disjoint) :
    Converts functionLocation session address ↔
      ∀ m ∈ session.modules, ∀ artifact preferred, m.Maps address artifact preferred →
        session.admits artifact := by
  constructor
  · intro h m hm artifact preferred hmaps
    have hof : (location session address).Of m address artifact preferred :=
      locate_of_maps hm hmaps (fun m' hm' hin => hdisjoint.unique hm hm' hmaps.contains hin)
    have hback := (h.back hof.mapped _ _ _ hof.moduleId hof.address hof.rva).1
    obtain ⟨selector, hselector, before, m', after, hsplit, hin, -⟩ := resolveAddress_ok rfl hback
    cases hselector
    obtain ⟨htakes, hcontains, -⟩ := addressIn_some hin
    have hm' : m' ∈ session.modules := by
      rw [hsplit]
      exact mem_append_right _ mem_cons_self
    have hsame := hdisjoint.unique hm hm' hmaps.contains hcontains
    subst hsame
    exact (takesModule_iff hmaps.artifact rfl rfl).mp htakes
  · intro hadmits
    have hmapped : (location session address).mapped = true → ∃ m ∈ session.modules,
        ∃ artifact preferred, m.Maps address artifact preferred ∧
          (location session address).Of m address artifact preferred :=
      fun h => locate_mapped rfl h
    have hinside : ∀ (r : AddressRequest) (found : UInt64), r.address = none →
        resolveAddress functionLocation session r = .ok found →
        ∃ before m after, session.modules = before ++ m :: after ∧ m.contains found = true ∧
          (∀ id, r.module = some id → m.id = id) ∧
          ∃ selector, r.selector functionLocation = .ok selector ∧
            addressIn session selector m = .ok (some found) ∧
            ∀ m' ∈ before ++ after, addressIn session selector m' = .ok none := by
      intro r found hr hok
      obtain ⟨selector, hselector, before, m, after, hsplit, hin, hothers⟩ :=
        resolveAddress_ok hr hok
      obtain ⟨htakes, hcontains, -⟩ := addressIn_some hin
      refine ⟨before, m, after, hsplit, hcontains, ?_, selector, hselector, hin, hothers⟩
      intro id hid
      unfold takesModule at htakes
      rw [selector_module hselector, hid] at htakes
      simp only [Option.isNone_some, Bool.false_or, Option.some.injEq, Bool.and_eq_true,
        decide_eq_true_eq] at htakes
      exact htakes.1.symm
    refine ⟨?_, ?_, ?_, hinside⟩
    · intro h id va rva hid hva hrva
      obtain ⟨m, hm, artifact, preferred, hmaps, hof⟩ := hmapped h
      rw [hof.moduleId] at hid
      rw [hof.address] at hva
      rw [hof.rva] at hrva
      cases hid
      cases hva
      cases hrva
      obtain ⟨hstatic, hoffset⟩ := addressIn_back hmaps (hadmits m hm artifact preferred hmaps)
      exact ⟨resolveAddress_module hm rfl rfl rfl (fun h => by cases h.1) hstatic,
        resolveAddress_module hm rfl rfl rfl (fun h => by cases h.2) hoffset⟩
    · intro h
      obtain ⟨m, hm, artifact, preferred, hmaps, hof⟩ := hmapped h
      obtain ⟨size, -, -, -, -, hsum⟩ := hmaps.offset
      exact ⟨m, hm, artifact, preferred, hof, hsum, toNat_add_of_fits hmaps.fits⟩
    · intro hnone r hr _ hok
      obtain ⟨before, m, after, hsplit, hcontains, -⟩ := hinside r address hr hok
      have hm : m ∈ session.modules := by
        rw [hsplit]
        exact mem_append_right _ mem_cons_self
      rw [locate_unnamed hnone hm] at hcontains
      cases hcontains

/-- A program with a library, each with an image of its own. -/
def mainModule : RuntimeModule :=
  ⟨"mod_1", 0x400000, some 0x1000, some ['a'], some 0x400000⟩

def libraryModule : RuntimeModule :=
  ⟨"mod_2", 0x7f0000000000, some 0x1000, some ['b'], some 0x180000000⟩

variable (artifact : Option Text)

def loadedSession : AddressedSession :=
  ⟨artifact, [mainModule, libraryModule], by decide⟩

theorem disjoint_loaded : (loadedSession artifact).Disjoint := by
  refine pairwise_pair.mpr ?_
  rintro address ⟨hmain, hlibrary⟩
  unfold RuntimeModule.contains at hmain hlibrary
  rw [Bool.and_eq_true] at hmain hlibrary
  have hle : (0x400000 : UInt64) ≤ address := of_decide_eq_true hmain.1
  have hless : address - 0x400000 < (0x1000 : UInt64) := of_decide_eq_true hmain.2
  have hfar' : (0x7f0000000000 : UInt64) ≤ address := of_decide_eq_true hlibrary.1
  have hsub := UInt64.toNat_sub_of_le _ _ hle
  rw [UInt64.lt_iff_toNat_lt, hsub] at hless
  have hfar := UInt64.le_iff_toNat_le.mp hfar'
  have hmain' : (0x400000 : UInt64).toNat = 0x400000 := rfl
  have hsize : (0x1000 : UInt64).toNat = 0x1000 := rfl
  have hlibrary' : (0x7f0000000000 : UInt64).toNat = 0x7f0000000000 := rfl
  omega

theorem converts_loaded : Converts (fun _ => .error "function identity unavailable")
    (loadedSession none) 0x7f0000000010 :=
  (converts_iff _ (loadedSession none) 0x7f0000000010 (disjoint_loaded none)).mpr
    (fun _ _ _ _ _ => Or.inl rfl)

/-- An address of the library is located in it, and its selector is refused for the sake
of the program's own artifact. -/
theorem library_not_converted : ¬ Converts (fun _ => .error "function identity unavailable")
    (loadedSession (some ['a'])) 0x7f0000000010 := by
  intro h
  have hback := (h.back rfl _ _ _ rfl rfl rfl).1
  revert hback
  decide

end Indago
