import IndagoRev.JsonPointers
import IndagoRev.Workbench.StaticIndex

/-!
# The places of entities

The walk adds an entity at most once for each place of the native result, and its pointer
leads to that place.  Each part of the walk adds only at the places of a set of its own,
so that no two entities have one pointer.  The maps of native ids and block addresses hold
ids of entities alone.
-/

namespace Indago

namespace StaticIndex

open StdText JsonValues JsonPointers Transactions List

variable {sha256 : Text → Text} {truncate : Text → Nat}

section Adds

variable (sha256 : Text → Text) (c : Context)

/-- An entity cites the place at the end of a list of tokens. -/
structure Cites (e : Entity) (ts : List Text) : Prop where
  pointer : e.jsonPointer = pointerText ts
  native : follow c.source.native ts = some e.native
  key : e.key = entityKey c e.jsonPointer
  id : e.id = stableId sha256 "ent" e.key

/-- The maps hold ids of entities. -/
def Named (s : Found) : Prop :=
  ∀ id ∈ s.nativeIds.map Prod.snd ++ s.blockAddresses.map Prod.snd, ∃ e ∈ s.entities, e.id = id

/-- What is new cites places of a set, each at most once. -/
structure Adds (places : List Text → Prop) (s s' : Found) : Prop where
  news : ∃ new, s'.entities = s.entities ++ new ∧ (new.map Entity.jsonPointer).Nodup ∧
    ∀ e ∈ new, ∃ ts, places ts ∧ Cites sha256 c e ts
  named : Named s → Named s'

end Adds

variable {c : Context} {s s' s'' : Found} {P Q : List Text → Prop}

theorem Adds.unchanged (hentities : s'.entities = s.entities)
    (hids : s'.nativeIds = s.nativeIds) (hblocks : s'.blockAddresses = s.blockAddresses) :
    Adds sha256 c P s s' := by
  refine ⟨⟨[], by rw [hentities, append_nil], nodup_nil, ?_⟩, ?_⟩
  · intro e he
    cases he
  intro hnamed
  unfold Named
  rw [hentities, hids, hblocks]
  exact hnamed

theorem Adds.mono (h : Adds sha256 c P s s') (hsub : ∀ ts, P ts → Q ts) : Adds sha256 c Q s s' := by
  obtain ⟨⟨new, hnew, hnodup, hcites⟩, hnamed⟩ := h
  refine ⟨⟨new, hnew, hnodup, ?_⟩, hnamed⟩
  intro e he
  obtain ⟨ts, hts, hcite⟩ := hcites e he
  exact ⟨ts, hsub ts hts, hcite⟩

theorem Adds.trans (h : Adds sha256 c P s s') (h' : Adds sha256 c Q s' s'')
    (hapart : ∀ ts, P ts → ¬ Q ts) : Adds sha256 c (fun ts => P ts ∨ Q ts) s s'' := by
  obtain ⟨⟨new, hnew, hnodup, hcites⟩, hnamed⟩ := h
  obtain ⟨⟨new', hnew', hnodup', hcites'⟩, hnamed'⟩ := h'
  refine ⟨⟨new ++ new', ?_, ?_, ?_⟩, fun hs => hnamed' (hnamed hs)⟩
  · rw [hnew', hnew, append_assoc]
  · rw [map_append, nodup_append]
    refine ⟨hnodup, hnodup', ?_⟩
    intro p hp p' hp' heq
    obtain ⟨e, he, rfl⟩ := mem_map.mp hp
    obtain ⟨e', he', rfl⟩ := mem_map.mp hp'
    obtain ⟨ts, hts, hcite⟩ := hcites e he
    obtain ⟨ts', hts', hcite'⟩ := hcites' e' he'
    rw [hcite.pointer, hcite'.pointer] at heq
    have hsame := pointerText_injective heq
    subst hsame
    exact hapart ts hts hts'
  · intro e he
    rcases mem_append.mp he with hfirst | hsecond
    · obtain ⟨ts, hts, hcite⟩ := hcites e hfirst
      exact ⟨ts, Or.inl hts, hcite⟩
    · obtain ⟨ts, hts, hcite⟩ := hcites' e hsecond
      exact ⟨ts, Or.inr hts, hcite⟩

theorem Adds.foldlM {α : Type} {f : Found → α → Access Found} {places : α → List Text → Prop}
    {l : List α} (hapart : l.Pairwise (fun a b => ∀ ts, places a ts → ¬ places b ts))
    (hstep : ∀ a ∈ l, ∀ s s', f s a = .ok s' → Adds sha256 c (places a) s s')
    (h : l.foldlM f s = .ok s') : Adds sha256 c (fun ts => ∃ a ∈ l, places a ts) s s' := by
  induction l generalizing s with
  | nil =>
    cases h
    exact Adds.unchanged rfl rfl rfl
  | cons a rest ih =>
    rw [foldlM_cons, except_bind_ok] at h
    obtain ⟨mid, hfirst, hrest⟩ := h
    rw [pairwise_cons] at hapart
    have hadds := hstep a mem_cons_self s mid hfirst
    have hadds' := ih hapart.2 (fun b hb => hstep b (mem_cons_of_mem _ hb)) hrest
    refine (hadds.trans hadds' ?_).mono ?_
    · rintro ts hts ⟨b, hb, hts'⟩
      exact hapart.1 b hb ts hts hts'
    · rintro ts (hts | ⟨b, hb, hts⟩)
      · exact ⟨a, mem_cons_self, hts⟩
      · exact ⟨b, mem_cons_of_mem _ hb, hts⟩

theorem withBlock_mem {kind ns entity : Text} {loc : Json} {blocks blocks' : List (Text × Text)}
    (h : withBlock kind ns entity loc blocks = .ok blocks') {id : Text}
    (hid : id ∈ blocks'.map Prod.snd) : id = entity ∨ id ∈ blocks.map Prod.snd := by
  unfold withBlock at h
  split at h
  · rw [except_bind_ok] at h
    obtain ⟨key, -, h⟩ := h
    cases h
    exact mem_cons.mp hid
  · cases h
    exact Or.inr hid

variable {ts : List Text}

theorem add_adds {kind : Text} {item inherited : Json}
    (hitem : follow c.source.native ts = some item)
    (h : add sha256 truncate c kind item (pointerText ts) inherited s = .ok s') :
    Adds sha256 c (fun us => us = ts) s s' := by
  unfold add at h
  split at h
  · cases h
    exact Adds.unchanged rfl rfl rfl
  simp only [except_bind_ok] at h
  obtain ⟨own, -, nativeId, -, name, -, blocks, hblocks, h⟩ := h
  cases h
  refine ⟨⟨[_], rfl, pairwise_singleton _ _, ?_⟩, ?_⟩
  · intro e he
    rw [mem_singleton] at he
    subst he
    exact ⟨ts, rfl, rfl, hitem, rfl, rfl⟩
  intro hnamed id hid
  -- A value of the maps was there before, or is the id of the new entity.
  have hold : id = entityId sha256 c (pointerText ts) ∨
      id ∈ s.nativeIds.map Prod.snd ++ s.blockAddresses.map Prod.snd := by
    rcases mem_append.mp hid with hnative | hblock
    · by_cases hempty : nativeId = []
      · rw [if_pos hempty] at hnative
        exact Or.inr (mem_append_left _ hnative)
      · rw [if_neg hempty] at hnative
        exact (mem_cons.mp hnative).imp_right (mem_append_left _)
    · exact (withBlock_mem hblocks hblock).imp_right (mem_append_right _)
  rcases hold with rfl | hold
  · exact ⟨_, mem_append_right _ (mem_singleton.mpr rfl), rfl⟩
  · obtain ⟨e, he, hid⟩ := hnamed id hold
    exact ⟨e, mem_append_left _ he, hid⟩

variable (backend : Text)

/-- A place whose last keys have a kind for the walk. -/
def Kinded (ts : List Text) : Prop :=
  (∃ before key, ts = before ++ [key] ∧
      (key = "method".toList ∨ key = "function".toList ∨ key = "constants".toList)) ∨
    ∃ before key i, ts = before ++ [key, i] ∧ itemKind backend key ≠ none

/-- The places below one that the walk may add at. -/
def Below (ts us : List Text) : Prop :=
  ts <+: us ∧ us ≠ ts ∧ Kinded backend us

/-- The same, with the place itself. -/
def From (ts us : List Text) : Prop := ts <+: us ∧ Kinded backend us

theorem from_apart {backend : Text} {ts us : List Text} {t t' : Text} (hne : t ≠ t')
    (h : From backend (ts ++ [t]) us) : ¬ From backend (ts ++ [t']) us := by
  rintro ⟨hunder', _⟩
  obtain ⟨hunder, _⟩ := h
  have hlength : (ts ++ [t]).length ≤ (ts ++ [t']).length := by
    simp only [length_append, length_singleton, Nat.le_refl]
  have hinner := prefix_of_prefix_length_le hunder hunder' hlength
  rw [prefix_append_right_inj, cons_prefix_cons] at hinner
  exact hne hinner.1

theorem Adds.from_below {backend : Text}
    (h : Adds sha256 c (fun us => us = ts ∧ Kinded backend us) s s')
    (h' : Adds sha256 c (Below backend ts) s' s'') : Adds sha256 c (From backend ts) s s'' := by
  refine (h.trans h' ?_).mono ?_
  · rintro us ⟨rfl, _⟩ ⟨_, hne, _⟩
    exact hne rfl
  · rintro us (⟨rfl, hkinded⟩ | ⟨hunder, _, hkinded⟩)
    · exact ⟨prefix_rfl, hkinded⟩
    · exact ⟨hunder, hkinded⟩

theorem pointerText_item (ts : List Text) (i : Nat) :
    pointerText ts ++ '/' :: decimal i = pointerText (ts ++ [decimal i]) := by
  have hplain : escapeToken (decimal i) = decimal i := by
    unfold escapeToken
    refine (flatMap_congr ?_).trans (flatMap_singleton' _)
    intro ch hch
    have hdigit := isDigit_of_mem_decimal hch
    rw [if_neg, if_neg]
    · rintro rfl
      exact absurd hdigit (by decide)
    · rintro rfl
      exact absurd hdigit (by decide)
  rw [pointerText_append, pointerText_cons, hplain]
  simp [pointerText]

theorem pointerText_field (ts : List Text) (key : Text) :
    pointerText ts ++ '/' :: pointerKey key = pointerText (ts ++ [key]) := by
  rw [pointerText_append, pointerText_cons]
  show _ = pointerText ts ++ '/' :: (escapeToken key ++ [])
  rw [append_nil]
  rfl

theorem zipIdx_apart (items : List Json) :
    items.zipIdx.Pairwise (fun p q => decimal p.2 ≠ decimal q.2) := by
  have hnodup : (items.zipIdx.map Prod.snd).Nodup := by
    rw [zipIdx_map_snd]
    exact nodup_range'
  rw [List.Nodup, pairwise_map] at hnodup
  refine hnodup.imp ?_
  intro p q hne heq
  have hnumbers := congrArg ofDecimal heq
  rw [ofDecimal_decimal, ofDecimal_decimal] at hnumbers
  exact hne hnumbers

/-- A walk that adds only below the place where it starts. -/
def WalksBelow (sha256 : Text → Text) (c : Context) (walk : Json → Text → Found → Access Found) :
    Prop :=
  ∀ {v : Json} {ts : List Text} {s s' : Found}, ts ≠ [] → follow c.source.native ts = some v →
    KeysDistinct v → walk v (pointerText ts) s = .ok s' →
      Adds sha256 c (Below c.source.backend ts) s s'

variable {walk' : Json → Text → Found → Access Found} {key : Text}

theorem addKinded_adds {item : Json} {i : Nat}
    (hitem : follow c.source.native (ts ++ [key] ++ [decimal i]) = some item)
    (h : addKinded sha256 truncate c key item (pointerText (ts ++ [key] ++ [decimal i])) s =
      .ok s') :
    Adds sha256 c (fun us => us = ts ++ [key] ++ [decimal i] ∧ Kinded c.source.backend us)
      s s' := by
  unfold addKinded at h
  split at h
  · next kind hkind =>
      refine (add_adds hitem h).mono ?_
      rintro us rfl
      refine ⟨rfl, Or.inr ⟨ts, key, decimal i, by simp, ?_⟩⟩
      rw [hkind]
      exact Option.some_ne_none kind
  · cases h
    exact Adds.unchanged rfl rfl rfl

variable {items : List Json}

theorem walkItem_adds (hwalk : WalksBelow sha256 c walk')
    (hitems : follow c.source.native (ts ++ [key]) = some (.arr items))
    (hkeys : ∀ v ∈ items, KeysDistinct v) {p : Json × Nat} (hp : p ∈ items.zipIdx)
    (h : walkItem sha256 truncate c walk' key (pointerText (ts ++ [key])) s p = .ok s') :
    Adds sha256 c (From c.source.backend (ts ++ [key] ++ [decimal p.2])) s s' := by
  have hitem : items[p.2]? = some p.1 := mem_zipIdx_iff_getElem?.mp hp
  have hfollow : follow c.source.native (ts ++ [key] ++ [decimal p.2]) = some p.1 := by
    rw [follow_concat hitems]
    exact child_item hitem
  unfold walkItem at h
  split at h
  · rw [pointerText_item, except_bind_ok] at h
    obtain ⟨mid, hadd, hrest⟩ := h
    have hbelow := hwalk (by simp) hfollow (hkeys p.1 (mem_of_getElem? hitem)) hrest
    exact (addKinded_adds hfollow hadd).from_below hbelow
  · cases h
    exact Adds.unchanged rfl rfl rfl

theorem addObject_adds {value item : Json}
    (hitem : follow c.source.native (ts ++ [key]) = some item)
    (h : addObject sha256 truncate c value key item (pointerText (ts ++ [key])) s = .ok s') :
    Adds sha256 c (fun us => us = ts ++ [key] ∧ Kinded c.source.backend us) s s' := by
  unfold addObject at h
  split at h
  · next hmethod =>
      refine (add_adds hitem h).mono ?_
      rintro us rfl
      exact ⟨rfl, Or.inl ⟨ts, key, rfl, Or.inl hmethod.2⟩⟩
  split at h
  · next hkey =>
      rw [except_bind_ok] at h
      obtain ⟨inherited, -, hadd⟩ := h
      refine (add_adds hitem hadd).mono ?_
      rintro us rfl
      exact ⟨rfl, Or.inl ⟨ts, key, rfl, Or.inr hkey⟩⟩
  · cases h
    exact Adds.unchanged rfl rfl rfl

variable {fields : List (Text × Json)}

theorem walkField_adds (hwalk : WalksBelow sha256 c walk')
    (hobject : follow c.source.native ts = some (.obj fields))
    (hkeys : KeysDistinct (.obj fields)) {f : Text × Json} (hf : f ∈ fields)
    (h : walkField sha256 truncate c walk' (.obj fields) (pointerText ts) s f = .ok s') :
    Adds sha256 c (From c.source.backend (ts ++ [f.1])) s s' := by
  obtain ⟨hnodup, hvalues⟩ : (fields.map Prod.fst).Nodup ∧ ∀ f ∈ fields, KeysDistinct f.2 := by
    cases hkeys with
    | obj hnodup hvalues => exact ⟨hnodup, hvalues⟩
  obtain ⟨key, v⟩ := f
  have hfollow : follow c.source.native (ts ++ [key]) = some v := by
    rw [follow_concat hobject]
    exact child_field hnodup hf
  have hvalue : KeysDistinct v := hvalues (key, v) hf
  unfold walkField at h
  split at h
  · cases h
    exact Adds.unchanged rfl rfl rfl
  dsimp only at h
  rw [pointerText_field] at h
  cases v with
  | arr items =>
    have hitems : ∀ w ∈ items, KeysDistinct w := by
      cases hvalue with
      | arr hitems => exact hitems
    have hround : ∀ p ∈ items.zipIdx, ∀ s s',
        walkItem sha256 truncate c walk' key (pointerText (ts ++ [key])) s p = .ok s' →
          Adds sha256 c (From c.source.backend (ts ++ [key] ++ [decimal p.2])) s s' :=
      fun p hp s s' hok => walkItem_adds hwalk hfollow hitems hp hok
    refine (Adds.foldlM ?_ hround h).mono ?_
    · exact (zipIdx_apart items).imp (fun hne us hus => from_apart hne hus)
    · rintro us ⟨p, _, hunder, hkinded⟩
      exact ⟨(prefix_append _ _).trans hunder, hkinded⟩
  | obj inner =>
    rw [except_bind_ok] at h
    obtain ⟨mid, hadd, hrest⟩ := h
    exact (addObject_adds hfollow hadd).from_below (hwalk (by simp) hfollow hvalue hrest)
  | null | bool | int | real | str =>
    cases h
    exact Adds.unchanged rfl rfl rfl

theorem walkFields_adds (hwalk : WalksBelow sha256 c walk')
    (hobject : follow c.source.native ts = some (.obj fields)) (hkeys : KeysDistinct (.obj fields))
    (h : fields.foldlM (walkField sha256 truncate c walk' (.obj fields) (pointerText ts)) s =
      .ok s') : Adds sha256 c (Below c.source.backend ts) s s' := by
  have hnodup : (fields.map Prod.fst).Nodup := by
    cases hkeys with
    | obj hnodup _ => exact hnodup
  rw [List.Nodup, pairwise_map] at hnodup
  have hround : ∀ f ∈ fields, ∀ s s',
      walkField sha256 truncate c walk' (.obj fields) (pointerText ts) s f = .ok s' →
        Adds sha256 c (From c.source.backend (ts ++ [f.1])) s s' :=
    fun f hf s s' hok => walkField_adds hwalk hobject hkeys hf hok
  refine (Adds.foldlM (hnodup.imp (fun hne us hus => from_apart hne hus)) hround h).mono ?_
  rintro us ⟨f, _, hunder, hkinded⟩
  refine ⟨(prefix_append _ _).trans hunder, ?_, hkinded⟩
  rintro rfl
  have hlength := hunder.length_le
  rw [length_append, length_singleton] at hlength
  omega

/-- At any depth, the walk adds only below the place where it starts. -/
theorem walk_below (n : Nat) : WalksBelow sha256 c (walk sha256 truncate c n) := by
  induction n with
  | zero =>
    intro v ts s s' _ _ _ h
    cases h
    exact Adds.unchanged rfl rfl rfl
  | succ n ih =>
    intro v ts s s' hts hfollow hkeys h
    have hpath : pointerText ts ≠ [] := by
      cases ts with
      | nil => exact absurd rfl hts
      | cons t rest => exact cons_ne_nil _ _
    cases v with
    | obj fields =>
      simp only [walk, managedRoots, hpath, and_false, if_false, except_bind_ok] at h
      obtain ⟨mid, hmid, h⟩ := h
      cases hmid
      exact walkFields_adds ih hfollow hkeys h
    | null | bool | int | real | str | arr =>
      cases h
      exact Adds.unchanged rfl rfl rfl

/-- The places of the items of a collection of the root. -/
def Collected (collection : Text) (ts : List Text) : Prop :=
  ∃ i, ts = [collection, decimal i]

variable {collection : Text}

theorem rootPointer_eq (hplain : escapeToken collection = collection)
    (i : Nat) : rootPointer collection i = pointerText ([collection] ++ [decimal i]) := by
  rw [← pointerText_item, pointerText_cons, hplain]
  simp [rootPointer, pointerText]

/-- A loop over a collection of the root adds at the places of its items. -/
theorem collection_adds (truncate : Text → Nat) (hplain : escapeToken collection = collection)
    (hitems : follow c.source.native [collection] = some (.arr items))
    {f : Found → Json × Nat → Access Found}
    (hstep : ∀ s p s', f s p = .ok s' → Adds sha256 c (fun _ => False) s s' ∨
      ∃ kind t, (t.entities = s.entities ∧ t.nativeIds = s.nativeIds ∧
          t.blockAddresses = s.blockAddresses) ∧
        add sha256 truncate c kind p.1 (rootPointer collection p.2) .null t = .ok s')
    (h : items.zipIdx.foldlM f s = .ok s') : Adds sha256 c (Collected collection) s s' := by
  have hround : ∀ p ∈ items.zipIdx, ∀ s s', f s p = .ok s' →
      Adds sha256 c (fun us => us = [collection] ++ [decimal p.2]) s s' := by
    intro p hp s s' hok
    rcases hstep s p s' hok with hnone | ⟨kind, t, ⟨hentities, hids, hblocks⟩, hadd⟩
    · exact hnone.mono (fun _ hfalse => hfalse.elim)
    have hitem : follow c.source.native ([collection] ++ [decimal p.2]) = some p.1 := by
      rw [follow_concat hitems]
      exact child_item (mem_zipIdx_iff_getElem?.mp hp)
    rw [rootPointer_eq hplain] at hadd
    have hunchanged : Adds sha256 c (fun _ => False) s t :=
      Adds.unchanged hentities hids hblocks
    refine (hunchanged.trans (add_adds hitem hadd) (fun _ hfalse => hfalse.elim)).mono ?_
    rintro us (hfalse | hus)
    · exact hfalse.elim
    · exact hus
  refine (Adds.foldlM ?_ hround h).mono ?_
  · refine (zipIdx_apart items).imp ?_
    rintro p q hne us rfl heq
    exact hne (List.cons.inj (append_cancel_left heq)).1
  · rintro us ⟨p, _, rfl⟩
    exact ⟨p.2, rfl⟩

theorem addItems_adds {collection kind : Text} {objectsOnly : Bool}
    (hplain : escapeToken collection = collection)
    (hitems : follow c.source.native [collection] = some (.arr items))
    (h : addItems sha256 truncate c collection kind objectsOnly items s = .ok s') :
    Adds sha256 c (Collected collection) s s' := by
  refine collection_adds truncate hplain hitems ?_ h
  intro s p s' hok
  split at hok
  · cases hok
    exact Or.inl (Adds.unchanged rfl rfl rfl)
  · exact Or.inr ⟨kind, s, ⟨rfl, rfl, rfl⟩, hok⟩

theorem follow_get? {j v : Json} (h : j.get? key = some v) : follow j [key] = some v := by
  cases j with
  | obj fields =>
    have hlookup : fields.lookup key = some v := h
    simp [follow, child, hlookup]
  | null | bool | int | real | str | arr => cases h

variable {collection : Text × Text}

theorem managedRoot_adds (hplain : escapeToken collection.1 = collection.1)
    (h : managedRoot sha256 truncate c c.source.native s collection = .ok s') :
    Adds sha256 c (Collected collection.1) s s' := by
  unfold managedRoot at h
  split at h
  · cases h
    exact Adds.unchanged rfl rfl rfl
  · next hfield => exact addItems_adds hplain (follow_get? hfield) h
  split at h
  · cases h
    exact Adds.unchanged rfl rfl rfl
  · cases h

theorem liefRoot_adds (hplain : escapeToken collection.1 = collection.1)
    (h : liefRoot sha256 truncate c c.source.native s collection = .ok s') :
    Adds sha256 c (Collected collection.1) s s' := by
  unfold liefRoot at h
  split at h
  · next hfield => exact addItems_adds hplain (follow_get? hfield) h
  · cases h
    exact Adds.unchanged rfl rfl rfl

theorem addPackets_adds (h : addPackets sha256 truncate c c.source.native s = .ok s') :
    Adds sha256 c (Collected "packets") s s' := by
  unfold addPackets at h
  split at h
  · next hfield =>
      refine collection_adds truncate (by decide) (follow_get? hfield) ?_ h
      intro s p s' hok
      unfold addPacket at hok
      split at hok
      · rw [except_bind_ok] at hok
        obtain ⟨cut, -, hadd⟩ := hok
        exact Or.inr ⟨_, { s with isPartial := s.isPartial || cut }, ⟨rfl, rfl, rfl⟩, hadd⟩
      · cases hok
        exact Or.inl (Adds.unchanged rfl rfl rfl)
  · cases h
    exact Adds.unchanged rfl rfl rfl

theorem addStreams_adds (h : addStreams sha256 truncate c c.source.native s = .ok s') :
    Adds sha256 c (Collected "streams") s s' := by
  unfold addStreams at h
  split at h
  · next hfield => exact addItems_adds (by decide) (follow_get? hfield) h
  · cases h
    exact Adds.unchanged rfl rfl rfl

/-- The items of different collections lie at different places. -/
theorem collected_apart {collection collection' : Text} (hne : collection ≠ collection')
    (ts : List Text) (h : Collected collection ts) : ¬ Collected collection' ts := by
  rintro ⟨j, hj⟩
  obtain ⟨i, hi⟩ := h
  rw [hi] at hj
  exact hne (List.cons.inj hj).1

/-- The collections of the root add at the places of their items. -/
theorem collections_add {collections : List (Text × Text)}
    {root : Found → Text × Text → Access Found}
    (hdistinct : collections.Pairwise (fun a b => a.1 ≠ b.1))
    (hroot : ∀ collection ∈ collections, ∀ s s', root s collection = .ok s' →
      Adds sha256 c (Collected collection.1) s s') (h : collections.foldlM root s = .ok s') :
    Adds sha256 c (fun ts => ∃ collection ∈ collections, Collected collection.1 ts) s s' :=
  Adds.foldlM (hdistinct.imp (fun hne => collected_apart hne)) hroot h

theorem managedRoots_adds (h : managedRoots sha256 truncate c c.source.native [] s = .ok s') :
    Adds sha256 c (fun ts => c.source.backend = "ilspy" ∧
      ∃ collection ∈ managedCollections, Collected collection.1 ts) s s' := by
  unfold managedRoots at h
  split at h
  · next hilspy =>
      have hplain : ∀ collection ∈ managedCollections,
          escapeToken collection.1 = collection.1 := by decide
      refine (collections_add (by decide) ?_ h).mono (fun ts hts => ⟨hilspy.1, hts⟩)
      exact fun collection hmem s s' hok => managedRoot_adds (hplain collection hmem) hok
  · cases h
    exact Adds.unchanged rfl rfl rfl

/-- No place of a collection of the root has a kind for the rest of the walk. -/
theorem managed_not_kinded
    (hmem : collection ∈ managedCollections) (h : Collected collection.1 ts) :
    ¬ Kinded "ilspy" ts := by
  obtain ⟨i, rfl⟩ := h
  rintro (⟨before, key, heq, hkey⟩ | ⟨before, key, j, heq, hkind⟩)
  · have hlast : decimal i = key := by
      have hlasts := congrArg List.getLast? heq
      simpa using hlasts
    have hdigits : ∀ ch ∈ key, ch.isDigit = true := by
      rw [← hlast]
      exact fun ch hch => isDigit_of_mem_decimal hch
    rcases hkey with rfl | rfl | rfl
    · exact absurd (hdigits 'm' (by decide)) (by decide)
    · exact absurd (hdigits 'f' (by decide)) (by decide)
    · exact absurd (hdigits 'c' (by decide)) (by decide)
  · have hkey : collection.1 = key := by
      cases before with
      | nil => exact (List.cons.inj heq).1
      | cons t rest =>
        have hlength := congrArg List.length heq
        simp at hlength
    have hnone : ∀ collection ∈ managedCollections,
        itemKind "ilspy" collection.1 = none := by decide
    rw [← hkey] at hkind
    exact hkind (hnone collection hmem)

theorem walk_adds {n : Nat} (hkeys : KeysDistinct c.source.native)
    (h : walk sha256 truncate c (n + 1) c.source.native [] s = .ok s') :
    Adds sha256 c (fun _ => True) s s' := by
  cases hnative : c.source.native with
  | obj fields =>
    rw [hnative] at h
    simp only [walk, and_true, except_bind_ok] at h
    obtain ⟨mid, hmanaged, h⟩ := h
    rw [← hnative] at hmanaged h
    have hfirst := managedRoots_adds hmanaged
    split at h
    · next hwireshark =>
        rw [except_bind_ok] at h
        obtain ⟨packets, hpackets, hstreams⟩ := h
        have hroots := (addPackets_adds hpackets).trans (addStreams_adds hstreams)
          (collected_apart (by decide))
        refine (hfirst.trans hroots ?_).mono (fun _ _ => trivial)
        rintro ts ⟨hilspy, _⟩
        rw [hwireshark] at hilspy
        exact absurd hilspy (by decide)
    · split at h
      · next hlief =>
          have hplain : ∀ collection ∈ liefCollections,
              escapeToken collection.1 = collection.1 := by decide
          have hroots := collections_add (by decide)
            (fun collection hmem s s' hok => liefRoot_adds (hplain collection hmem) hok) h
          refine (hfirst.trans hroots ?_).mono (fun _ _ => trivial)
          rintro ts ⟨hilspy, _⟩
          rw [hlief] at hilspy
          exact absurd hilspy (by decide)
      · have hobject : follow c.source.native [] = some (.obj fields) := by
          rw [← hnative]
          rfl
        rw [hnative] at hkeys h
        have hfields := walkFields_adds (walk_below n) hobject hkeys h
        refine (hfirst.trans hfields ?_).mono (fun _ _ => trivial)
        rintro ts ⟨hilspy, collection, hmem, hcollected⟩ ⟨_, _, hkinded⟩
        rw [hilspy] at hkinded
        exact managed_not_kinded hmem hcollected hkinded
  | null | bool | int | real | str | arr =>
    rw [hnative] at h
    cases h
    exact Adds.unchanged rfl rfl rfl

end StaticIndex

end Indago
