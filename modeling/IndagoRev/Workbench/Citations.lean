import IndagoRev.Workbench.StaticPlaces
import IndagoRev.Workbench.StaticRelations

/-!
# Every pointer of the static index is a citation

An entity cites its place, and a claim cites the field of its entity that it repeats.
Endpoints of relations come from the maps of the walk, or are the entity itself, so that
those that are not null are ids of entities.
-/

namespace Indago

namespace StaticIndex

open StdText JsonValues JsonPointers Transactions

variable {sha256 : Text → Text} {truncate : Text → Nat} {same : Json → Json → Bool}
variable {c : Context} {s : Found}

/-- An endpoint that is not null is the id of an entity. -/
def Known (s : Found) (endpoint : Option Text) : Prop :=
  ∀ id, endpoint = some id → ∃ e ∈ s.entities, e.id = id

/-- Both endpoints of a relation are known. -/
def Linked (s : Found) (r : Relation) : Prop := Known s r.source ∧ Known s r.target

theorem known_none : Known s none := by
  intro id h
  cases h

variable {e : Entity}

theorem known_self (he : e ∈ s.entities) : Known s (some e.id) := by
  intro id h
  cases h
  exact ⟨e, he, rfl⟩

theorem snd_of_lookup {m : List (Text × Text)} {key id : Text} (h : m.lookup key = some id) :
    id ∈ m.map Prod.snd := by
  induction m with
  | nil => cases h
  | cons entry rest ih =>
    rw [List.lookup_cons] at h
    split at h
    · cases h
      exact List.mem_cons_self
    · exact List.mem_cons_of_mem _ (ih h)

theorem resolve_known (hnamed : Named s) (e : Entity) (kind : Text) (n : Json) :
    Known s (resolve s e kind n) :=
  fun id h => hnamed id (List.mem_append_left _ (snd_of_lookup h))

theorem resolveField_known (hnamed : Named s) (e : Entity) (kind field : Text) :
    Known s (resolveField s e kind field) := by
  unfold resolveField
  cases e.native.get? field with
  | none => exact known_none
  | some n => exact resolve_known hnamed e kind n

theorem blockAt_known (hnamed : Named s) {entity entity' : Option Text} {loc : Json}
    (h : blockAt s e entity loc = .ok entity') (hentity : Known s entity) : Known s entity' := by
  unfold blockAt at h
  split at h
  · rw [except_bind_ok] at h
    obtain ⟨key, -, h⟩ := h
    cases h
    exact fun id hid => hnamed id (List.mem_append_right _ (snd_of_lookup hid))
  · cases h
    exact hentity

theorem relation_linked {owner e : Entity} {kind : Text} {target : Option Text}
    {sourceLocation targetLocation details : Json} (he : e ∈ s.entities) (htarget : Known s target) :
    Linked s (relation sha256 c owner kind (some e.id) target sourceLocation targetLocation
      details) :=
  ⟨known_self he, htarget⟩

/-- The relations of a step are linked. -/
def AllLinked (s : Found) (relations : List Relation) : Prop := ∀ r ∈ relations, Linked s r

theorem allLinked_nil : AllLinked s [] := by
  intro r hr
  cases hr

theorem allLinked_singleton {r : Relation} (h : Linked s r) : AllLinked s [r] := by
  intro r' hr'
  rw [List.mem_singleton] at hr'
  exact hr' ▸ h

theorem allLinked_append {relations more : List Relation} :
    AllLinked s (relations ++ more) ↔ AllLinked s relations ∧ AllLinked s more :=
  List.forall_mem_append

theorem allLinked_map {α : Type} {l : List α} {f : α → Relation} (h : ∀ a ∈ l, Linked s (f a)) :
    AllLinked s (l.map f) := by
  intro r hr
  obtain ⟨a, ha, rfl⟩ := List.mem_map.mp hr
  exact h a ha

theorem allLinked_mapM {α : Type} {l : List α} {f : α → Access (List Relation)}
    {relations : List (List Relation)} (h : l.mapM f = .ok relations)
    (hstep : ∀ a ∈ l, ∀ more, f a = .ok more → AllLinked s more) :
    AllLinked s relations.flatten := by
  intro r hr
  obtain ⟨more, hmore, hr⟩ := List.mem_flatten.mp hr
  obtain ⟨a, ha, hok⟩ := except_mapM_mem l h hmore
  exact hstep a ha more hok r hr

variable {relations : List Relation}

theorem containedIn_linked {owner e : Entity} {ranges : List Json}
    (howner : owner ∈ s.entities) (he : e ∈ s.entities)
    (h : containedIn sha256 c owner ranges e = .ok relations) : AllLinked s relations := by
  unfold containedIn at h
  split at h
  · cases h
    exact allLinked_nil
  rw [except_bind_ok] at h
  obtain ⟨place, -, h⟩ := h
  split at h
  · cases h
    exact allLinked_nil
  · rw [except_bind_ok] at h
    obtain ⟨inside, -, h⟩ := h
    split at h
    · cases h
      exact allLinked_singleton (relation_linked howner (known_self he))
    · cases h
      exact allLinked_nil

theorem functionBody_linked
    (h : functionBody sha256 c s = .ok relations) : AllLinked s relations := by
  unfold functionBody at h
  split at h
  · split at h
    · cases h
      exact allLinked_nil
    split at h
    · next owner ranges howner _ =>
        rw [except_bind_ok] at h
        obtain ⟨lists, hlists, h⟩ := h
        cases h
        exact allLinked_mapM hlists (fun e he more hok =>
          containedIn_linked (List.mem_of_find?_eq_some howner) he hok)
    · cases h
      exact allLinked_nil
  · cases h
    exact allLinked_nil

section Entities

variable {e : Entity}

theorem memberReference_linked (he : e ∈ s.entities)
    (h : memberReference sha256 c e = .ok (some relations)) : AllLinked s relations := by
  unfold memberReference at h
  split at h
  · rw [except_bind_ok] at h
    obtain ⟨resolution, -, h⟩ := h
    split at h
    · rw [except_bind_ok] at h
      obtain ⟨token, -, h⟩ := h
      split at h
      · cases h
      · rw [except_bind_ok] at h
        obtain ⟨artifact, -, h⟩ := h
        cases h
        exact allLinked_singleton (relation_linked he known_none)
    · cases h
      exact allLinked_nil
  · cases h
    exact allLinked_nil

theorem assemblyReference_linked (he : e ∈ s.entities)
    (h : assemblyReference sha256 c e = .ok relations) : AllLinked s relations := by
  unfold assemblyReference at h
  split at h
  · rw [except_bind_ok] at h
    obtain ⟨resolution, -, h⟩ := h
    split at h
    · rw [except_bind_ok] at h
      obtain ⟨artifact, -, h⟩ := h
      cases h
      exact allLinked_singleton (relation_linked he known_none)
    · cases h
      exact allLinked_nil
  · cases h
    exact allLinked_nil

theorem streamMembers_linked (hnamed : Named s) (he : e ∈ s.entities) :
    AllLinked s (streamMembers sha256 c s e) := by
  unfold streamMembers
  split
  · intro r hr
    obtain ⟨stream, _, hstream⟩ := List.mem_filterMap.mp hr
    obtain ⟨id, _, rfl⟩ := Option.map_eq_some_iff.mp hstream
    exact relation_linked he (resolve_known hnamed e _ id)
  · exact allLinked_nil

theorem frameReference_linked (hnamed : Named s) (he : e ∈ s.entities) {frame : Json}
    (h : frameReference sha256 truncate c s e frame = .ok relations) : AllLinked s relations := by
  unfold frameReference at h
  split at h
  · rw [except_bind_ok] at h
    obtain ⟨kind, -, h⟩ := h
    split at h
    · rw [except_bind_ok] at h
      obtain ⟨destination, -, h⟩ := h
      cases h
      exact allLinked_singleton (relation_linked he (resolve_known hnamed e _ _))
    · cases h
      exact allLinked_nil
  · cases h
    exact allLinked_nil

theorem frameReferences_linked (hnamed : Named s) (he : e ∈ s.entities)
    (h : frameReferences sha256 truncate c s e = .ok relations) : AllLinked s relations := by
  unfold frameReferences at h
  split at h
  · rw [except_bind_ok] at h
    obtain ⟨lists, hlists, h⟩ := h
    cases h
    exact allLinked_mapM hlists (fun frame _ more hok => frameReference_linked hnamed he hok)
  · cases h
    exact allLinked_nil

theorem dispatchCandidate_linked (he : e ∈ s.entities)
    (h : dispatchCandidate sha256 truncate c e = .ok relations) : AllLinked s relations := by
  unfold dispatchCandidate at h
  split at h
  · split at h
    · rw [except_bind_ok] at h
      obtain ⟨destination, -, h⟩ := h
      split at h
      · cases h
        exact allLinked_nil
      · cases h
        exact allLinked_singleton (relation_linked he known_none)
    · cases h
      exact allLinked_nil
  · cases h
    exact allLinked_nil

theorem flowRelation_linked (hnamed : Named s)
    (h : flowRelation sha256 truncate c s e = .ok relations) : AllLinked s relations := by
  unfold flowRelation at h
  split at h
  · simp only [except_bind_ok] at h
    obtain ⟨sourceLocation, -, targetLocation, -, rawLocation, -, source, hsource, target,
      htarget, h⟩ := h
    cases h
    refine allLinked_singleton ⟨blockAt_known hnamed hsource ?_, blockAt_known hnamed htarget ?_⟩
    · split
      · exact resolveField_known hnamed e _ _
      · exact resolveField_known hnamed e _ _
    · split
      · exact resolveField_known hnamed e _ _
      · exact resolveField_known hnamed e _ _
  · cases h
    exact allLinked_nil

theorem valueRelation_linked (hnamed : Named s) (he : e ∈ s.entities) (kind : Text)
    (value : Json) : Linked s (valueRelation sha256 c s e kind value) :=
  relation_linked he (resolve_known hnamed e _ value)

theorem nativeValues_linked (hnamed : Named s) (he : e ∈ s.entities) :
    AllLinked s (nativeValues sha256 c s e) := by
  unfold nativeValues
  split
  · rw [allLinked_append]
    exact ⟨allLinked_map (fun v _ => valueRelation_linked hnamed he _ v),
      allLinked_map (fun v _ => valueRelation_linked hnamed he _ v)⟩
  · exact allLinked_nil

theorem memoryEffect_linked (he : e ∈ s.entities) {effects : Json} {effect : Text}
    (h : memoryEffect sha256 c e effects effect = .ok relations) : AllLinked s relations := by
  unfold memoryEffect at h
  rw [except_bind_ok] at h
  obtain ⟨has, -, h⟩ := h
  split at h
  · cases h
    exact allLinked_singleton (relation_linked he known_none)
  · cases h
    exact allLinked_nil

theorem memoryEffects_linked (he : e ∈ s.entities)
    (h : memoryEffects sha256 c e = .ok relations) : AllLinked s relations := by
  unfold memoryEffects at h
  split at h
  · cases h
    exact allLinked_nil
  · simp only [except_bind_ok] at h
    obtain ⟨reads, hreads, writes, hwrites, h⟩ := h
    cases h
    exact allLinked_append.mpr ⟨memoryEffect_linked he hreads, memoryEffect_linked he hwrites⟩

theorem operationRelations_linked (hnamed : Named s) (he : e ∈ s.entities)
    (h : operationRelations sha256 c s e = .ok relations) : AllLinked s relations := by
  unfold operationRelations at h
  split at h
  · rw [except_bind_ok] at h
    obtain ⟨effects, heffects, h⟩ := h
    cases h
    simp only [allLinked_append]
    exact ⟨⟨⟨nativeValues_linked hnamed he,
      allLinked_map (fun v _ => valueRelation_linked hnamed he _ v)⟩,
      allLinked_map (fun v _ => valueRelation_linked hnamed he _ v)⟩,
      memoryEffects_linked he heffects⟩
  · cases h
    exact allLinked_nil

theorem functionBlocks_linked (hnamed : Named s) (he : e ∈ s.entities) :
    AllLinked s (functionBlocks sha256 c s e) := by
  unfold functionBlocks
  split
  · exact allLinked_map (fun block _ => relation_linked he (resolve_known hnamed e _ block))
  · exact allLinked_nil

theorem entityRelations_linked (hnamed : Named s) (he : e ∈ s.entities)
    (h : entityRelations sha256 truncate c s e = .ok (some relations)) : AllLinked s relations := by
  unfold entityRelations at h
  rw [except_bind_ok] at h
  obtain ⟨members, hmembers, h⟩ := h
  cases members with
  | none => cases h
  | some members =>
    simp only [except_bind_ok] at h
    obtain ⟨assemblies, hassemblies, frames, hframes, candidates, hcandidates, flows, hflows,
      operations, hoperations, h⟩ := h
    cases h
    simp only [allLinked_append]
    exact ⟨⟨⟨⟨⟨⟨⟨memberReference_linked he hmembers, assemblyReference_linked he hassemblies⟩,
      streamMembers_linked hnamed he⟩, frameReferences_linked hnamed he hframes⟩,
      dispatchCandidate_linked he hcandidates⟩, flowRelation_linked hnamed hflows⟩,
      operationRelations_linked hnamed he hoperations⟩, functionBlocks_linked hnamed he⟩

end Entities

theorem fieldClaim_cites {ts : List Text} (hcite : Cites sha256 c e ts)
    {field : Text} (hfield : field ∈ claimFields) {claims : List Claim}
    (h : fieldClaim sha256 c e field = .ok claims) :
    ∀ claim ∈ claims, evaluate c.source.native claim.jsonPointer = some claim.value := by
  have hplain : ∀ field ∈ claimFields, pointerKey field = field := by decide
  unfold fieldClaim at h
  split at h
  · cases h
    intro claim hclaim
    cases hclaim
  next value hvalue =>
    simp only [except_bind_ok] at h
    obtain ⟨request, -, operation, -, h⟩ := h
    cases h
    intro claim' hclaim
    rw [List.mem_singleton] at hclaim
    subst hclaim
    show evaluate c.source.native (e.jsonPointer ++ '/' :: field) = some value
    have hpointer : e.jsonPointer ++ '/' :: field = pointerText (ts ++ [field]) := by
      rw [hcite.pointer, ← pointerText_field, hplain field hfield]
    rw [hpointer, evaluate_text, follow_append, hcite.native]
    exact follow_get? hvalue

theorem entityClaims_cite {ts : List Text} (hcite : Cites sha256 c e ts)
    {claims : List Claim} (h : entityClaims sha256 c e = .ok claims) :
    ∀ claim ∈ claims, evaluate c.source.native claim.jsonPointer = some claim.value := by
  unfold entityClaims at h
  rw [except_bind_ok] at h
  obtain ⟨lists, hlists, h⟩ := h
  cases h
  intro claim hclaim
  obtain ⟨list, hlist, hclaim⟩ := List.mem_flatten.mp hclaim
  obtain ⟨field, hfield, hok⟩ := except_mapM_mem claimFields hlists hlist
  exact fieldClaim_cites hcite hfield hok claim hclaim

/-- What the second loop keeps about its result. -/
structure Indexes (c : Context) (s : Found) (out : Normalized) : Prop where
  entities : out.entities = s.entities
  linked : AllLinked s out.relations
  claims : ∀ claim ∈ out.claims, evaluate c.source.native claim.jsonPointer = some claim.value

theorem indexEntity_indexes (hnamed : Named s) (he : e ∈ s.entities)
    {ts : List Text} (hcite : Cites sha256 c e ts) {out out' : Normalized}
    (hout : Indexes c s out) (h : indexEntity sha256 truncate c s out e = .ok out') :
    Indexes c s out' := by
  unfold indexEntity at h
  rw [except_bind_ok] at h
  obtain ⟨relations, hrelations, h⟩ := h
  cases relations with
  | none =>
    cases h
    exact ⟨hout.entities, hout.linked, hout.claims⟩
  | some relations =>
    simp only [except_bind_ok] at h
    obtain ⟨claims, hclaims, h⟩ := h
    cases h
    refine ⟨hout.entities, ?_, ?_⟩
    · exact allLinked_append.mpr ⟨hout.linked, entityRelations_linked hnamed he hrelations⟩
    · exact List.forall_mem_append.mpr ⟨hout.claims, entityClaims_cite hcite hclaims⟩

theorem indexEntities_indexes (hnamed : Named s)
    (hcites : ∀ e ∈ s.entities, ∃ ts, Cites sha256 c e ts) {es : List Entity}
    (hes : ∀ e ∈ es, e ∈ s.entities) {out out' : Normalized} (hout : Indexes c s out)
    (h : es.foldlM (indexEntity sha256 truncate c s) out = .ok out') : Indexes c s out' := by
  induction es generalizing out with
  | nil =>
    cases h
    exact hout
  | cons e rest ih =>
    rw [List.foldlM_cons, except_bind_ok] at h
    obtain ⟨mid, hfirst, hrest⟩ := h
    have he := hes e List.mem_cons_self
    obtain ⟨ts, hcite⟩ := hcites e he
    exact ih (fun e' he' => hes e' (List.mem_cons_of_mem _ he'))
      (indexEntity_indexes hnamed he hcite hout hfirst) hrest

/-- The pointers of a result are citations of the document, and its endpoints are ids. -/
structure Citations (document : Json) (out : Normalized) : Prop where
  entities : ∀ e ∈ out.entities, evaluate document e.jsonPointer = some e.native
  claims : ∀ claim ∈ out.claims, evaluate document claim.jsonPointer = some claim.value
  pointers : (out.entities.map Entity.jsonPointer).Nodup
  ids : (out.entities.map Entity.id).Nodup
  endpoints : ∀ r ∈ out.relations, ∀ id, r.source = some id ∨ r.target = some id →
    ∃ e ∈ out.entities, e.id = id

theorem entityKey_injective {p q : Text} (h : (entityKey c p).dump = (entityKey c q).dump) :
    p = q := by
  simp only [entityKey, Json.dump, Json.dumpItems] at h
  have hitems := List.append_cancel_right (List.cons.inj h).2
  have hrest := (List.cons.inj (List.append_cancel_left hitems)).2
  exact Json.quoted_injective (List.cons.inj (List.append_cancel_left hrest)).2

/-- Every pointer that `normalize_static` writes is a true citation, when no two keys of its
entities have one hash. -/
theorem normalizeStatic_cites (sha256 : Text → Text) (truncate : Text → Nat)
    (same : Json → Json → Bool) (src : Source) (out : Normalized) (hkeys : KeysDistinct src.native)
    (h : normalizeStatic sha256 truncate same src = .ok out)
    (hsha : ∀ e ∈ out.entities, ∀ e' ∈ out.entities,
      sha256 e.key.dump = sha256 e'.key.dump → e.key.dump = e'.key.dump) :
    Citations src.native out := by
  unfold normalizeStatic at h
  simp only [except_bind_ok] at h
  obtain ⟨_, -, revision, -, program, -, s, hwalk, body, hbody, h⟩ := h
  obtain ⟨⟨new, hnew, hnodup, hplaces⟩, hnamed⟩ := walk_adds hkeys hwalk
  have hempty : Named ({} : Found) := by
    intro id hid
    cases hid
  have hentities : s.entities = new := by
    rw [hnew]
    rfl
  rw [← hentities] at hnodup hplaces
  have hcites : ∀ e ∈ s.entities, ∃ ts,
      Cites sha256 { source := src, revision := revision, program := program } e ts := by
    intro e he
    obtain ⟨ts, _, hcite⟩ := hplaces e he
    exact ⟨ts, hcite⟩
  have hindexes := indexEntities_indexes (hnamed hempty) hcites (fun e he => he)
    ⟨rfl, functionBody_linked hbody, fun claim hclaim => by cases hclaim⟩ h
  have hsame := hindexes.entities
  constructor
  · intro e he
    rw [hsame] at he
    obtain ⟨ts, hcite⟩ := hcites e he
    rw [hcite.pointer, evaluate_text]
    exact hcite.native
  · exact hindexes.claims
  · rw [hsame]
    exact hnodup
  · rw [List.Nodup, List.pairwise_map, hsame]
    rw [List.Nodup, List.pairwise_map] at hnodup
    refine hnodup.imp_of_mem ?_
    intro e e' he he' hne heq
    obtain ⟨ts, hcite⟩ := hcites e he
    obtain ⟨ts', hcite'⟩ := hcites e' he'
    rw [hcite.id, hcite'.id] at heq
    have hhash := (List.cons.inj (List.append_cancel_left heq)).2
    have hdump := hsha e (hsame ▸ he) e' (hsame ▸ he') hhash
    rw [hcite.key, hcite'.key] at hdump
    exact hne (entityKey_injective hdump)
  · intro r hr id hid
    rw [hsame]
    obtain ⟨hsource, htarget⟩ := hindexes.linked r hr
    exact hid.elim (hsource id) (htarget id)

/-- A result with functions under the empty key and under one with a slash. -/
def twoFunctions : Source where
  target := "a"
  job := .obj [("revision", .str "r")]
  backend := "ghidra"
  evidence := "e"
  native := .obj [([], .obj [("functions", .arr [.obj []])]),
    ("a/b", .obj [("functions", .arr [.obj []])])]
  layout := .null

/-- SHA-256 of the keys of that result's entities. -/
def keyDigest (t : Text) : Text :=
  if t = "[\"r\",\"ghidra\",\"//functions/0\"]" then
    "09e39afe0e457625780b278ad5dceb054dd77ea541fb650d0bd92fd9c36859be"
  else if t = "[\"r\",\"ghidra\",\"/a~1b/functions/0\"]" then
    "2b134b73990bc950fed05ad50e05c91aa37d28e98cf3bea5d04c9cc2ced1ea22"
  else []

theorem twoFunctions_cited : ∃ out,
    normalizeStatic keyDigest (fun _ => 0) (fun _ _ => false) twoFunctions = .ok out ∧
      out.entities.map Entity.jsonPointer =
        ["//functions/0".toList, "/a~1b/functions/0".toList] ∧
      Citations twoFunctions.native out := by
  have hempty : KeysDistinct (.obj []) :=
    .obj List.nodup_nil (fun f hf => by cases hf)
  have hfunctions : KeysDistinct (.obj [("functions", .arr [.obj []])]) := by
    refine .obj (by decide) ?_
    intro f hf
    rw [List.mem_singleton] at hf
    subst hf
    refine .arr ?_
    intro v hv
    rw [List.mem_singleton] at hv
    exact hv ▸ hempty
  refine ⟨_, rfl, rfl, normalizeStatic_cites keyDigest (fun _ => 0) (fun _ _ => false)
    twoFunctions _ ?_ rfl ?_⟩
  · refine .obj (by decide) ?_
    intro f hf
    rcases List.mem_cons.mp hf with rfl | hf
    · exact hfunctions
    · rw [List.mem_singleton] at hf
      exact hf ▸ hfunctions
  · decide

end StaticIndex

end Indago
